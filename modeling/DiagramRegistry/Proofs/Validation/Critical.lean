import DiagramRegistry.Proofs.Text.Lines
import DiagramRegistry.Proofs.Validation.Appending

/-
# Documents without critical findings

The findings that a document brings about by itself depend on its name, its version and its
content only.  When none of them is critical, the document has a sound envelope, declares a
state, can be read, and does not refer to itself (`SoundDocument`).  As neither the location
nor the store plays a part in this, it stays true of a document that is moved, whatever is
stored later.
-/
namespace DiagramRegistry

namespace Findings

lemma criticalErrors_append (a b : Findings) :
    (a ++ b).criticalErrors = a.criticalErrors ++ b.criticalErrors := List.filter_append _ _

lemma hasError_eq_false_of_clean {found : Findings} (h : found.criticalErrors = []) {code : Code}
    (hcode : code.isCritical = true) : found.hasError code = false := by
  rw [hasError, List.any_eq_false]
  intro f hf hfcode
  have hcritical : f ∈ found.criticalErrors :=
    List.mem_filter.2 ⟨hf, by rw [of_decide_eq_true hfcode]; exact hcode⟩
  rw [h] at hcritical
  exact absurd hcritical (by simp)

end Findings

/-! ## Everything the envelope check finds is critical -/

namespace Envelope

/-- All errors found so far are critical. -/
def Critical (found : Findings) : Prop := ∀ f ∈ found.errors, f.code.isCritical = true

lemma Critical.error {found : Findings} (h : Critical found) {f : Finding}
    (hf : f.code.isCritical = true) : Critical (found.error f) := by
  intro g hg
  rcases List.mem_append.1 hg with hg | hg
  · exact h g hg
  · rw [List.mem_singleton.1 hg]
    exact hf

lemma critical_step {e : Envelope} (h : Critical e.found) (l : List Char × Nat) :
    Critical (e.step l).found := by
  unfold step
  split
  · exact h
  · split
    · exact h
    · exact h.error rfl
  · split
    · exact h
    · exact h.error rfl

lemma critical_close {e : Envelope} (h : Critical e.found) (lineCount : Nat) :
    Critical (e.close lineCount) := by
  obtain ⟨start?, stop?, found⟩ := e
  cases start? with
  | none =>
    cases stop? with
    | none => exact (h.error rfl).error rfl
    | some stop => exact h.error rfl
  | some start =>
    cases stop? with
    | none => exact h.error rfl
    | some stop =>
      simp only [close, Option.isNone_some, Bool.false_eq_true, if_false]
      split
      · exact h.error rfl
      · exact h

lemma critical_check (content : String) : Critical (check content .none) := by
  have hfold : ∀ (ls : List (List Char × Nat)) (e : Envelope), Critical e.found →
      Critical (ls.foldl step e).found := by
    intro ls
    induction ls with
    | nil => intro e h; exact h
    | cons l ls ih => intro e h; exact ih _ (critical_step h l)
  exact critical_close (hfold _ _ (by simp [Critical, Findings.none])) _

end Envelope

/-! ## Documents that can be read -/

/-- The references of a document can only be read when it holds no NUL character. -/
lemma not_mem_of_includes_eq_ok {content : String} {rs : List Reference}
    (h : includes content = .ok rs) : '\x00' ∉ content.toList := by
  intro hmem
  obtain ⟨l, hl, hnul⟩ := Text.exists_mem_lines (by decide) (by decide) hmem
  obtain ⟨i, hi, rfl⟩ := List.getElem_of_mem hl
  have hnumbered : ((Text.lines content.toList)[i], 1 + i) ∈ Text.numberedLines content := by
    rw [Text.numberedLines, List.mk_add_mem_zipIdx_iff_getElem?]
    exact List.getElem?_eq_getElem hi
  -- reading stops at the first numbered line with a NUL character, so there is none
  simp only [includes] at h
  split at h
  · exact absurd h (by simp)
  · rename_i hfind
    exact absurd hnul (by simpa using List.find?_eq_none.1 hfind _ hnumbered)

/-! ## References to the document itself -/

namespace Reference

/-- What is found about one of the references is found about all of them. -/
lemma errors_check_subset_checkAll {owner : Key} {rs : List Reference} {r : Reference}
    (hr : r ∈ rs) :
    (r.check owner.name owner.version .none).errors ⊆ (checkAll owner rs .none).errors := by
  induction rs with
  | nil => simp at hr
  | cons s rs ih =>
    rw [checkAll_cons, Findings.errors_append]
    rcases List.mem_cons.1 hr with rfl | hr
    · exact List.subset_append_left _ _
    · exact List.Subset.trans (ih hr) (List.subset_append_right _ _)

lemma errors_checkPath (r : Reference) (code : Code) (found : Findings) :
    (r.checkPath code found).errors = found.errors := by
  unfold checkPath
  split
  · rfl
  · split <;> rfl

lemma hasError_checkVersion (r : Reference) :
    (r.checkVersion .none).hasError .selfReference = false := by
  unfold checkVersion
  split_ifs <;> simp [Findings.hasError, Findings.error, Findings.none, Finding.onLine]

/-- A product reference to the declaring diagram is an error when the diagram is well named, and no
other reference is reported in this way. -/
lemma hasError_selfReference_iff {r : Reference} {name version : String} :
    (r.check name version .none).hasError .selfReference = true ↔
      isIdentifier r.name = true ∧ r.kind = .product ∧ r.name = name ∧ r.version = version := by
  unfold check
  by_cases hname : isIdentifier r.name = true
  · have hversion := hasError_checkVersion r
    simp only [Findings.hasError, hname, Bool.not_true, Bool.false_eq_true, if_false,
      true_and] at hversion ⊢
    cases hkind : r.kind with
    | product =>
      simp only [checkProduct, errors_checkPath, true_and]
      split_ifs with hself
      · simp [Findings.error, Finding.onLine, hself]
      · simpa [hself] using hversion
    | nested =>
      simp only [checkNested, errors_checkPath]
      split_ifs <;> simp [Findings.error, Findings.warning, Findings.none, Finding.onLine]
    | unknown label => simp [Findings.error, Findings.none, Finding.onLine]
  · simp [hname, Findings.hasError, Findings.error, Findings.none, Finding.onLine]

/-- So is a nested reference to the name of the declaring diagram. -/
lemma hasError_nestedSelfReference {r : Reference} {name version : String}
    (hname : isIdentifier name = true) (hkind : r.kind = .nested) (hn : r.name = name) :
    (r.check name version .none).hasError .nestedSelfReference = true := by
  simp only [check, hn, hname, hkind, checkNested, if_true, Bool.not_true, Bool.false_eq_true,
    if_false, Findings.hasError, List.any_eq_true, decide_eq_true_eq]
  rw [errors_checkPath]
  exact ⟨_, List.mem_append_right _ (List.mem_singleton.2 rfl), rfl⟩

end Reference

/-! ## Sound documents -/

/-- Given a repository, the critical findings are those of the document itself and those of
the resolution of its references. -/
lemma Validation.criticalErrors_run (c : Catalogue) (d : Diagram) :
    (run (some c) .staging d).2.criticalErrors =
      (own d.key.name d.key.version d.content).criticalErrors ++
        (resolve (some c) d.key (referencesOf d.content) .none).criticalErrors := by
  simp only [run, passes_eq, Findings.apply, Findings.criticalErrors_append]
  congr 1
  cases referencesOf d.content <;> rfl

/-- A document that has a sound envelope, declares a state, can be read and does not refer to
itself, under the given name and version. -/
structure SoundDocument (name version content : String) : Prop where
  /-- The envelope check finds no error. -/
  envelope : (Envelope.check content .none).errors = []
  /-- The body declares a state. -/
  states : (Body.check content .none).hasError .noStates = false
  /-- There is no NUL character. -/
  noNul : '\x00' ∉ content.toList
  /-- The references can be read, and none leads back to the document. -/
  noSelf : ∃ rs, includes content = .ok rs ∧ ∀ r ∈ rs,
    ¬ (r.kind = .product ∧ r.name = name ∧ r.version = version) ∧
      ¬ (r.kind = .nested ∧ r.name = name)

/-- No reference of a sound document leads to its own key at production. -/
lemma SoundDocument.not_mem_targetsOf {name version content : String}
    (h : SoundDocument name version content) : Key.production name version ∉ targetsOf content := by
  obtain ⟨rs, hrs, hself⟩ := h.noSelf
  rw [targetsOf, hrs]
  intro hmem
  obtain ⟨r, hr, htarget⟩ := List.mem_filterMap.1 hmem
  unfold Reference.target at htarget
  split at htarget
  · rename_i hkind
    obtain ⟨hn, hv, -⟩ := Key.mk.inj (Option.some.inj htarget)
    exact (hself r hr).1 ⟨hkind, hn, hv⟩
  · exact Location.noConfusion (congrArg Key.location (Option.some.inj htarget))
  · exact absurd htarget (by simp)

/-- A document whose own findings are not critical is sound. -/
theorem Validation.soundDocument_of_clean {name version content : String}
    (hname : isIdentifier name = true)
    (h : (own name version content).criticalErrors = []) : SoundDocument name version content := by
  simp only [own, Findings.criticalErrors_append, List.append_eq_nil_iff] at h
  obtain ⟨⟨⟨henvelope, hbody⟩, hread⟩, hcheck⟩ := h
  obtain ⟨rs, hrs⟩ : ∃ rs, includes content = .ok rs := by
    cases hincludes : includes content with
    | ok rs => exact ⟨rs, rfl⟩
    | error fault =>
      simp only [unreadable, readReferences, hincludes] at hread
      exact absurd hread (by simp [Findings.criticalErrors, Findings.error, Findings.none,
        Finding.atPosition, Code.isCritical])
  have hreferences : referencesOf content = rs := by
    simp [referencesOf, hrs, Except.toOption]
  rw [hreferences] at hcheck
  refine ⟨?_, Findings.hasError_eq_false_of_clean hbody rfl, not_mem_of_includes_eq_ok hrs,
    rs, hrs, fun r hr => ?_⟩
  · rw [← henvelope]
    exact (List.filter_eq_self.2 (Envelope.critical_check content)).symm
  -- an error about the single reference would be one about all of them
  · have hno : ∀ code : Code, code.isCritical = true →
        (r.check name version .none).hasError code = false := by
      intro code hcode
      have hall := Findings.hasError_eq_false_of_clean hcheck hcode
      rw [Findings.hasError, List.any_eq_false] at hall ⊢
      exact fun f hf => hall f (Reference.errors_check_subset_checkAll hr hf)
    constructor
    · rintro ⟨hkind, hn, hv⟩
      have := hno .selfReference rfl
      rw [Reference.hasError_selfReference_iff.2 ⟨hn ▸ hname, hkind, hn, hv⟩] at this
      exact absurd this (by simp)
    · rintro ⟨hkind, hn⟩
      have := hno .nestedSelfReference rfl
      rw [Reference.hasError_nestedSelfReference hname hkind hn] at this
      exact absurd this (by simp)

end DiagramRegistry
