import DiagramRegistry.Proofs.Lifecycle.StoreInvariant
import DiagramRegistry.Proofs.Reference.CycleDetection

/-
# The verdict about a promoted diagram

The gate of promotion validates a draft under its key at staging.  References never lead to
staging, so the search for cycles cannot come back to the draft, and the gate does not see a
cycle that the promotion itself closes: a stored document may refer to the key at production
before anything stands there.  Validated under its new key, the promoted diagram then has an
error about a cycle through itself.  This file shows that nothing else can go wrong.

* `Lifecycle.criticalErrors_resolve_draft_iff`: the gate sees walks with a repetition only;
* `Lifecycle.Promotable.errors_promoted`: after a promotion only resolution finds errors;
* `Lifecycle.Promotable.code_eq_of_mem_errors`: they are about cycles through the new entry;
* `Lifecycle.Promotable.transGen_iff`: there is such a cycle exactly when, before the
  promotion, a walk from the references of the draft ends at a document that refers to the
  new key already;
* `Lifecycle.validate_after_promote`: the verdict after a promotion at the end of a session.
-/
namespace DiagramRegistry.Lifecycle

variable {m : Memory} {now : Instant} {name version : String} {d : Diagram} {vs : List Key}
  {k v : Key}

/-! ## What the gate sees -/

/-- Behind the references of a draft the gate looks for walks with a repetition.  The draft
itself is not met on any, so there are no cycles through it to be seen. -/
theorem criticalErrors_resolve_draft_iff {c : Catalogue} {content : String} :
    (resolve (some c) (.staging name version) (referencesOf content) .none).criticalErrors = [] ↔
      ∀ vs, c.IsWalk (targetsOf content) vs → vs.Nodup := by
  have hdirect : (resolve (some c) (.staging name version) (referencesOf content) .none).hasError
      .directCircularReference = false := by
    rw [← Bool.not_eq_true, Resolution.hasError_direct_iff, ← targetsOf_eq]
    rintro (⟨htarget, -⟩ | ⟨vs, v, -, -, -, content', -, htarget⟩)
    · exact Catalogue.location_ne_of_mem_targetsOf htarget rfl
    · exact Catalogue.location_ne_of_mem_targetsOf htarget rfl
  rw [Resolution.criticalErrors_eq_nil_iff, and_iff_left hdirect, ← Bool.not_eq_true,
    Resolution.hasError_circular_iff, ← targetsOf_eq]
  constructor
  · intro h vs hwalk
    by_contra hnd
    exact h ⟨vs, hwalk, fun hdraft => hwalk.location_ne _ hdraft rfl, hnd⟩
  · rintro h ⟨vs, hwalk, -, hnd⟩
    exact hnd (h vs hwalk)

/-! ## Walks before and after -/

/-- Away from the two keys of the promotion nothing has changed. -/
lemma fetch?_afterPromotion (hpromoted : k ≠ .production name version)
    (hdraft : k.location ≠ .staging) :
    m.catalogue.fetch? k = (afterPromotion now name version d m).catalogue.fetch? k := by
  refine Memory.fetch?_congr ?_ rfl rfl
  have hne : k ≠ .staging name version := by
    rintro rfl
    exact hdraft rfl
  rw [get?_afterPromotion, if_neg hpromoted, if_neg hne]

/-- A walk that avoids the new key is one before the promotion and one after it. -/
lemma isWalk_afterPromotion_iff {content : String}
    (hpromoted : Key.production name version ∉ vs) :
    m.catalogue.IsWalk (targetsOf content) vs ↔
      (afterPromotion now name version d m).catalogue.IsWalk (targetsOf content) vs := by
  have hagree (hvs : ∀ v ∈ vs, v.location ≠ .staging) : ∀ v ∈ vs,
      m.catalogue.fetch? v = (afterPromotion now name version d m).catalogue.fetch? v := by
    intro v hv
    refine fetch?_afterPromotion ?_ (hvs v hv)
    rintro rfl
    exact hpromoted hv
  constructor
  · intro hwalk
    exact (Catalogue.isWalk_congr (hagree hwalk.location_ne)).1 hwalk
  · intro hwalk
    exact (Catalogue.isWalk_congr (hagree hwalk.location_ne)).2 hwalk

namespace Promotable

/-- Before the promotion the new key cannot be expanded. -/
lemma not_expandable (h : Promotable m name version d) :
    ¬ m.catalogue.Expandable (.production name version) := by
  rintro ⟨hcontains, -⟩
  obtain ⟨-, hsome⟩ := Memory.contains_eq_ok_iff.1 hcontains
  rw [h.free] at hsome
  exact absurd hsome (by simp)

/-- After the promotion it is expanded to the document of the draft, if it can be read. -/
lemma fetch?_promoted (now : Instant) (h : Promotable m name version d)
    (hread : Key.production name version ∉ m.failingReads) :
    (afterPromotion now name version d m).catalogue.fetch? (.production name version) =
      some d.content := by
  have hget : (afterPromotion now name version d m).get? (.production name version) =
      some (asPromoted now name version d) := by
    rw [get?_afterPromotion, if_pos rfl]
  have hload : (afterPromotion now name version d m).load (.production name version) =
      .ok (asPromoted now name version d) := Memory.load_eq_ok_iff.2 ⟨hread, hget⟩
  refine Catalogue.fetch?_eq_some_iff.2 ⟨?_, ?_⟩
  · exact Memory.contains_eq_ok_iff.2 ⟨h.answered, by rw [hget]; rfl⟩
  · rw [Memory.catalogue_read, hload]
    rfl

/-- The promoted diagram lies on a cycle exactly when, before the promotion, a walk from the
references of the draft ends at a document that refers to the new key. -/
theorem transGen_iff (hm : WellKept m) (h : Promotable m name version d)
    (hread : Key.production name version ∉ m.failingReads) :
    Relation.TransGen (afterPromotion now name version d m).catalogue.Edge
        (.production name version) (.production name version) ↔
      ∃ vs v, m.catalogue.IsWalk (targetsOf d.content) (vs ++ [v]) ∧
        m.catalogue.Edge v (.production name version) := by
  rw [Catalogue.transGen_self_iff (h.fetch?_promoted now hread)]
  constructor
  · rintro (hself | ⟨vs, v, hwalk, hpromoted, hedge⟩)
    -- the gate refuses a draft that refers to itself
    · exact absurd hself (h.soundDocument hm).not_mem_targetsOf
    · have hbefore := (isWalk_afterPromotion_iff hpromoted).2 hwalk
      refine ⟨vs, v, hbefore, (Catalogue.edge_congr (fetch?_afterPromotion ?_ ?_)).2 hedge⟩
      · rintro rfl
        exact hpromoted (by simp)
      · exact hbefore.location_ne v (by simp)
  · rintro ⟨vs, v, hwalk, hedge⟩
    -- before the promotion no walk comes through the new key
    have hpromoted : Key.production name version ∉ vs ++ [v] :=
      fun hmem => h.not_expandable (hwalk.expandable _ hmem)
    refine .inr ⟨vs, v, (isWalk_afterPromotion_iff hpromoted).1 hwalk, hpromoted, ?_⟩
    refine (Catalogue.edge_congr (fetch?_afterPromotion ?_ ?_)).1 hedge
    · rintro rfl
      exact hpromoted (by simp)
    · exact hwalk.location_ne v (by simp)

/-! ## What validation finds -/

/-- After the promotion the document itself still has no critical findings, so the errors are
those about what its references lead to. -/
lemma errors_promoted (hm : WellKept m) (h : Promotable m name version d) (c : Catalogue) :
    (Validation.run (some c) .production (asPromoted now name version d)).2.errors =
      (resolve (some c) (.production name version)
        (referencesOf d.content) .none).criticalErrors := by
  have hown : (Validation.own name version d.content).criticalErrors = [] := (h.parts_clean hm).1
  rw [Validation.errors_run_production, Validation.criticalErrors_run]
  exact (congrArg (· ++ _) hown).trans (List.nil_append _)

/-- No cycle is reached that does not come through the new entry: the gate would have seen it. -/
lemma hasError_circular_promoted (now : Instant) (hm : WellKept m)
    (h : Promotable m name version d) :
    (resolve (some (afterPromotion now name version d m).catalogue) (.production name version)
      (referencesOf d.content) .none).hasError .circularReference = false := by
  rw [← Bool.not_eq_true, Resolution.hasError_circular_iff, ← targetsOf_eq]
  rintro ⟨vs, hwalk, hpromoted, hnd⟩
  -- the walk was there before the promotion, when the gate looked for its like
  have hbefore := (isWalk_afterPromotion_iff hpromoted).2 hwalk
  exact hnd (criticalErrors_resolve_draft_iff.1 (h.parts_clean hm).2 vs hbefore)

/-- Every error about the promoted diagram is about a cycle through it. -/
lemma code_eq_of_mem_errors (hm : WellKept m) (h : Promotable m name version d) {f : Finding}
    (hf : f ∈ (Validation.run (some (afterPromotion now name version d m).catalogue) .production
      (asPromoted now name version d)).2.errors) : f.code = .directCircularReference := by
  rw [h.errors_promoted hm, Findings.criticalErrors, List.mem_filter] at hf
  obtain ⟨hf, hcritical⟩ := hf
  have hcircular := h.hasError_circular_promoted now hm
  rw [Findings.hasError, List.any_eq_false] at hcircular
  have hne : f.code ≠ .circularReference := by simpa using hcircular f hf
  exact (Code.isCycle_iff.1 (Resolution.isCycle_of_isCritical hf hcritical)).resolve_left hne

/-- There is no error about the promoted diagram exactly when it lies on no cycle. -/
theorem errors_eq_nil_iff (hm : WellKept m) (h : Promotable m name version d)
    (hread : Key.production name version ∉ m.failingReads) :
    (Validation.run (some (afterPromotion now name version d m).catalogue) .production
        (asPromoted now name version d)).2.errors = [] ↔
      ¬ Relation.TransGen (afterPromotion now name version d m).catalogue.Edge
        (.production name version) (.production name version) := by
  have hfetch := h.fetch?_promoted now hread
  rw [h.errors_promoted hm, Resolution.criticalErrors_eq_nil_iff,
    and_iff_right (h.hasError_circular_promoted now hm), ← Bool.not_eq_true,
    Resolution.hasError_direct_iff, ← targetsOf_eq,
    and_iff_left (Catalogue.expandable_iff.2 ⟨_, hfetch⟩), Catalogue.transGen_self_iff hfetch]

end Promotable

/-- The verdict about a promoted diagram.  Right after a promotion that ends a session on an
empty store, the diagram can be validated at production, and every error that is found is
about a cycle through it.  There is none exactly when the diagram lies on no cycle of stored
documents, that is, when before the promotion no walk from the references of the draft ended
at a document that refers to the new key. -/
theorem validate_after_promote (calls : List Call) (now : Instant) (name version : String)
    (answer : Key × Findings)
    (h : ((promote now name version).perform (run Memory.empty calls)).1 = .ok answer) :
    let m := run Memory.empty calls
    let m' := ((promote now name version).perform m).2
    let promoted := Key.production name version
    ∃ found, (validate promoted .production).perform m' = (.ok found, m') ∧
      (∀ f ∈ found.errors, f.code = .directCircularReference) ∧
      (found.errors = [] ↔ ¬ Relation.TransGen m'.catalogue.Edge promoted promoted) ∧
      (found.errors = [] ↔
        ¬ ∃ draft vs v, m.get? (.staging name version) = some draft ∧
          m.catalogue.IsWalk (targetsOf draft.content) (vs ++ [v]) ∧
          m.catalogue.Edge v promoted) := by
  intro m m' promoted
  obtain ⟨d, hd⟩ := exists_promotable_of_ok h
  have hm : WellKept m := wellKept_run calls
  have hread : promoted ∉ m.failingReads := by
    have hreads : m.failingReads = [] := (failing_run Memory.empty calls).2
    simp [hreads]
  have hm' : m' = afterPromotion now name version d m :=
    congrArg Prod.snd (perform_promote_of_promotable now hd)
  have hload : m'.load promoted = .ok (asPromoted now name version d) := by
    rw [hm']
    exact Memory.load_eq_ok_iff.2 ⟨hread, by rw [get?_afterPromotion, if_pos rfl]⟩
  refine ⟨(Validation.run (some m'.catalogue) .production (asPromoted now name version d)).2,
    ?_, ?_, ?_, ?_⟩
  · rw [perform_validate, hload]
  · rw [hm']
    exact fun f hf => hd.code_eq_of_mem_errors hm hf
  · rw [hm']
    exact hd.errors_eq_nil_iff hm hread
  · rw [hm', hd.errors_eq_nil_iff hm hread, hd.transGen_iff hm hread]
    refine not_congr ⟨fun ⟨vs, v, hwalk, hedge⟩ => ⟨d, vs, v, hd.stored, hwalk, hedge⟩, ?_⟩
    rintro ⟨draft, vs, v, hdraft, hwalk, hedge⟩
    rw [Option.some.inj (hdraft.symm.trans hd.stored)] at hwalk
    exact ⟨vs, v, hwalk, hedge⟩

/-- A document that refers to the product `a`. -/
def referringToA : String :=
  "@startuml\n!include products/a-1.0.0/a-1.0.0.puml\n[*] --> Idle\n@enduml\n"

/-- A document that refers to the product `b`. -/
def referringToB : String :=
  "@startuml\n!include products/b-1.0.0/b-1.0.0.puml\n[*] --> Idle\n@enduml\n"

/-- Two drafts that refer to each other are made, and one of them is promoted in between. -/
def mutualReferences : List Call :=
  [.create ⟨0, 0⟩ ⟨"a", "1.0.0", .staging, referringToB⟩, .promote ⟨0, 0⟩ "a" "1.0.0",
    .create ⟨0, 0⟩ ⟨"b", "1.0.0", .staging, referringToA⟩]

lemma targetsOf_referringToA : targetsOf referringToA = [.production "a" "1.0.0"] := by
  decide +kernel

lemma targetsOf_referringToB : targetsOf referringToB = [.production "b" "1.0.0"] := by
  decide +kernel

/-- After this session `a` stands at production and `b` does not, but its draft is stored. -/
lemma mutualReferences_stored :
    let m := run Memory.empty mutualReferences
    m.catalogue.fetch? (.production "a" "1.0.0") = some referringToB ∧
      m.catalogue.fetch? (.production "b" "1.0.0") = none ∧
      m.get? (.production "b" "1.0.0") = none ∧
      (m.get? (.staging "b" "1.0.0")).map Diagram.content = some referringToA := by
  decide +kernel

/-- The draft is promotable: a walk behind its reference ends at `a`. -/
lemma mutualReferences_promotable :
    ∃ d, Promotable (run Memory.empty mutualReferences) "b" "1.0.0" d ∧
      d.content = referringToA := by
  obtain ⟨ha, hb, hfree, hstored⟩ := mutualReferences_stored
  obtain ⟨d, hd, hcontent⟩ := Option.map_eq_some_iff.1 hstored
  obtain ⟨hchecks, hreads⟩ := failing_run Memory.empty mutualReferences
  have hown : (Validation.own "b" "1.0.0" referringToA).criticalErrors = [] := by decide +kernel
  have hwalks : ∀ vs, (run Memory.empty mutualReferences).catalogue.IsWalk
      (targetsOf referringToA) vs → vs.Nodup := by
    intro vs hwalk
    rw [targetsOf_referringToA] at hwalk
    rcases vs with _ | ⟨v, vs⟩
    · exact List.nodup_nil
    -- from `a` the walk could go on to `b` only, where nothing is stored yet
    obtain ⟨hv, content, hv', hwalk⟩ := Catalogue.isWalk_cons.1 hwalk
    rw [List.mem_singleton.1 hv, ha, Option.some.injEq] at hv'
    rw [← hv', targetsOf_referringToB] at hwalk
    rcases vs with _ | ⟨u, vs⟩
    · exact List.nodup_singleton v
    obtain ⟨hu, content', hu', -⟩ := Catalogue.isWalk_cons.1 hwalk
    rw [List.mem_singleton.1 hu, hb] at hu'
    exact absurd hu' (by simp)
  refine ⟨d, ⟨hd, ?_, hfree, ?_, ?_⟩, hcontent⟩
  · rw [hreads]
    exact List.not_mem_nil
  · rw [hchecks]
    exact List.not_mem_nil
  · rw [Validation.criticalErrors_run, (wellKept_run mutualReferences).key_of_get? hd, hcontent]
    exact List.append_eq_nil_iff.2 ⟨hown, criticalErrors_resolve_draft_iff.2 hwalks⟩

/-- The draft is promoted as well, and then has an error. -/
theorem promote_mutualReferences :
    let outcome := (promote ⟨0, 0⟩ "b" "1.0.0").perform (run Memory.empty mutualReferences)
    (∃ answer, outcome.1 = .ok answer) ∧
      ∃ found, (validate (.production "b" "1.0.0") .production).perform outcome.2 =
        (.ok found, outcome.2) ∧ found.errors ≠ [] := by
  obtain ⟨ha, -, -, -⟩ := mutualReferences_stored
  obtain ⟨d, hd, hcontent⟩ := mutualReferences_promotable
  have hok := congrArg Prod.fst (perform_promote_of_promotable ⟨0, 0⟩ hd)
  obtain ⟨found, hfound, -, -, hclean⟩ :=
    validate_after_promote mutualReferences ⟨0, 0⟩ "b" "1.0.0" _ hok
  refine ⟨⟨_, hok⟩, found, hfound, fun hnil => hclean.1 hnil ?_⟩
  refine ⟨d, [], .production "a" "1.0.0", hd.stored, ?_, ?_⟩
  · rw [hcontent, targetsOf_referringToA]
    exact Catalogue.isWalk_cons.2 ⟨by simp, referringToB, ha, Catalogue.isWalk_nil⟩
  · exact Catalogue.edge_iff.2 ⟨referringToB, ha, by simp [targetsOf_referringToB]⟩

end DiagramRegistry.Lifecycle
