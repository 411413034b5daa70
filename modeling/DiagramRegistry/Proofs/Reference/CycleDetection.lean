import DiagramRegistry.Proofs.Reference.Walk
import DiagramRegistry.Proofs.Validation.Appending

/-
# The cycles that resolution reports

Resolution takes the references of a diagram one after the other and reports the closed
chains behind each, leaving out those that it has reported before.  Through all of this the
errors about cycles account for the closed chains met so far: each such error is about one of
them, and each of them has an error with its code and its text (`Resolution.Accounts`).  With
the description of closed chains as walks this says exactly when an error about a cycle is
recorded.

* `Resolution.accounts_resolve`: the errors about cycles account for all closed chains;
* `resolve_reports_cycles_iff`: the two errors about cycles, in terms of walks.
-/
namespace DiagramRegistry

/-- The codes of the errors about cycles. -/
def Code.isCycle : Code → Bool
  | circularReference | directCircularReference => true
  | _ => false

lemma Code.isCycle_iff {code : Code} :
    code.isCycle = true ↔ code = .circularReference ∨ code = .directCircularReference := by
  cases code <;> simp [isCycle]

namespace Resolution

variable {c : Catalogue} {root closing : Key} {r : Resolution} {line : Nat} {chain : List Key}
  {reference : Reference} {met : List (Nat × List Key)} {f : Finding}

/-- The finding about a closed chain that was met behind the reference on a line. -/
def cycleFinding (root : Key) (line : Nat) (chain : List Key) : Finding :=
  let closing := chain.getLastD root
  .onLine (cycleCode root closing) line (cycleMessage root closing) (chainText chain)

/-- The closed chains behind a reference, with its line.  There are none behind one that
cannot be expanded. -/
def closures (c : Catalogue) (root : Key) (reference : Reference) : List (Nat × List Key) :=
  match reference.target with
  | none => []
  | some target =>
    match c.fetch? target with
    | none => []
    | some _ => (c.closedChains [root] [target]).map (reference.line, ·)

/-- The errors about cycles account for the closed chains met so far. -/
structure Accounts (root : Key) (met : List (Nat × List Key)) (r : Resolution) : Prop where
  /-- Each error about a cycle is about a chain that was met. -/
  sound : ∀ f ∈ r.found.errors, f.code.isCycle → ∃ p ∈ met, f = cycleFinding root p.1 p.2
  /-- Each other error is not critical. -/
  others : ∀ f ∈ r.found.errors, f.code.isCycle = false → f.code.isCritical = false
  /-- Each chain that was met has an error. -/
  complete : ∀ p ∈ met, ∃ f ∈ r.found.errors,
    f.code = (cycleFinding root p.1 p.2).code ∧ f.context = (cycleFinding root p.1 p.2).context
  /-- What counts as reported has an error. -/
  backed : ∀ p ∈ r.reported, ∃ f ∈ r.found.errors, f.code = p.1 ∧ f.context = some p.2

lemma isCycle_cycleCode (root closing : Key) : (cycleCode root closing).isCycle = true := by
  unfold cycleCode
  split <;> rfl

lemma accounts_begin : Accounts root [] ⟨[], .none⟩ :=
  ⟨by simp [Findings.none], by simp [Findings.none], by simp, by simp⟩

/-- A finding of another kind changes nothing, whether error or warning. -/
lemma Accounts.of_found (h : Accounts root met r) {found : Findings}
    (hsub : r.found.errors ⊆ found.errors)
    (hnew : ∀ f ∈ found.errors,
      f ∈ r.found.errors ∨ f.code.isCycle = false ∧ f.code.isCritical = false) :
    Accounts root met { r with found } := by
  refine ⟨fun f hf hcode => ?_, fun f hf hcode => ?_, fun p hp => ?_, fun p hp => ?_⟩
  · rcases hnew f hf with hf | ⟨hf, -⟩
    · exact h.sound f hf hcode
    · rw [hf] at hcode
      exact absurd hcode (by simp)
  · rcases hnew f hf with hf | ⟨-, hf⟩
    · exact h.others f hf hcode
    · exact hf
  · obtain ⟨f, hf, hcode⟩ := h.complete p hp
    exact ⟨f, hsub hf, hcode⟩
  · obtain ⟨f, hf, hcode⟩ := h.backed p hp
    exact ⟨f, hsub hf, hcode⟩

lemma Accounts.report (h : Accounts root met r) (line : Nat) (chain : List Key) :
    Accounts root (met ++ [(line, chain)]) (report root line r chain) := by
  simp only [Resolution.report]
  split
  · -- the chain was reported before, perhaps with another line
    rename_i hold
    refine ⟨fun f hf hcode => ?_, h.others, fun p hp => ?_, h.backed⟩
    · obtain ⟨p, hp, rfl⟩ := h.sound f hf hcode
      exact ⟨p, List.mem_append_left _ hp, rfl⟩
    · rcases List.mem_append.1 hp with hp | hp
      · exact h.complete p hp
      · rw [List.mem_singleton.1 hp]
        exact h.backed _ hold
  · have hnew : cycleFinding root line chain ∈
        r.found.errors ++ [cycleFinding root line chain] := by simp
    refine ⟨fun f hf hcode => ?_, fun f hf hcode => ?_, fun p hp => ?_, fun p hp => ?_⟩
    · rcases List.mem_append.1 hf with hf | hf
      · obtain ⟨p, hp, rfl⟩ := h.sound f hf hcode
        exact ⟨p, List.mem_append_left _ hp, rfl⟩
      · exact ⟨(line, chain), by simp, List.mem_singleton.1 hf⟩
    · rcases List.mem_append.1 hf with hf | hf
      · exact h.others f hf hcode
      · rw [List.mem_singleton.1 hf] at hcode
        exact absurd ((isCycle_cycleCode root (chain.getLastD root)).symm.trans hcode) (by simp)
    · rcases List.mem_append.1 hp with hp | hp
      · obtain ⟨f, hf, hcode⟩ := h.complete p hp
        exact ⟨f, List.mem_append_left _ hf, hcode⟩
      · rw [List.mem_singleton.1 hp]
        exact ⟨_, hnew, rfl, rfl⟩
    · rcases List.mem_append.1 hp with hp | hp
      · obtain ⟨f, hf, hcode⟩ := h.backed p hp
        exact ⟨f, List.mem_append_left _ hf, hcode⟩
      · rw [List.mem_singleton.1 hp]
        exact ⟨_, hnew, rfl, rfl⟩

lemma Accounts.foldl_report (h : Accounts root met r) (ps : List (Nat × List Key)) :
    Accounts root (met ++ ps) (ps.foldl (fun r p => Resolution.report root p.1 r p.2) r) := by
  induction ps generalizing met r with
  | nil => simpa using h
  | cons p ps ih => simpa using ih (h.report p.1 p.2)

lemma notFound_not_critical (reference : Reference) (target : Key) :
    (notFound reference target).code.isCycle = false ∧
      (notFound reference target).code.isCritical = false := by
  unfold notFound
  by_cases h : reference.kind = .nested <;>
    simp [h, Finding.onLine, Code.isCycle, Code.isCritical]

/-- Taking a reference in adds a remark about it, which is not about a cycle, and then reports the
closed chains behind it.  There is a remark only where there is no chain. -/
lemma exists_step_eq (c : Catalogue) (root : Key) (reference : Reference) :
    ∃ remark : Findings,
      (∀ f ∈ remark.errors, f.code.isCycle = false ∧ f.code.isCritical = false) ∧
        ∀ r, step c root r reference =
          (closures c root reference).foldl (fun r p => report root p.1 r p.2)
            { r with found := r.found ++ remark } := by
  cases ht : reference.target with
  | none => exact ⟨.none, by simp [Findings.none], by simp [step, closures, ht]⟩
  | some target =>
    cases hc : c.contains target with
    | error failure =>
      have hfetch : c.fetch? target = none := by simp [Catalogue.fetch?, hc]
      refine ⟨(step c root ⟨[], .none⟩ reference).found, ?_, fun r => ?_⟩
      · simp [step, ht, hc, Findings.warning, Findings.none]
      · simp only [step, closures, ht, hc, hfetch, List.foldl_nil, ← Findings.warning_append,
          Findings.append_none]
    | ok present =>
      cases present with
      | false =>
        have hfetch : c.fetch? target = none := by simp [Catalogue.fetch?, hc]
        refine ⟨Findings.none.error (notFound reference target), fun f hf => ?_, fun r => ?_⟩
        · rw [List.mem_singleton.1 hf]
          exact notFound_not_critical reference target
        · simp only [step, closures, ht, hc, hfetch, List.foldl_nil, ← Findings.error_append,
            Findings.append_none]
      | true =>
        cases hr : c.read target with
        | error failure =>
          have hfetch : c.fetch? target = none := by
            simp [Catalogue.fetch?, hc, hr, Except.toOption]
          refine ⟨(step c root ⟨[], .none⟩ reference).found, ?_, fun r => ?_⟩
          · simp [step, ht, hc, hr, Findings.warning, Findings.none]
          · simp only [step, closures, ht, hc, hr, hfetch, List.foldl_nil,
              ← Findings.warning_append, Findings.append_none]
        | ok content =>
          have hfetch := Catalogue.fetch?_eq_some_iff.2 ⟨hc, hr⟩
          refine ⟨.none, by simp [Findings.none], fun r => ?_⟩
          simp only [step, closures, ht, hc, hr, hfetch, List.foldl_map, Findings.append_none]

lemma Accounts.step (h : Accounts root met r) (c : Catalogue) (reference : Reference) :
    Accounts root (met ++ closures c root reference) (step c root r reference) := by
  obtain ⟨remark, hremark, hstep⟩ := exists_step_eq c root reference
  rw [hstep]
  refine Accounts.foldl_report (h.of_found (List.subset_append_left _ _) fun f hf => ?_) _
  exact (List.mem_append.1 hf).imp_right (hremark f)

/-- The errors about cycles account for the closed chains behind all references. -/
theorem accounts_resolve (c : Catalogue) (root : Key) (references : List Reference) :
    Accounts root (references.flatMap (closures c root))
      (references.foldl (step c root) ⟨[], .none⟩) := by
  have hfold : ∀ met r, Accounts root met r →
      Accounts root (met ++ references.flatMap (closures c root))
        (references.foldl (step c root) r) := by
    induction references with
    | nil => intro met r h; simpa using h
    | cons reference references ih =>
      intro met r h
      simpa using ih _ _ (h.step c reference)
  simpa using hfold [] _ accounts_begin

/-- A closed chain behind a reference begins at the root, follows a walk from the target of
the reference, and closes at the root or on the walk. -/
lemma mem_closures_iff {p : Nat × List Key} :
    p ∈ closures c root reference ↔
      ∃ target, reference.target = some target ∧ c.Expandable target ∧ p.1 = reference.line ∧
        ∃ vs k, c.Leads [target] vs k ∧ vs.Nodup ∧ root ∉ vs ∧ k ∈ root :: vs ∧
          p.2 = root :: vs ++ [k] := by
  unfold closures
  cases ht : reference.target with
  | none => simp
  | some target =>
    cases hf : c.fetch? target with
    | none => simp [Catalogue.expandable_iff, hf]
    | some content =>
      obtain ⟨line, chain⟩ := p
      have havoid : ∀ vs : List Key, (∀ v ∈ vs, ¬ v = root) ↔ root ∉ vs := by
        intro vs
        exact ⟨fun h hr => h root hr rfl, fun h v hv hvr => h (hvr ▸ hv)⟩
      simp only [List.mem_map, Catalogue.mem_closedChains_iff, Prod.mk.injEq, Option.some.injEq,
        exists_eq_left', Catalogue.expandable_iff, hf, exists_eq', true_and,
        List.mem_singleton, havoid, List.singleton_append]
      constructor
      · rintro ⟨_, hchain, rfl, rfl⟩
        exact ⟨rfl, hchain⟩
      · rintro ⟨rfl, hchain⟩
        exact ⟨chain, hchain, rfl, rfl⟩

/-- An error about a cycle is recorded exactly for the closed chains behind the references. -/
lemma hasError_resolve_iff {references : List Reference} {code : Code}
    (hcode : code.isCycle = true) :
    (resolve (some c) root references .none).hasError code = true ↔
      ∃ reference ∈ references, ∃ p ∈ closures c root reference,
        cycleCode root (p.2.getLastD root) = code := by
  have haccounts := accounts_resolve c root references
  simp only [Findings.hasError, List.any_eq_true, decide_eq_true_eq]
  constructor
  · rintro ⟨f, hf, rfl⟩
    obtain ⟨p, hp, rfl⟩ := haccounts.sound f hf hcode
    obtain ⟨reference, hreference, hp⟩ := List.mem_flatMap.1 hp
    exact ⟨reference, hreference, p, hp, rfl⟩
  · rintro ⟨reference, hreference, p, hp, rfl⟩
    obtain ⟨f, hf, hfcode, -⟩ :=
      haccounts.complete p (List.mem_flatMap.2 ⟨reference, hreference, hp⟩)
    exact ⟨f, hf, hfcode⟩

/-- The critical errors of resolution are those about cycles. -/
lemma isCycle_of_isCritical {references : List Reference}
    (hf : f ∈ (resolve (some c) root references .none).errors)
    (hcritical : f.code.isCritical = true) : f.code.isCycle = true := by
  by_contra hcode
  have := (accounts_resolve c root references).others f hf (Bool.eq_false_iff.2 hcode)
  rw [this] at hcritical
  exact absurd hcritical (by simp)

/-- The chains behind the references, without the references: a walk from one of their targets
that closes at a key, where a target that is the root itself must be expandable. -/
lemma exists_closure_iff {references : List Reference} {P : Key → Prop} :
    (∃ reference ∈ references, ∃ p ∈ closures c root reference, P (p.2.getLastD root)) ↔
      ∃ vs k, c.Leads (references.filterMap Reference.target) vs k ∧ vs.Nodup ∧ root ∉ vs ∧
        k ∈ root :: vs ∧ (vs = [] → c.Expandable k) ∧ P k := by
  constructor
  · rintro ⟨reference, hreference, p, hp, hP⟩
    obtain ⟨target, ht, hexp, -, vs, k, hlead, hnd, hroot, hk, hchain⟩ := mem_closures_iff.1 hp
    refine ⟨vs, k, ?_, hnd, hroot, hk, ?_, ?_⟩
    · have hmem := List.mem_filterMap.2 ⟨reference, hreference, ht⟩
      exact Catalogue.leads_iff_exists_start.2 ⟨target, hmem, hlead⟩
    · rintro rfl
      rwa [← List.mem_singleton.1 (Catalogue.leads_nil_iff.1 hlead)] at hexp
    · rw [hchain, List.getLastD_concat] at hP
      exact hP
  · rintro ⟨vs, k, hlead, hnd, hroot, hk, hexp, hP⟩
    obtain ⟨target, hmem, hlead⟩ := Catalogue.leads_iff_exists_start.1 hlead
    obtain ⟨reference, hreference, ht⟩ := List.mem_filterMap.1 hmem
    have hexp' : c.Expandable target := by
      cases vs with
      | nil => exact List.mem_singleton.1 (Catalogue.leads_nil_iff.1 hlead) ▸ hexp rfl
      | cons v vs =>
        rw [← List.mem_singleton.1 (Catalogue.leads_cons_iff.1 hlead).1]
        exact hlead.expandable (by simp)
    refine ⟨reference, hreference, (reference.line, root :: vs ++ [k]), ?_, ?_⟩
    · exact mem_closures_iff.2 ⟨target, ht, hexp', rfl, vs, k, hlead, hnd, hroot, hk, rfl⟩
    · rw [List.getLastD_concat]
      exact hP

/-- A cycle away from the root is reported when a walk that avoids the root repeats a key. -/
lemma hasError_circular_iff {references : List Reference} :
    (resolve (some c) root references .none).hasError .circularReference = true ↔
      ∃ vs, c.IsWalk (references.filterMap Reference.target) vs ∧ root ∉ vs ∧ ¬ vs.Nodup := by
  have hcode : ∀ k, cycleCode root k = .circularReference ↔ k ≠ root := by
    intro k
    by_cases hk : k = root <;> simp [cycleCode, hk]
  rw [hasError_resolve_iff rfl, exists_closure_iff (P := (cycleCode root · = .circularReference))]
  simp only [hcode]
  constructor
  · rintro ⟨vs, k, hlead, -, hroot, hk, -, hne⟩
    -- the chain closes on the walk, and walking to its last key is the repetition
    have hmem : k ∈ vs := (List.mem_cons.1 hk).resolve_left hne
    refine ⟨vs ++ [k], Catalogue.isWalk_snoc_iff.2 ⟨hlead, hlead.expandable hmem⟩, ?_, ?_⟩
    · simp only [List.mem_append, List.mem_singleton, not_or]
      exact ⟨hroot, Ne.symm hne⟩
    · intro hnd
      exact (List.nodup_append.1 hnd).2.2 k hmem k (by simp) rfl
  · rintro ⟨vs, hwalk, hroot, hnd⟩
    -- up to its first repetition the walk is a closed chain
    obtain ⟨us, k, hlead, hus, hk, hsub⟩ := hwalk.exists_lasso hnd
    refine ⟨us, k, hlead, hus, fun h => hroot (hsub h), List.mem_cons_of_mem _ hk, ?_, ?_⟩
    · rintro rfl
      simp at hk
    · rintro rfl
      exact hroot (hsub hk)

/-- A cycle through the root is reported when a reference leads to the root itself, or a walk
that avoids the root ends before it. -/
lemma hasError_direct_iff {references : List Reference} :
    (resolve (some c) root references .none).hasError .directCircularReference = true ↔
      (root ∈ references.filterMap Reference.target ∧ c.Expandable root) ∨
        ∃ vs v, c.IsWalk (references.filterMap Reference.target) (vs ++ [v]) ∧
          root ∉ vs ++ [v] ∧ c.Edge v root := by
  have hcode : ∀ k, cycleCode root k = .directCircularReference ↔ k = root := by
    intro k
    by_cases hk : k = root <;> simp [cycleCode, hk]
  rw [hasError_resolve_iff rfl,
    exists_closure_iff (P := (cycleCode root · = .directCircularReference))]
  simp only [hcode]
  constructor
  · rintro ⟨vs, k, hlead, -, hroot, -, hexp, rfl⟩
    rcases List.eq_nil_or_concat' vs with rfl | ⟨vs, v, rfl⟩
    · exact .inl ⟨Catalogue.leads_nil_iff.1 hlead, hexp rfl⟩
    · obtain ⟨hlead, hedge⟩ := Catalogue.leads_snoc_iff.1 hlead
      exact .inr ⟨vs, v, Catalogue.isWalk_snoc_iff.2 ⟨hlead, hedge.expandable⟩, hroot, hedge⟩
  · rintro (⟨hroot, hexp⟩ | ⟨vs, v, hwalk, hroot, hedge⟩)
    · exact ⟨[], root, .here hroot, List.nodup_nil, by simp, by simp, fun _ => hexp, rfl⟩
    · have hlead := Catalogue.leads_snoc_iff.2 ⟨(Catalogue.isWalk_snoc_iff.1 hwalk).1, hedge⟩
      -- the walk may repeat keys, the search does not
      obtain ⟨us, hus, hnd, hsub, hne⟩ := hlead.exists_nodup
      refine ⟨us, root, hus, hnd, fun h => hroot (hsub h), by simp, fun h => ?_, rfl⟩
      exact absurd (hne h) (by simp)

/-- Nothing critical is found when there is no error about a cycle of either kind. -/
lemma criticalErrors_eq_nil_iff {references : List Reference} :
    (resolve (some c) root references .none).criticalErrors = [] ↔
      (resolve (some c) root references .none).hasError .circularReference = false ∧
        (resolve (some c) root references .none).hasError .directCircularReference = false := by
  simp only [Findings.criticalErrors, List.filter_eq_nil_iff, Findings.hasError, List.any_eq_false,
    decide_eq_true_eq]
  constructor
  · intro h
    refine ⟨fun f hf hcode => h f hf ?_, fun f hf hcode => h f hf ?_⟩
    · rw [hcode]
      rfl
    · rw [hcode]
      rfl
  · rintro ⟨hcircular, hdirect⟩ f hf hcritical
    rcases Code.isCycle_iff.1 (isCycle_of_isCritical hf hcritical) with hcode | hcode
    · exact hcircular f hf hcode
    · exact hdirect f hf hcode

end Resolution

/-- Cycle detection is exact.  Resolution adds to what was found before, and among the errors
that it adds there is one about a cycle away from the root exactly when some walk of
expandable keys other than the root, beginning at the target of a reference, visits a key
twice; and one about a cycle through the root exactly when a reference leads to the root and
the root can be expanded, or such a walk ends at a key with an edge to the root. -/
theorem resolve_reports_cycles_iff (c : Catalogue) (root : Key) (references : List Reference)
    (found : Findings) :
    ∃ recorded, resolve (some c) root references found = found ++ recorded ∧
      (recorded.hasError .circularReference = true ↔
        ∃ vs, c.IsWalk (references.filterMap Reference.target) vs ∧ root ∉ vs ∧ ¬ vs.Nodup) ∧
      (recorded.hasError .directCircularReference = true ↔
        (root ∈ references.filterMap Reference.target ∧ c.Expandable root) ∨
          ∃ vs v, c.IsWalk (references.filterMap Reference.target) (vs ++ [v]) ∧
            root ∉ vs ++ [v] ∧ c.Edge v root) := by
  refine ⟨resolve (some c) root references .none, ?_, ?_, ?_⟩
  · rw [← resolve_append, Findings.append_none]
  · exact Resolution.hasError_circular_iff
  · exact Resolution.hasError_direct_iff

end DiagramRegistry
