import DiagramRegistry.Proofs.Reference.CycleDetection

/-
# The errors about cycles, one by one

An error about a cycle names the keys that it is about: its context is a chain that begins at the
root and closes at its last key, and its line is that of the reference of the root that the chain
follows first.  Both come from the closed chain that was reported, whatever was reported before.
What counts as reported are the errors about cycles themselves, so that no two of them agree in
code and context (`Resolution.IsTally`).

* `Resolution.IsTally.step`: no reference makes an error about a cycle come up again;
* `Resolution.reported_cycles_are_real`: what each error about a cycle stands for.
-/
namespace DiagramRegistry

/-- The references lead through a sequence of keys to a last key when there is an edge from each
key to the next, the last key included, and the first one is a starting key. -/
lemma Catalogue.leads_iff_isChain {c : Catalogue} {starts vs : List Key} {k : Key} :
    c.Leads starts vs k ↔
      (∀ v ∈ (vs ++ [k]).head?, v ∈ starts) ∧ (vs ++ [k]).IsChain c.Edge := by
  induction vs generalizing starts with
  | nil => simp [leads_nil_iff]
  | cons v vs ih =>
    simp only [leads_cons_iff, ih, List.cons_append, List.head?_cons, List.isChain_cons,
      Option.mem_some_iff, forall_eq', edge_iff]
    constructor
    · rintro ⟨hv, content, hf, hstarts, hchain⟩
      exact ⟨hv, fun u hu => ⟨content, hf, hstarts u hu⟩, hchain⟩
    · rintro ⟨hv, hedge, hchain⟩
      obtain ⟨u, hu⟩ : ∃ u, (vs ++ [k]).head? = some u := by
        cases vs with
        | nil => exact ⟨k, rfl⟩
        | cons u vs => exact ⟨u, rfl⟩
      obtain ⟨content, hf, -⟩ := hedge u hu
      refine ⟨hv, content, hf, fun w hw => ?_, hchain⟩
      obtain ⟨content', hf', hmem⟩ := hedge w hw
      rw [hf, Option.some.injEq] at hf'
      exact hf' ▸ hmem

namespace Resolution

variable {c : Catalogue} {root : Key} {r : Resolution} {found : Findings} {f : Finding}
  {references : List Reference}

/-- The codes and the contexts of the errors about cycles, in order. -/
def cycleLabels (found : Findings) : List (Code × Option String) :=
  (found.errors.filter fun f => f.code.isCycle).map fun f => (f.code, f.context)

lemma cycleLabels_append (a b : Findings) :
    cycleLabels (a ++ b) = cycleLabels a ++ cycleLabels b := by
  simp [cycleLabels]

lemma cycleLabels_error (hf : f.code.isCycle = true) :
    cycleLabels (found.error f) = cycleLabels found ++ [(f.code, f.context)] := by
  simp [cycleLabels, Findings.error, hf]

/-- What counts as reported are the errors about cycles, and each of them counts once. -/
structure IsTally (r : Resolution) : Prop where
  /-- Each error about a cycle is listed with its code and its context. -/
  listed : cycleLabels r.found = r.reported.map fun p => (p.1, some p.2)
  /-- Nothing is listed twice. -/
  nodup : r.reported.Nodup

lemma isTally_begin : IsTally ⟨[], .none⟩ := ⟨rfl, List.nodup_nil⟩

namespace IsTally

/-- So no two errors about cycles agree in code and context. -/
lemma nodup_cycleLabels (h : IsTally r) : (cycleLabels r.found).Nodup := by
  rw [h.listed]
  refine h.nodup.map fun p q hpq => ?_
  obtain ⟨hcode, htext⟩ := Prod.mk.inj hpq
  exact Prod.ext hcode (Option.some.inj htext)

lemma report (h : IsTally r) (root : Key) (line : Nat) (chain : List Key) :
    IsTally (Resolution.report root line r chain) := by
  simp only [Resolution.report]
  split
  · exact h
  · rename_i hnew
    refine ⟨?_, ?_⟩
    · rw [cycleLabels_error (isCycle_cycleCode root _), h.listed, List.map_append]
      rfl
    · rw [← List.concat_eq_append]
      exact (List.nodup_concat _ _).2 ⟨hnew, h.nodup⟩

/-- Taking a reference in, whatever is behind it, keeps the tally. -/
lemma step (h : IsTally r) (c : Catalogue) (root : Key) (reference : Reference) :
    IsTally (Resolution.step c root r reference) := by
  obtain ⟨remark, hremark, hstep⟩ := exists_step_eq c root reference
  have hnone : cycleLabels remark = [] := by
    rw [cycleLabels, List.map_eq_nil_iff, List.filter_eq_nil_iff]
    intro f hf
    rw [(hremark f hf).1]
    exact Bool.false_ne_true
  rw [hstep]
  have hremarked : IsTally { r with found := r.found ++ remark } :=
    ⟨by rw [cycleLabels_append, hnone, List.append_nil, h.listed], h.nodup⟩
  exact List.foldlRecOn _ _ hremarked fun r h p _ => h.report root p.1 p.2

end IsTally

lemma isTally_resolve (c : Catalogue) (root : Key) (references : List Reference) :
    IsTally (references.foldl (step c root) ⟨[], .none⟩) :=
  List.foldlRecOn references _ isTally_begin fun _ h reference _ => h.step c root reference

/-- The errors about cycles that resolution records are real, and each is recorded once.  Such an
error has a chain of keys for a context: the root, then different keys that exist, can be read and
are not the root, each of which the document before it refers to, and at last a key that closes the
chain.  This is the root for a direct cycle and one of the keys before it for any other.  The line
is that of a reference of the root to the first key behind the root. -/
theorem reported_cycles_are_real (c : Catalogue) (root : Key) (references : List Reference)
    (found : Findings) :
    ∃ recorded, resolve (some c) root references found = found ++ recorded ∧
      (∀ f ∈ recorded.errors, f.code.isCycle = true →
        ∃ reference ∈ references, ∃ vs closing,
          f.line = max reference.line 1 ∧
          reference.target = (vs ++ [closing]).head? ∧
          (vs ++ [closing]).IsChain c.Edge ∧
          (∀ v ∈ vs, c.Expandable v) ∧ vs.Nodup ∧ root ∉ vs ∧
          f.context = some (" -> ".intercalate ((root :: vs ++ [closing]).map Key.display)) ∧
          (f.code = .directCircularReference ∧ closing = root ∧ (vs = [] → c.Expandable root) ∨
            f.code = .circularReference ∧ closing ∈ vs)) ∧
      ((recorded.errors.filter fun f => f.code.isCycle).map
        fun f => (f.code, f.context)).Nodup := by
  refine ⟨resolve (some c) root references .none, ?_, fun f hf hcycle => ?_, ?_⟩
  · rw [← resolve_append, Findings.append_none]
  · obtain ⟨p, hp, rfl⟩ := (accounts_resolve c root references).sound f hf hcycle
    obtain ⟨reference, hreference, hp⟩ := List.mem_flatMap.1 hp
    obtain ⟨target, htarget, hexp, hline, vs, closing, hlead, hnodup, hroot, hclosing, hchain⟩ :=
      mem_closures_iff.1 hp
    obtain ⟨hstart, hedges⟩ := Catalogue.leads_iff_isChain.1 hlead
    obtain ⟨first, hfirst⟩ : ∃ first, (vs ++ [closing]).head? = some first := by
      cases vs <;> exact ⟨_, rfl⟩
    obtain rfl : first = target := List.mem_singleton.1 (hstart first hfirst)
    refine ⟨reference, hreference, vs, closing, ?_, htarget.trans hfirst.symm, hedges,
      fun v hv => hlead.expandable hv, hnodup, hroot, ?_, ?_⟩
    · rw [← hline]
      rfl
    · rw [hchain]
      rfl
    · -- the code tells whether the chain closes at the root
      have hcode : (cycleFinding root p.1 p.2).code = cycleCode root closing := by
        rw [hchain, cycleFinding, Finding.onLine, List.getLastD_concat]
      by_cases hc : closing = root
      · refine .inl ⟨by rw [hcode, cycleCode, if_pos hc], hc, ?_⟩
        rintro rfl
        obtain rfl : closing = first := Option.some.inj hfirst
        exact hc ▸ hexp
      · exact .inr ⟨by rw [hcode, cycleCode, if_neg hc], (List.mem_cons.1 hclosing).resolve_left hc⟩
  · exact (isTally_resolve c root references).nodup_cycleLabels

end Resolution

end DiagramRegistry
