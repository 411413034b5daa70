import DiagramRegistry.Proofs.Reference.Attribution
import DiagramRegistry.Proofs.Reference.Siblings
import Mathlib.Data.List.Rotate

/-
# Chains that enter the same cycle

A cycle away from the root can be entered from several references, over several other documents and
at several of its members.  Each way into it is a chain of its own.  What resolution takes for the
same is the text of a whole chain, from the root to the key at which it closes, so a cycle has one
error for each chain that enters it.  It has a single one only when there is one way in.

* `Resolution.exists_closure_iff_enters`: the chains behind the references that enter a cycle;
* `Resolution.cycles_are_reported_per_chain`: the errors about them, and when no two of them are
  about the same cycle.
-/
namespace DiagramRegistry

namespace Resolution

variable {c : Catalogue} {root k : Key} {references : List Reference} {vs : List Key}

/-- A chain from the root enters a cycle away from it. -/
structure Enters (c : Catalogue) (root : Key) (references : List Reference) (vs : List Key)
    (k : Key) : Prop where
  /-- The references lead over the keys of the chain to the key at which it closes. -/
  leads : c.Leads (references.filterMap Reference.target) vs k
  /-- It comes to no key twice before it closes. -/
  nodup : vs.Nodup
  /-- It does not come back to the root. -/
  not_root : root ∉ vs
  /-- It closes at a key that it has come over. -/
  closes : k ∈ vs

/-- The cycle that a chain enters: its keys from the one at which it closes. -/
def loop (vs : List Key) (k : Key) : List Key := vs.dropWhile (· ≠ k)

/-- Two errors are about the same cycle: they have the texts of chains that enter it, each perhaps
at another of its members. -/
def AboutSameCycle (c : Catalogue) (root : Key) (references : List Reference) (f g : Finding) :
    Prop :=
  ∃ vs k us l, Enters c root references vs k ∧ Enters c root references us l ∧
    f.context = some (chainText (root :: vs ++ [k])) ∧
    g.context = some (chainText (root :: us ++ [l])) ∧ (loop vs k).IsRotated (loop us l)

/-- The errors about cycles away from the root. -/
def circular (found : Findings) : List Finding :=
  found.errors.filter fun f => f.code = .circularReference

lemma mem_circular_iff {found : Findings} {f : Finding} :
    f ∈ circular found ↔ f ∈ found.errors ∧ f.code = .circularReference := by
  simp [circular]

/-- The closed chains behind the references that do not close at the root are those that enter a
cycle. -/
lemma exists_closure_iff_enters {P : List Key → Prop} :
    (∃ reference ∈ references, ∃ p ∈ closures c root reference,
      cycleCode root (p.2.getLastD root) = .circularReference ∧ P p.2) ↔
      ∃ vs k, Enters c root references vs k ∧ P (root :: vs ++ [k]) := by
  have hcode : ∀ k, cycleCode root k = .circularReference ↔ k ≠ root := by
    intro k
    by_cases hk : k = root <;> simp [cycleCode, hk]
  constructor
  · rintro ⟨reference, hreference, p, hp, hcircular, hP⟩
    obtain ⟨target, ht, -, -, vs, k, hlead, hnodup, hroot, hk, hchain⟩ := mem_closures_iff.1 hp
    rw [hchain, List.getLastD_concat, hcode] at hcircular
    have hstart := List.mem_filterMap.2 ⟨reference, hreference, ht⟩
    refine ⟨vs, k, ⟨Catalogue.leads_iff_exists_start.2 ⟨target, hstart, hlead⟩, hnodup, hroot, ?_⟩,
      hchain ▸ hP⟩
    exact (List.mem_cons.1 hk).resolve_left hcircular
  · rintro ⟨vs, k, henters, hP⟩
    obtain ⟨target, hmem, hlead⟩ := Catalogue.leads_iff_exists_start.1 henters.leads
    obtain ⟨reference, hreference, ht⟩ := List.mem_filterMap.1 hmem
    have hexp : c.Expandable target := by
      cases hlead with
      | here _ => exact absurd henters.closes List.not_mem_nil
      | via hv hf _ => exact List.mem_singleton.1 hv ▸ Catalogue.expandable_iff.2 ⟨_, hf⟩
    have hne : k ≠ root := fun h => henters.not_root (h ▸ henters.closes)
    refine ⟨reference, hreference, (reference.line, root :: vs ++ [k]), ?_, ?_, hP⟩
    · exact mem_closures_iff.2 ⟨target, ht, hexp, rfl, vs, k, hlead, henters.nodup,
        henters.not_root, List.mem_cons_of_mem _ henters.closes, rfl⟩
    · rw [List.getLastD_concat]
      exact (hcode k).2 hne

/-- The texts of the errors about cycles away from the root are those of the chains that enter
one. -/
lemma mem_contexts_iff {context : Option String} :
    context ∈ (circular (resolve (some c) root references .none)).map Finding.context ↔
      ∃ vs k, Enters c root references vs k ∧
        context = some (chainText (root :: vs ++ [k])) := by
  have haccounts := accounts_resolve c root references
  rw [← exists_closure_iff_enters (P := fun chain => context = some (chainText chain)),
    List.mem_map]
  constructor
  · rintro ⟨f, hf, rfl⟩
    obtain ⟨hf, hcode⟩ := mem_circular_iff.1 hf
    obtain ⟨p, hp, rfl⟩ := haccounts.sound f hf (by rw [hcode]; rfl)
    obtain ⟨reference, hreference, hp⟩ := List.mem_flatMap.1 hp
    exact ⟨reference, hreference, p, hp, hcode, rfl⟩
  · rintro ⟨reference, hreference, p, hp, hcode, rfl⟩
    obtain ⟨f, hf, hfcode, hcontext⟩ :=
      haccounts.complete p (List.mem_flatMap.2 ⟨reference, hreference, hp⟩)
    exact ⟨f, mem_circular_iff.2 ⟨hf, hfcode.trans hcode⟩, hcontext⟩

/-- No two of these errors have the same text. -/
lemma nodup_contexts (c : Catalogue) (root : Key) (references : List Reference) :
    ((circular (resolve (some c) root references .none)).map Finding.context).Nodup := by
  have hlabels : ((resolve (some c) root references .none).errors.filter
      fun f => f.code.isCycle).Pairwise fun f g => (f.code, f.context) ≠ (g.code, g.context) :=
    List.pairwise_map.1 (isTally_resolve c root references).nodup_cycleLabels
  have hsub : (circular (resolve (some c) root references .none)).Sublist
      ((resolve (some c) root references .none).errors.filter fun f => f.code.isCycle) := by
    refine List.monotone_filter_right _ fun f hf => ?_
    rw [of_decide_eq_true hf]
    rfl
  refine List.pairwise_map.2 ((hlabels.sublist hsub).imp_of_mem fun hf hg hne heq => hne ?_)
  rw [(mem_circular_iff.1 hf).2, (mem_circular_iff.1 hg).2, heq]

/-- A cycle away from the root is reported once for each chain that enters it.  The texts of the
errors about such cycles are different, and they are the texts of the chains from the root that
enter one.  So no two errors are about the same cycle just when chains that enter the same cycle
have the same text. -/
theorem cycles_are_reported_per_chain (c : Catalogue) (root : Key) (references : List Reference)
    (found : Findings) :
    ∃ recorded, resolve (some c) root references found = found ++ recorded ∧
      ((circular recorded).map Finding.context).Nodup ∧
      (∀ context, context ∈ (circular recorded).map Finding.context ↔
        ∃ vs k, Enters c root references vs k ∧
          context = some (chainText (root :: vs ++ [k]))) ∧
      ((circular recorded).Pairwise (fun f g => ¬ AboutSameCycle c root references f g) ↔
        ∀ vs k us l, Enters c root references vs k → Enters c root references us l →
          (loop vs k).IsRotated (loop us l) →
          chainText (root :: vs ++ [k]) = chainText (root :: us ++ [l])) := by
  have hnodup := nodup_contexts c root references
  refine ⟨resolve (some c) root references .none, ?_, hnodup, fun _ => mem_contexts_iff, ?_⟩
  · rw [← resolve_append, Findings.append_none]
  · constructor
    · intro hdifferent vs k us l hvs hus hloop
      by_contra htext
      obtain ⟨f, hf, hfcontext⟩ := List.mem_map.1 (mem_contexts_iff.2 ⟨vs, k, hvs, rfl⟩)
      obtain ⟨g, hg, hgcontext⟩ := List.mem_map.1 (mem_contexts_iff.2 ⟨us, l, hus, rfl⟩)
      have hne : f ≠ g := by
        rintro rfl
        exact htext (Option.some.inj (hfcontext.symm.trans hgcontext))
      -- both errors are about this cycle, whichever comes first
      have hsymm : Std.Symm fun f g => ¬ AboutSameCycle c root references f g := by
        refine ⟨?_⟩
        rintro f g hfg ⟨vs, k, us, l, hvs, hus, hf, hg, hloop⟩
        exact hfg ⟨us, l, vs, k, hus, hvs, hg, hf, hloop.symm⟩
      exact hdifferent.forall hf hg hne ⟨vs, k, us, l, hvs, hus, hfcontext, hgcontext, hloop⟩
    · intro hsame
      refine (List.pairwise_map.1 hnodup).imp fun hne => ?_
      rintro ⟨vs, k, us, l, hvs, hus, hf, hg, hloop⟩
      rw [hf, hg, hsame vs k us l hvs hus hloop] at hne
      exact hne rfl

/-- The cycle of two diagrams that include each other is reported twice to a diagram that includes
both: it is entered at each of them. -/
theorem halfBroken_cycle_is_reported_twice :
    let root := Key.staging "door" "1.0.0"
    let references :=
      referencesOf "!include nested/latch/latch.puml\n!include nested/bolt/bolt.puml"
    ∃ recorded, resolve (some .halfBroken) root references .none = Findings.none ++ recorded ∧
      ¬ (circular recorded).Pairwise
        fun f g => ¬ AboutSameCycle .halfBroken root references f g := by
  intro root references
  obtain ⟨recorded, hrecorded, -, -, hdifferent⟩ :=
    cycles_are_reported_per_chain .halfBroken root references .none
  refine ⟨recorded, hrecorded, fun h => ?_⟩
  have htargets : references.filterMap Reference.target = [.nested "latch", .nested "bolt"] := by
    decide +kernel
  have hlatch : Catalogue.halfBroken.fetch? (.nested "latch") =
      some "!include nested/bolt/bolt.puml" := by decide +kernel
  have hbolt : Catalogue.halfBroken.fetch? (.nested "bolt") =
      some "!include nested/latch/latch.puml" := by decide +kernel
  have htoBolt : targetsOf "!include nested/bolt/bolt.puml" = [.nested "bolt"] := by decide +kernel
  have htoLatch : targetsOf "!include nested/latch/latch.puml" = [.nested "latch"] := by
    decide +kernel
  -- one chain enters at the latch, the other at the bolt
  have hfirst : Enters .halfBroken root references [.nested "latch", .nested "bolt"]
      (.nested "latch") := by
    refine ⟨.via (by simp [htargets]) hlatch (.via (by simp [htoBolt]) hbolt (.here ?_)), by decide,
      by decide, by decide⟩
    simp [htoLatch]
  have hsecond : Enters .halfBroken root references [.nested "bolt", .nested "latch"]
      (.nested "bolt") := by
    refine ⟨.via (by simp [htargets]) hbolt (.via (by simp [htoLatch]) hlatch (.here ?_)),
      by decide, by decide, by decide⟩
    simp [htoBolt]
  have hloop : (loop [.nested "latch", .nested "bolt"] (.nested "latch")).IsRotated
      (loop [.nested "bolt", .nested "latch"] (.nested "bolt")) := ⟨1, by decide⟩
  exact absurd (hdifferent.1 h _ _ _ _ hfirst hsecond hloop) (by decide +kernel)

end Resolution

end DiagramRegistry
