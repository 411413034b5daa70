import DiagramRegistry.Proofs.Reference.Walk
import DiagramRegistry.Proofs.Validation.Appending

/-
# Catalogues that agree

Validation asks a catalogue about the targets of the references of a document, and then about
the targets of the documents that it finds there, and so on.  Catalogues that give the same answers
about all of these keys let the same findings come out, whatever they say about other keys.

* `Catalogue.AgreeOn.closedChains_eq`: the search for cycles comes upon the same chains;
* `Catalogue.AgreeOn.run_eq`: validation has the same outcome.
-/
namespace DiagramRegistry

namespace Catalogue

/-- Two catalogues answer alike about all keys of some kind, and the documents of such keys
refer only to keys of this kind. -/
structure AgreeOn (P : Key → Prop) (c c' : Catalogue) : Prop where
  /-- The same keys exist. -/
  contains : ∀ k, P k → c.contains k = c'.contains k
  /-- Those that exist have the same documents. -/
  read : ∀ k, P k → c.contains k = .ok true → c.read k = c'.read k
  /-- Their documents refer to keys of the same kind. -/
  closed : ∀ k content, P k → c.fetch? k = some content → ∀ t ∈ targetsOf content, P t

namespace AgreeOn

variable {P : Key → Prop} {c c' : Catalogue} {k root : Key} {content : String}

lemma fetch?_eq (h : AgreeOn P c c') (hk : P k) : c.fetch? k = c'.fetch? k := by
  unfold fetch?
  rw [← h.contains k hk]
  split
  · rename_i hpresent
    rw [h.read k hk hpresent]
  · rfl

/-- The search for cycles comes upon the same chains. -/
lemma closedChains_eq (h : AgreeOn P c c') (branch ks : List Key) (hks : ∀ k ∈ ks, P k) :
    c.closedChains branch ks = c'.closedChains branch ks := by
  refine closedChains_eq_of_closed (S := fun _ ks => ∀ k ∈ ks, P k) ?_ ?_ ?_ hks
  · exact fun _ _ _ hks => (List.forall_mem_cons.1 hks).2
  · exact fun _ k _ hks _ => h.fetch?_eq (hks k List.mem_cons_self)
  · exact fun _ k _ content hks hf => h.closed k content (hks k List.mem_cons_self) hf

/-- A reference is taken in alike. -/
lemma step_eq (h : AgreeOn P c c') (root : Key) (r : Resolution) {reference : Reference}
    (ht : ∀ t, reference.target = some t → P t) :
    Resolution.step c root r reference = Resolution.step c' root r reference := by
  unfold Resolution.step
  cases htarget : reference.target with
  | none => rfl
  | some t =>
    have hP := ht t htarget
    dsimp only
    rw [← h.contains t hP]
    cases hcontains : c.contains t with
    | error failure => rfl
    | ok present =>
      cases present with
      | false => rfl
      | true =>
        dsimp only
        rw [← h.read t hP hcontains, h.closedChains_eq [root] [t] (by simpa using hP)]

/-- The references of a document are resolved alike. -/
lemma resolve_eq (h : AgreeOn P c c') (root : Key) (found : Findings)
    (hcontent : ∀ t ∈ targetsOf content, P t) :
    resolve (some c) root (referencesOf content) found =
      resolve (some c') root (referencesOf content) found := by
  rw [targetsOf_eq] at hcontent
  have hfold : ∀ (rs : List Reference) (r : Resolution),
      (∀ t ∈ rs.filterMap Reference.target, P t) →
      rs.foldl (Resolution.step c root) r = rs.foldl (Resolution.step c' root) r := by
    intro rs
    induction rs with
    | nil => exact fun _ _ => rfl
    | cons reference rs ih =>
      intro r hrs
      have hhead : ∀ t, reference.target = some t → P t := fun t ht =>
        hrs t (List.mem_filterMap.2 ⟨reference, List.mem_cons_self, ht⟩)
      have htail : ∀ t ∈ rs.filterMap Reference.target, P t := fun t ht => by
        obtain ⟨reference', hmem, ht⟩ := List.mem_filterMap.1 ht
        exact hrs t (List.mem_filterMap.2 ⟨reference', List.mem_cons_of_mem _ hmem, ht⟩)
      rw [List.foldl_cons, List.foldl_cons, h.step_eq root r hhead]
      exact ih _ htail
  exact congrArg Resolution.found (hfold _ _ hcontent)

/-- Validation has the same outcome. -/
theorem run_eq (h : AgreeOn P c c') (strictness : Strictness) {d : Diagram}
    (hcontent : ∀ t ∈ targetsOf d.content, P t) :
    Validation.run (some c) strictness d = Validation.run (some c') strictness d := by
  simp only [Validation.run, Validation.passes_eq, h.resolve_eq d.key .none hcontent]

end AgreeOn

end Catalogue

end DiagramRegistry
