import DiagramRegistry.Proofs.Identity.WellNamed

/-
# Keys that can be stored

A key can be stored when it obeys the rule of its location and its stem leaves room for the
extension in the name of a file.

* `Key.IsStorable.isSafe`: no storable key leads out of its directory;
* `Key.IsStorable.eq_of_stem`: location and stem fix a storable key.
-/
namespace DiagramRegistry

/-- The key obeys the rule of its location and leaves room for the extension of its file. -/
structure Key.IsStorable (k : Key) : Prop where
  /-- The key obeys the rule of its location. -/
  wellNamed : k.isWellNamed = true
  /-- With the extension the stem is still the name of a file. -/
  short : k.stem.utf8ByteSize ≤ 250

instance (k : Key) : Decidable k.IsStorable :=
  decidable_of_iff (k.isWellNamed = true ∧ k.stem.utf8ByteSize ≤ 250)
    ⟨fun ⟨hnamed, hshort⟩ => ⟨hnamed, hshort⟩, fun h => ⟨h.wellNamed, h.short⟩⟩

namespace Key.IsStorable

variable {j k : Key} {l : Location}

lemma isSafe (h : k.IsStorable) : k.IsSafe := isSafe_of_isWellNamed h.wellNamed

lemma stem_ne_empty (h : k.IsStorable) : k.stem ≠ "" := stem_ne_empty_of_isWellNamed h.wellNamed

/-- A draft and its product are both storable or both not. -/
lemma relocate (h : k.IsStorable) (hk : k.location ≠ .nested) (hl : l ≠ .nested) :
    (k.relocate l).IsStorable :=
  ⟨isWellNamed_relocate h.wellNamed hk hl, h.short⟩

/-- Location and stem fix a storable key. -/
theorem eq_of_stem (hj : j.IsStorable) (hk : k.IsStorable) (hl : j.location = k.location)
    (hs : j.stem = k.stem) : j = k :=
  Key.eq_of_stem hj.wellNamed hk.wellNamed hl hs

/-- What is changed at the location and the stem of a key is changed for this key only. -/
lemma update_apply {β : Type} (hj : j.IsStorable) (hk : k.IsStorable)
    (f : Location × String → β) (v : β) :
    Function.update f (k.location, k.stem) v (j.location, j.stem) =
      if j = k then v else f (j.location, j.stem) := by
  rw [Function.update_apply]
  refine if_congr ⟨fun he => ?_, fun he => he ▸ rfl⟩ rfl rfl
  exact hj.eq_of_stem hk (Prod.mk.inj he).1 (Prod.mk.inj he).2

end Key.IsStorable

end DiagramRegistry
