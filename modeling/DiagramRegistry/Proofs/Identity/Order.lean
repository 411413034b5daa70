import DiagramRegistry.Identity.Key
import Mathlib.Data.List.Nodup
import Mathlib.Data.List.Perm.Basic
import Mathlib.Order.Defs.LinearOrder

/-
# The order of keys

Keys are compared by name, then by version, then by location, which is a linear order.  A list
of elements with different keys is therefore brought into one order only, however it was made.

* `sortByKey_eq_of_perm`: lists of the same elements are sorted into the same list;
* `pairwise_lt_sortByKey_iff`: when the keys of a sorted list increase strictly.
-/
namespace DiagramRegistry

namespace Key

variable {a b c : Key}

instance : Std.TransCmp order :=
  inferInstanceAs (Std.TransCmp (compareLex (compareLex (compareOn name) (compareOn version))
    (compareOn fun k => k.location.rank)))

lemma order_swap (a b : Key) : order b a = (order a b).swap := Std.OrientedCmp.eq_swap

lemma le_trans (h : le a b = true) (h' : le b c = true) : le a c = true :=
  Std.TransCmp.isLE_trans h h'

lemma le_total (a b : Key) : le a b = true ∨ le b a = true := by
  unfold le
  rw [order_swap a b]
  cases order a b <;> simp

/-- Keys that compare as equal are the same. -/
lemma eq_of_order_eq (h : order a b = .eq) : a = b := by
  obtain ⟨aname, aversion, alocation⟩ := a
  obtain ⟨bname, bversion, blocation⟩ := b
  simp only [order, Ordering.then_eq_eq] at h
  obtain ⟨⟨hname, hversion⟩, hrank⟩ := h
  have hlocation : alocation = blocation := by
    have hrank := Std.LawfulEqOrd.eq_of_compare hrank
    cases alocation <;> cases blocation <;> simp_all [Location.rank]
  rw [Std.LawfulEqOrd.eq_of_compare hname, Std.LawfulEqOrd.eq_of_compare hversion, hlocation]

lemma le_antisymm (h : le a b = true) (h' : le b a = true) : a = b := by
  refine eq_of_order_eq ?_
  unfold le at h h'
  rw [order_swap a b] at h'
  cases hab : order a b <;> simp_all

end Key

section
variable {α β : Type} {key : α → Key} {xs ys : List α}

/-- Inserting an element adds it and nothing else. -/
lemma insertByKey_perm (key : α → Key) (x : α) (xs : List α) :
    (insertByKey key x xs).Perm (x :: xs) := by
  induction xs with
  | nil => exact List.Perm.refl _
  | cons y ys ih =>
    unfold insertByKey
    split
    · exact (ih.cons y).trans (List.Perm.swap x y ys)
    · exact List.Perm.refl _

/-- Sorting keeps the elements. -/
lemma sortByKey_perm (key : α → Key) (xs : List α) : (sortByKey key xs).Perm xs := by
  have hfold : ∀ sorted : List α,
      (xs.foldl (fun sorted x => insertByKey key x sorted) sorted).Perm (xs ++ sorted) := by
    induction xs with
    | nil => exact fun sorted => List.Perm.refl _
    | cons x xs ih =>
      intro sorted
      refine (ih _).trans ?_
      exact ((insertByKey_perm key x sorted).append_left xs).trans List.perm_middle
  simpa [sortByKey] using hfold []

/-- The elements are in the order of their keys. -/
def InOrder (key : α → Key) (xs : List α) : Prop :=
  xs.Pairwise fun x y => Key.le (key x) (key y) = true

lemma InOrder.insertByKey (h : InOrder key xs) (x : α) : InOrder key (insertByKey key x xs) := by
  induction xs with
  | nil => exact List.pairwise_singleton _ _
  | cons y ys ih =>
    obtain ⟨hy, hys⟩ := List.pairwise_cons.1 h
    unfold DiagramRegistry.insertByKey
    split
    · rename_i hle
      refine List.pairwise_cons.2 ⟨fun z hz => ?_, ih hys⟩
      rcases List.mem_cons.1 ((insertByKey_perm key x ys).mem_iff.1 hz) with rfl | hz
      · exact hle
      · exact hy z hz
    · rename_i hnot
      have hle : Key.le (key x) (key y) = true := (Key.le_total _ _).resolve_right hnot
      refine List.pairwise_cons.2 ⟨fun z hz => ?_, h⟩
      rcases List.mem_cons.1 hz with rfl | hz
      · exact hle
      · exact Key.le_trans hle (hy z hz)

lemma inOrder_sortByKey (key : α → Key) (xs : List α) : InOrder key (sortByKey key xs) := by
  have hfold : ∀ sorted : List α, InOrder key sorted →
      InOrder key (xs.foldl (fun sorted x => insertByKey key x sorted) sorted) := by
    induction xs with
    | nil => exact fun _ h => h
    | cons x xs ih => exact fun sorted h => ih _ (h.insertByKey x)
  exact hfold [] List.Pairwise.nil

/-- Lists of the same elements, whose keys are different, are sorted into the same list. -/
theorem sortByKey_eq_of_perm (h : xs.Perm ys) (hkeys : (xs.map key).Nodup) :
    sortByKey key xs = sortByKey key ys := by
  refine List.Perm.eq_of_pairwise (fun x y hx hy hle hle' => ?_) (inOrder_sortByKey key xs)
    (inOrder_sortByKey key ys)
    ((sortByKey_perm key xs).trans (h.trans (sortByKey_perm key ys).symm))
  have hx' := (sortByKey_perm key xs).mem_iff.1 hx
  have hy' := h.mem_iff.2 ((sortByKey_perm key ys).mem_iff.1 hy)
  exact List.inj_on_of_nodup_map hkeys hx' hy' (Key.le_antisymm hle hle')

/-- Keys are sorted into a strictly increasing sequence exactly when they are different. -/
lemma pairwise_lt_sortByKey_iff :
    (((sortByKey key xs).map key).Pairwise fun j k => Key.order j k = .lt) ↔
      (xs.map key).Nodup := by
  rw [← ((sortByKey_perm key xs).map key).nodup_iff]
  constructor
  · refine fun h => h.imp fun {j k} hlt heq => ?_
    have hself : Key.order k k = .eq := Std.ReflCmp.compare_self
    rw [heq, hself] at hlt
    exact absurd hlt (by decide)
  · intro hnodup
    have hle : ((sortByKey key xs).map key).Pairwise fun j k => Key.le j k = true :=
      List.pairwise_map.2 (inOrder_sortByKey key xs)
    refine (hle.and hnodup).imp fun {j k} ⟨hjk, hne⟩ => ?_
    unfold Key.le at hjk
    cases horder : Key.order j k with
    | lt => rfl
    | eq => exact absurd (Key.eq_of_order_eq horder) hne
    | gt => simp [horder] at hjk

/-- What leaves the keys as they are can be done before sorting. -/
lemma map_sortByKey {key' : β → Key} {f : α → β} (hf : ∀ x, key' (f x) = key x) (xs : List α) :
    (sortByKey key xs).map f = sortByKey key' (xs.map f) := by
  have hinsert : ∀ (x : α) (ys : List α),
      (insertByKey key x ys).map f = insertByKey key' (f x) (ys.map f) := by
    intro x ys
    induction ys with
    | nil => rfl
    | cons y ys ih =>
      simp only [insertByKey, List.map_cons, hf]
      split
      · rw [List.map_cons, ih]
      · rfl
  have hfold : ∀ sorted : List α,
      (xs.foldl (fun sorted x => insertByKey key x sorted) sorted).map f =
        (xs.map f).foldl (fun sorted x => insertByKey key' x sorted) (sorted.map f) := by
    induction xs with
    | nil => exact fun _ => rfl
    | cons x xs ih =>
      intro sorted
      rw [List.foldl_cons, ih, hinsert, List.map_cons, List.foldl_cons]
  exact hfold []

end

end DiagramRegistry
