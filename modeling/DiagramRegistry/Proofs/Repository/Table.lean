import DiagramRegistry.Proofs.Identity.Order
import DiagramRegistry.Repository.Memory

/-
# The table of a store in memory

What a store in memory answers is decided by its table and by the two lists of keys for which
it is made to fail.  This file says how the answers come about, and which entries the table
has after a diagram was put into it or taken out.
-/
namespace DiagramRegistry

namespace Memory

variable {m : Memory} {k : Key} {d : Diagram} {failure : Failure}

lemma load_eq_ok_iff : m.load k = .ok d ↔ k ∉ m.failingReads ∧ m.get? k = some d := by
  unfold load
  by_cases hk : k ∈ m.failingReads
  · simp [hk]
  · cases hd : m.get? k <;> simp [hk]

/-- A diagram that is not loaded is marked as unreadable or is not there. -/
lemma eq_of_load_eq_error (h : m.load k = .error failure) :
    (∃ reason, failure = .repository reason) ∨ failure = .notFound k := by
  unfold load at h
  split at h
  · exact .inl ⟨_, (Except.error.inj h).symm⟩
  · split at h
    · exact absurd h (by simp)
    · exact .inr (Except.error.inj h).symm

lemma contains_eq_ok_iff {present : Bool} :
    m.contains k = .ok present ↔ k ∉ m.failingChecks ∧ (m.get? k).isSome = present := by
  unfold contains
  by_cases hk : k ∈ m.failingChecks <;> simp [hk]

lemma eq_of_contains_eq_error (h : m.contains k = .error failure) :
    ∃ reason, failure = .repository reason := by
  unfold contains at h
  split at h
  · exact ⟨_, (Except.error.inj h).symm⟩
  · exact absurd h (by simp)

/-! ## Entries -/

lemma mem_entries_of_get? (h : m.get? k = some d) : (k, d) ∈ m.entries := by
  simp only [get?, Option.map_eq_some_iff] at h
  obtain ⟨⟨k', d'⟩, hfind, rfl⟩ := h
  have hk : k' = k := by simpa using List.find?_some hfind
  exact hk ▸ List.mem_of_find?_eq_some hfind

lemma get?_eq_none_iff : m.get? k = none ↔ ∀ e ∈ m.entries, e.1 ≠ k := by
  simp [get?]

lemma mem_entries_erase {e : Key × Diagram} :
    e ∈ (m.erase k).entries ↔ e ∈ m.entries ∧ e.1 ≠ k := by
  simp [erase]

/-- Putting a diagram adds its entry to those under other keys. -/
lemma entries_put_perm :
    (m.put k d).entries.Perm ((k, d) :: (m.erase k).entries) := insertByKey_perm _ _ _

lemma mem_entries_put {e : Key × Diagram} :
    e ∈ (m.put k d).entries ↔ e = (k, d) ∨ e ∈ m.entries ∧ e.1 ≠ k := by
  rw [entries_put_perm.mem_iff, List.mem_cons, mem_entries_erase]

/-! ## Tables with one entry a key -/

/-- No two entries of the table have the same key. -/
def OneEach (m : Memory) : Prop := (m.entries.map Prod.fst).Nodup

lemma OneEach.erase (h : m.OneEach) (k : Key) : (m.erase k).OneEach :=
  h.sublist (List.filter_sublist.map _)

lemma OneEach.put (h : m.OneEach) (k : Key) (d : Diagram) : (m.put k d).OneEach := by
  refine ((entries_put_perm.map _).nodup_iff).2 (List.nodup_cons.2 ⟨?_, h.erase k⟩)
  intro hk
  obtain ⟨e, he, hek⟩ := List.mem_map.1 hk
  exact (mem_entries_erase.1 he).2 hek

/-- Then every entry is the one that is found under its key. -/
lemma OneEach.get?_of_mem (h : m.OneEach) (he : (k, d) ∈ m.entries) : m.get? k = some d := by
  cases hget : m.get? k with
  | none => exact absurd rfl (get?_eq_none_iff.1 hget _ he)
  | some d' =>
    have hpair := List.inj_on_of_nodup_map h (mem_entries_of_get? hget) he rfl
    rw [(Prod.mk.inj hpair).2]

end Memory

end DiagramRegistry
