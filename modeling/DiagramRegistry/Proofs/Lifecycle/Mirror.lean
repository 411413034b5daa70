import DiagramRegistry.Proofs.Lifecycle.StoreInvariant
import DiagramRegistry.Proofs.Reference.Agreement
import DiagramRegistry.Proofs.Repository.TidyOperations

/-
# Stores in memory and on disk with the same diagrams

A store on disk mirrors one in memory when it is tidy and its documents are those of the table
(`Mirrors`).  The table is looked up by key, the disk by location and stem; as the keys of the
table are admissible, location and stem tell them apart.  References may lead to other keys, but
a key that is not in the table is not found on disk under its location and stem either.

* `Holds.put`, `Holds.erase`: a change of the table and the change of the documents that goes
  with it;
* `Mirrors.load_cases`, `Mirrors.contains_eq`, `Mirrors.exists_list`: questions are answered alike;
* `Mirrors.run_eq`: validation has the same outcome.
-/
namespace DiagramRegistry

open Lifecycle

/-- A store in memory that always answers holds the diagrams whose files are given by their
locations and stems. -/
structure Holds (m : Memory) (files : Location × String → Option Contents) : Prop
    extends WellKept m where
  /-- Whether a diagram exists is always answered. -/
  failingChecks : m.failingChecks = []
  /-- Every diagram can be read. -/
  failingReads : m.failingReads = []
  /-- The keys are told apart by location and stem. -/
  admissible : ∀ k d, m.get? k = some d → k.IsAdmissible
  /-- The references of the documents are not named by dots. -/
  plain : ∀ k d, m.get? k = some d → HasPlainReferences d.content
  /-- Only admissible diagrams have files. -/
  only : OnDisk.OnlyAdmissible files
  /-- The files are the documents of the table. -/
  files : ∀ k : Key, k.IsAdmissible →
    files (k.location, k.stem) = (m.get? k).map fun d => .text d.content

variable {m : Memory} {s s' : OnDisk} {files : Location × String → Option Contents} {j k t : Key}
  {d : Diagram} {l : Location} {content : String}

namespace Holds

lemma empty (h : ∀ q, files q = none) : Holds .empty files where
  toWellKept := .empty
  failingChecks := rfl
  failingReads := rfl
  admissible _ _ hd := absurd hd (by simp [Memory.get?, Memory.empty])
  plain _ _ hd := absurd hd (by simp [Memory.get?, Memory.empty])
  only q c hc := absurd ((h q).symm.trans hc) (by simp)
  files _ _ := h _

/-- Directories play no part in it. -/
lemma createDirectory (h : Holds m files) (path : String) :
    Holds (m.createDirectory path) files := by
  unfold Memory.createDirectory
  split
  · exact h
  · obtain ⟨hkept, hchecks, hreads, hadmissible, hplain, honly, hfiles⟩ := h
    exact ⟨⟨hkept.oneEach, hkept.ownKey, hkept.wellNamed, hkept.references⟩, hchecks, hreads,
      hadmissible, hplain, honly, hfiles⟩

/-- A diagram is put into the table and its document among the files. -/
lemma put (h : Holds m files) (hkey : d.key = k) (hk : k.IsAdmissible)
    (hplain : HasPlainReferences d.content) (hreferences : d.references = referencesOf d.content) :
    Holds (m.put k d) (Function.update files (k.location, k.stem) (some (.text d.content))) := by
  refine ⟨h.toWellKept.put hkey hk.wellNamed hreferences, h.failingChecks, h.failingReads,
    fun j e he => ?_, fun j e he => ?_, fun q c hc => ?_, fun j hj => ?_⟩
  · rw [Memory.get?_put] at he
    split at he
    · rename_i hjk
      rwa [hjk]
    · exact h.admissible j e he
  · rw [Memory.get?_put] at he
    split at he
    · rwa [← Option.some.inj he]
    · exact h.plain j e he
  · rw [Function.update_apply] at hc
    split at hc
    · rename_i hq
      exact ⟨k, hk, hq.symm⟩
    · exact h.only q c hc
  · rw [hj.isStorable.update_apply hk.isStorable, Memory.get?_put, h.files j hj]
    split <;> rfl

/-- A diagram is taken from the table and its document from the files. -/
lemma erase (h : Holds m files) (hk : k.IsAdmissible) :
    Holds (m.erase k) (Function.update files (k.location, k.stem) none) := by
  refine ⟨h.toWellKept.erase k, h.failingChecks, h.failingReads,
    fun j e he => ?_, fun j e he => ?_, fun q c hc => ?_, fun j hj => ?_⟩
  · rw [Memory.get?_erase] at he
    split at he
    · exact absurd he (by simp)
    · exact h.admissible j e he
  · rw [Memory.get?_erase] at he
    split at he
    · exact absurd he (by simp)
    · exact h.plain j e he
  · rw [Function.update_apply] at hc
    split at hc
    · exact absurd hc (by simp)
    · exact h.only q c hc
  · rw [hj.isStorable.update_apply hk.isStorable, Memory.get?_erase, h.files j hj]
    split <;> rfl

/-- In a store that always answers, a diagram is loaded if it is there. -/
lemma load_eq (h : Holds m files) (k : Key) :
    m.load k = match m.get? k with
      | some d => .ok d
      | none => .error (.notFound k) := by
  cases hk : m.get? k <;> simp only [Memory.load, h.failingReads, List.not_mem_nil, if_false, hk]

lemma contains_eq (h : Holds m files) (k : Key) : m.contains k = .ok (m.get? k).isSome := by
  simp only [Memory.contains, h.failingChecks, List.not_mem_nil, if_false]

end Holds

/-- The store on disk is tidy and holds the diagrams of the store in memory. -/
structure Mirrors (m : Memory) (s : OnDisk) : Prop where
  /-- The store on disk is tidy. -/
  tidy : s.Tidy
  /-- The store in memory holds its diagrams. -/
  holds : Holds m s.view

/-- A key to which references may lead: where an admissible key has its location and stem, it is
this key. -/
structure Key.IsResolvable (t : Key) : Prop where
  /-- It does not lead out of its directory. -/
  safe : t.IsSafe
  /-- It is not mistaken for another key. -/
  eq : ∀ k : Key, k.IsAdmissible → k.location = t.location → k.stem = t.stem → t = k

lemma isResolvable_of_mem_targetsOf (hcontent : HasPlainReferences content)
    (h : t ∈ targetsOf content) : t.IsResolvable :=
  ⟨isSafe_of_mem_targetsOf hcontent h, fun _ hk hl hs =>
    eq_of_mem_targetsOf h hk hl.symm hs.symm⟩

namespace Mirrors

lemma of_leaves {homes : Set (Location × String)} (hleaves : OnDisk.Leaves s files homes s')
    (h : Holds m files) : Mirrors m s' :=
  ⟨hleaves.tidy, by rwa [hleaves.view]⟩

/-! ## Questions -/

/-- A diagram is loaded from both stores, with the same content, or from neither. -/
lemma load_cases (h : Mirrors m s) (hk : k.IsAdmissible) :
    (m.get? k = none ∧ m.load k = .error (.notFound k) ∧ s.load k = .error (.notFound k) ∧
      s.view (k.location, k.stem) = none) ∨
    ∃ d created updated, m.get? k = some d ∧ d.key = k ∧ m.load k = .ok d ∧
      s.load k = .ok ⟨k, d.content, [], created, updated⟩ ∧
      s.view (k.location, k.stem) = some (.text d.content) := by
  have hview := h.holds.files k hk
  have hload := h.holds.load_eq k
  cases hd : m.get? k with
  | none =>
    rw [hd] at hview hload
    exact .inl ⟨rfl, hload, h.tidy.load_eq_notFound hk.isStorable hview, hview⟩
  | some d =>
    rw [hd] at hview hload
    obtain ⟨content, created, updated, hcontent, hok⟩ := h.tidy.exists_load hk.isStorable hview
    rw [← Contents.text.inj hcontent] at hok
    exact .inr ⟨d, created, updated, rfl, h.holds.key_of_get? hd, hload, hok, hview⟩

lemma contains_eq (h : Mirrors m s) (hk : k.IsAdmissible) : s.contains k = m.contains k := by
  rw [h.tidy.contains_eq hk.isStorable, h.holds.contains_eq, h.holds.files k hk, Option.isSome_map]

/-! ## References -/

/-- What is not admissible is on neither store, as far as references may lead to it. -/
lemma contains_eq_false (h : Mirrors m s) (ht : t.IsResolvable) (hnot : ¬ t.IsAdmissible) :
    s.contains t = .ok false ∧ m.contains t = .ok false := by
  constructor
  · rw [OnDisk.contains, Layout.checkedPath_eq_ok_iff.2 ⟨ht.safe, rfl⟩, Except.map,
      Except.ok.injEq, ← Bool.not_eq_true]
    intro hfile
    obtain ⟨c, hc⟩ := Option.isSome_iff_exists.1 (OnDisk.view_of_isFile ht.safe hfile)
    obtain ⟨k, hk, hplace⟩ := h.holds.only _ c hc
    exact hnot (ht.eq k hk (Prod.mk.inj hplace).1 (Prod.mk.inj hplace).2 ▸ hk)
  · rw [h.holds.contains_eq]
    cases hd : m.get? t with
    | none => rfl
    | some d => exact absurd (h.holds.admissible t d hd) hnot

/-- The stores answer alike about all keys to which references may lead. -/
lemma agreeOn (h : Mirrors m s) :
    Catalogue.AgreeOn Key.IsResolvable (Store.catalogue m) (Store.catalogue s) := by
  -- what exists in memory is admissible
  have hadmissible {t : Key} (ht : t.IsResolvable) (hpresent : m.contains t = .ok true) :
      t.IsAdmissible := by
    by_contra hnot
    rw [(h.contains_eq_false ht hnot).2] at hpresent
    exact absurd hpresent (by simp)
  refine ⟨fun t ht => ?_, fun t ht hpresent => ?_, fun t content ht hfetch t' ht' => ?_⟩
  · by_cases hk : t.IsAdmissible
    · exact (h.contains_eq hk).symm
    · obtain ⟨hdisk, hmemory⟩ := h.contains_eq_false ht hk
      exact hmemory.trans hdisk.symm
  · change (m.load t).map Diagram.content = (s.load t).map Diagram.content
    rcases h.load_cases (hadmissible ht hpresent) with
      ⟨-, hmemory, hdisk, -⟩ | ⟨d, created, updated, -, -, hmemory, hdisk, -⟩
    · rw [hmemory, hdisk]
    · rw [hmemory, hdisk]
      rfl
  · obtain ⟨hpresent, hread⟩ := Catalogue.fetch?_eq_some_iff.1 hfetch
    change (m.load t).map Diagram.content = .ok content at hread
    rcases h.load_cases (hadmissible ht hpresent) with
      ⟨-, hmemory, -⟩ | ⟨d, created, updated, hd, -, hmemory, -⟩
    · rw [hmemory] at hread
      exact absurd hread (by simp [Except.map])
    · rw [hmemory] at hread
      obtain rfl := Except.ok.inj hread
      exact isResolvable_of_mem_targetsOf (h.holds.plain t d hd) ht'

/-- Validation has the same outcome. -/
theorem run_eq (h : Mirrors m s) (strictness : Strictness) (hplain : HasPlainReferences d.content) :
    Validation.run (some (Store.catalogue m)) strictness d =
      Validation.run (some (Store.catalogue s)) strictness d :=
  h.agreeOn.run_eq strictness fun _ ht => isResolvable_of_mem_targetsOf hplain ht

/-! ## Listings -/

/-- What a listing shows of a diagram. -/
def listed (d : Diagram) : Key × String := (d.key, d.content)

/-- The table lists each of the diagrams that it has at a location once. -/
lemma mem_list_iff (h : Mirrors m s) :
    d ∈ m.list l ↔ m.get? d.key = some d ∧ d.key.location = l := by
  rw [Memory.list, List.mem_filter, List.mem_map, decide_eq_true_iff]
  refine and_congr_left fun _ => ⟨?_, fun hd => ⟨_, Memory.mem_entries_of_get? hd, rfl⟩⟩
  rintro ⟨e, he, rfl⟩
  rw [h.holds.ownKey e he]
  exact h.holds.oneEach.get?_of_mem he

lemma nodup_list (h : Mirrors m s) (l : Location) : ((m.list l).map Diagram.key).Nodup := by
  have hkeys : (m.entries.map Prod.snd).map Diagram.key = m.entries.map Prod.fst := by
    rw [List.map_map]
    exact List.map_congr_left h.holds.ownKey
  have hnodup : ((m.entries.map Prod.snd).map Diagram.key).Nodup := hkeys ▸ h.holds.oneEach
  exact hnodup.sublist (List.filter_sublist.map _)

/-- A listing of the one store shows what a listing of the other shows. -/
theorem exists_list (h : Mirrors m s) (l : Location) :
    ∃ ds, s.list l = .ok ds ∧
      (sortByKey Diagram.key (m.list l)).map listed = (sortByKey Diagram.key ds).map listed := by
  obtain ⟨ds, hlist, hnodup, hmem⟩ := h.tidy.exists_list h.holds.only l
  refine ⟨_, hlist, ?_⟩
  have hsort : ∀ xs : List Diagram,
      (sortByKey Diagram.key xs).map listed = sortByKey Prod.fst (xs.map listed) :=
    map_sortByKey fun _ => rfl
  have hkeys : ∀ xs : List Diagram, (xs.map listed).map Prod.fst = xs.map Diagram.key := fun xs => by
    rw [List.map_map]
    rfl
  have hnodup' : ((m.list l).map listed).Nodup ∧ (ds.map listed).Nodup :=
    ⟨List.Nodup.of_map Prod.fst (hkeys _ ▸ h.nodup_list l),
      List.Nodup.of_map Prod.fst (hkeys _ ▸ hnodup)⟩
  -- the same diagrams are listed, so that only one order is possible
  have hperm : ((m.list l).map listed).Perm (ds.map listed) := by
    refine (List.perm_ext_iff_of_nodup hnodup'.1 hnodup'.2).2 fun shown => ?_
    rw [List.mem_map, List.mem_map]
    constructor
    · rintro ⟨d, hd, rfl⟩
      obtain ⟨hget, hl⟩ := h.mem_list_iff.1 hd
      have hk := h.holds.admissible _ _ hget
      rcases h.load_cases hk with ⟨hnone, -⟩ | ⟨d', created, updated, hget', -, -, hload, -⟩
      · exact absurd (hget.symm.trans hnone) (by simp)
      · obtain rfl := Option.some.inj (hget.symm.trans hget')
        exact ⟨⟨d.key, d.content, [], created, updated⟩, (hmem _).2 ⟨hk, hl, hload⟩, rfl⟩
    · rintro ⟨d, hd, rfl⟩
      obtain ⟨hk, hl, hload⟩ := (hmem d).1 hd
      rcases h.load_cases hk with ⟨-, -, hnone, -⟩ | ⟨d', created, updated, hget, hkey, -, hload', -⟩
      · exact absurd (hload.symm.trans hnone) (by simp)
      · have hd' := Except.ok.inj (hload.symm.trans hload')
        refine ⟨d', h.mem_list_iff.2 ⟨by rw [hkey, hget], by rw [hkey, hl]⟩, ?_⟩
        rw [listed, listed, hkey, hd']
  rw [hsort, hsort]
  refine sortByKey_eq_of_perm (hperm.trans ((sortByKey_perm _ ds).map _).symm) ?_
  rw [hkeys]
  exact h.nodup_list l

end Mirrors

end DiagramRegistry
