import DiagramRegistry.Proofs.Repository.View

/-
# A repository on disk as a partial map

To its users a repository on disk is a partial map from the paths of diagrams below its root to
their contents, and writing, moving and deleting change single entries of it.  This holds for
the files at the places that the paths name.  It also holds for the files that the paths lead
to, unless the path of the root has double dots: then it may lead through the directory of a
diagram, and moving the diagram away puts everything out of reach.

* `OnDisk.store_is_partial_map`: what the operations do to the map;
* `OnDisk.move_out_of_reach`: a moved diagram that its path no longer leads to.
-/
namespace DiagramRegistry.OnDisk

open Disk

variable {s s' : OnDisk} {k j : Key}

/-- A reading of what a store shows of diagrams: the file at the place that a path names, or,
if the root has no double dots in its path, the file that the path leads to. -/
def IsReading (root : String) (shown : OnDisk → Key → Option Contents) : Prop :=
  shown = placed? ∨ shown = reached? ∧ ".." ∉ Path.segments root

/-- A reading shows the files of the diagrams whose paths pass some test.  Paths that can be
followed pass it. -/
lemma IsReading.exists_eq {root : String} {shown : OnDisk → Key → Option Contents}
    (h : IsReading root shown) :
    ∃ Passes : Key → Prop, (∀ k, Followable (Layout.diagramPath root k) → Passes k) ∧
      ∀ (s : OnDisk), s.root = root → s.disk.IsTree → ∀ k : Key, k.IsSafe →
        (Passes k → shown s k = s.view (k.location, k.stem)) ∧ (¬ Passes k → shown s k = none) := by
  classical
  rcases h with rfl | ⟨rfl, hup⟩
  · exact ⟨fun _ => True, fun _ _ => trivial, fun s _ _ k hk =>
      ⟨fun _ => placed?_eq hk, fun h => absurd trivial h⟩⟩
  · refine ⟨fun k => Followable (Layout.diagramPath root k), fun _ h => h, ?_⟩
    rintro s rfl htree k hk
    rw [reached?_eq htree hup hk, ← placed?_eq hk]
    exact ⟨fun h => if_pos h, fun h => if_neg h⟩

/-- Stores with the same files at a diagram's place show the same. -/
lemma IsReading.congr {shown : OnDisk → Key → Option Contents} (h : IsReading s.root shown)
    (htree : s.disk.IsTree) {files : Location × String → Option Contents}
    (hbecomes : Becomes s s' files) (hk : k.IsSafe)
    (hfiles : files (k.location, k.stem) = s.view (k.location, k.stem)) :
    shown s' k = shown s k := by
  obtain ⟨Passes, -, heq⟩ := h.exists_eq
  obtain ⟨hyes, hno⟩ := heq s rfl htree k hk
  obtain ⟨hyes', hno'⟩ := heq s' hbecomes.root (hbecomes.tree htree) k hk
  by_cases hpasses : Passes k
  · rw [hyes hpasses, hyes' hpasses, hbecomes.view, hfiles]
  · rw [hno hpasses, hno' hpasses]

/-- What a store shows of a diagram whose path can be followed. -/
lemma IsReading.eq_view {shown : OnDisk → Key → Option Contents} {root : String}
    (h : IsReading root shown) (hroot : s.root = root) (htree : s.disk.IsTree) (hk : k.IsSafe)
    (hfollow : Followable (Layout.diagramPath root k)) :
    shown s k = s.view (k.location, k.stem) := by
  obtain ⟨Passes, hpasses, heq⟩ := h.exists_eq
  exact (heq s hroot htree k hk).1 (hpasses k hfollow)

/-- Other paths below the root belong to other diagrams. -/
lemma ne_of_relativePath_ne (h : j.relativePath ≠ k.relativePath) :
    (j.location, j.stem) ≠ (k.location, k.stem) := fun he =>
  h (Key.relativePath_congr (Prod.mk.inj he).1 (Prod.mk.inj he).2)

/-- Writing, moving and deleting change single entries of a partial map.  On a disk that is a
tree, a diagram that was written has its content, one that was moved has left its place for
another that was free, one that was deleted was there and is gone, and diagrams with other
paths below the root are as they were; where an operation fails, all diagrams are. -/
theorem store_is_partial_map (s : OnDisk) (htree : s.disk.IsTree)
    (shown : OnDisk → Key → Option Contents) (hshown : IsReading s.root shown) :
    (∀ now d, match (write now d).perform s with
      | (.ok _, s') => shown s' d.key = some (.text d.content) ∧
        ∀ j path, Layout.checkedPath s.root j = .ok path → j.relativePath ≠ d.key.relativePath →
          shown s' j = shown s j
      | (.error _, s') => ∀ j path, Layout.checkedPath s.root j = .ok path →
        shown s' j = shown s j) ∧
    (∀ name version origin destination,
      let source : Key := ⟨name, version, origin⟩
      let target := source.relocate destination
      match (move name version origin destination).perform s with
      | (.ok _, s') => (shown s source).isSome = true ∧ shown s target = none ∧
        shown s' target = shown s source ∧ shown s' source = none ∧
        ∀ j path, Layout.checkedPath s.root j = .ok path →
          j.relativePath ≠ source.relativePath → j.relativePath ≠ target.relativePath →
          shown s' j = shown s j
      | (.error _, s') => ∀ j path, Layout.checkedPath s.root j = .ok path →
        shown s' j = shown s j) ∧
    (∀ k, match (delete k).perform s with
      | (.ok _, s') => (shown s k).isSome = true ∧ shown s' k = none ∧
        ∀ j path, Layout.checkedPath s.root j = .ok path → j.relativePath ≠ k.relativePath →
          shown s' j = shown s j
      | (.error _, s') => ∀ j path, Layout.checkedPath s.root j = .ok path →
        shown s' j = shown s j) := by
  have hsafe {j : Key} {path : String} (hj : Layout.checkedPath s.root j = .ok path) : j.IsSafe :=
    (Layout.checkedPath_eq_ok_iff.1 hj).1
  have hsame {s' : OnDisk} (h : Becomes s s' s.view) (j : Key) (path : String)
      (hj : Layout.checkedPath s.root j = .ok path) : shown s' j = shown s j :=
    hshown.congr htree h (hsafe hj) rfl
  refine ⟨fun now d => ?_, fun name version origin destination => ?_, fun k => ?_⟩
  · rcases write_cases now d s with ⟨s', h, hd, hfollow, -, hdone⟩ | ⟨failure, s', h, hkept⟩ <;> rw [h]
    · refine ⟨?_, fun j path hj hne => hshown.congr htree hdone (hsafe hj) ?_⟩
      · rw [hshown.eq_view hdone.root (hdone.tree htree) hd hfollow, hdone.view,
          Function.update_self]
      · rw [Function.update_of_ne (ne_of_relativePath_ne hne)]
    · exact hsame hkept
  · intro source target
    rcases move_cases source destination s htree with
      ⟨s', h, hk, hfollow, hfollow', hsome, hnone, hdone⟩ | ⟨failure, s', h, hkept⟩ <;> rw [h]
    · have hlocations : (source.location, source.stem) ≠ (target.location, target.stem) := by
        intro he
        rw [he] at hsome
        rw [show s.view (target.location, target.stem) = none from hnone] at hsome
        exact absurd hsome (by simp)
      have hsource := hshown.eq_view rfl htree hk hfollow
      have htarget := hshown.eq_view rfl htree (hk.relocate destination) hfollow'
      refine ⟨by rwa [hsource], htarget.trans hnone, ?_, ?_, fun j path hj hne hne' =>
        hshown.congr htree hdone (hsafe hj) ?_⟩
      · rw [hshown.eq_view hdone.root (hdone.tree htree) (hk.relocate destination) hfollow',
          hdone.view, hsource]
        exact Function.update_self _ _ _
      · rw [hshown.eq_view hdone.root (hdone.tree htree) hk hfollow, hdone.view]
        exact (Function.update_of_ne hlocations _ _).trans (Function.update_self _ _ _)
      · exact (Function.update_of_ne (ne_of_relativePath_ne hne') _ _).trans
          (Function.update_of_ne (ne_of_relativePath_ne hne) _ _)
    · exact hsame hkept
  · rcases delete_cases k s with ⟨s', h, hk, hfollow, hsome, hdone⟩ | ⟨failure, h⟩ <;> rw [h]
    · refine ⟨by rwa [hshown.eq_view rfl htree hk hfollow], ?_, fun j path hj hne =>
        hshown.congr htree hdone (hsafe hj) ?_⟩
      · rw [hshown.eq_view hdone.root (hdone.tree htree) hk hfollow, hdone.view,
          Function.update_self]
      · rw [Function.update_of_ne (ne_of_relativePath_ne hne)]
    · exact hsame (.refl s)

/-- A repository with one draft, whose root is given by the path. -/
def oneDraft (root : String) : OnDisk where
  root := root
  disk :=
    { entries := [(["d"], .directory), (["d", "staging"], .directory),
        (["d", "staging", "a-1.0.0"], .directory),
        (["d", "staging", "a-1.0.0", "a-1.0.0.puml"],
          .file ⟨.text "@startuml\n[*] --> Idle\n@enduml\n", ⟨0, 0⟩, ⟨0, 0⟩⟩)]
      workingDirectory := [] }

/-- The draft is moved, and its path leads to it before and after. -/
theorem oneDraft_is_moved :
    let s := oneDraft "d"
    ((move "a" "1.0.0" .staging .production).perform s).1 = .ok () ∧
      (s.reached? (.staging "a" "1.0.0")).isSome = true ∧
      ((move "a" "1.0.0" .staging .production).perform s).2.reached? (.production "a" "1.0.0") =
        s.reached? (.staging "a" "1.0.0") := by
  intro s
  have hok : ((move "a" "1.0.0" .staging .production).perform s).1 = .ok () := by decide +kernel
  obtain ⟨-, hmove, -⟩ := store_is_partial_map s (by decide +kernel) reached?
    (.inr ⟨rfl, by decide +kernel⟩)
  have h := hmove "a" "1.0.0" .staging .production
  generalize (move "a" "1.0.0" .staging .production).perform s = r at hok h ⊢
  obtain ⟨_, s'⟩ := r
  obtain rfl := hok
  exact ⟨rfl, h.1, h.2.2.1⟩

/-- Through the directory of the draft the path of the root leads nowhere once the draft is
moved, as the directory goes with it: the path of the moved diagram does not lead to it. -/
theorem move_out_of_reach :
    let s := oneDraft "d/staging/a-1.0.0/../.."
    s.disk.IsTree ∧
      (Layout.checkedPath s.root (.staging "a" "1.0.0")).toBool = true ∧
      ((move "a" "1.0.0" .staging .production).perform s).1 = .ok () ∧
      s.reached? (.staging "a" "1.0.0") =
        some (.text "@startuml\n[*] --> Idle\n@enduml\n") ∧
      ((move "a" "1.0.0" .staging .production).perform s).2.reached? (.production "a" "1.0.0") =
        none := by decide +kernel

end DiagramRegistry.OnDisk
