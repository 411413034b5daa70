import DiagramRegistry.Proofs.Repository.Places
import DiagramRegistry.Repository.OnDisk

/-
# What a repository on disk shows

The files of the diagrams make up a map from locations and stems to contents.  However many
steps an operation takes on the disk, it changes this map in one way or not at all: writing,
moving and deleting change exactly the entries that they are about when they succeed, and none
when they fail, whatever else lies on the disk.

The file of a diagram is taken to be the one at the place that its path names.  The path also
leads there, unless it goes up through a directory that is not there: this is the only way in
which the two can differ, and it needs a root with double dots.

* `OnDisk.reached?_eq`: what the path of a file leads to;
* `OnDisk.write_cases`, `OnDisk.move_cases`, `OnDisk.delete_cases`: what each operation does.
-/
namespace DiagramRegistry.OnDisk

open Disk

variable {s s' : OnDisk} {k j : Key} {d : Diagram} {now : Instant} {name version : String}
  {origin destination : Location}

/-! ## The files of diagrams -/

/-- The contents of the file of a diagram, by its location and stem. -/
def view (s : OnDisk) (q : Location × String) : Option Contents :=
  s.disk.fileAt? (s.disk.placeOf s.root ++ Layout.place q.1 q.2)

/-- What the file at the place holds that the path of a diagram names. -/
def placed? (s : OnDisk) (k : Key) : Option Contents :=
  s.disk.fileAt? (s.disk.placeOf (Layout.diagramPath s.root k))

/-- What the file holds that the path of a diagram leads to. -/
def reached? (s : OnDisk) (k : Key) : Option Contents :=
  match s.disk.find (Layout.diagramPath s.root k) with
  | .ok (_, .file f) => some f.contents
  | _ => none

lemma placed?_eq (h : k.IsSafe) : s.placed? k = s.view (k.location, k.stem) := by
  rw [placed?, Layout.placeOf_diagramPath h, view]

/-- A path leads to the place that it names. -/
lemma placed?_of_find {p : Place} {f : File}
    (h : s.disk.find (Layout.diagramPath s.root k) = .ok (p, .file f)) :
    s.placed? k = some f.contents := by
  rw [placed?, placeOf_of_find h]
  exact fileAt?_eq_some_iff.2 ⟨f, (find_eq_ok_iff.1 h).2.2.1, rfl⟩

/-- Only the path matters for it. -/
lemma reached?_congr (h : Layout.diagramPath s.root j = Layout.diagramPath s.root k) :
    s.reached? j = s.reached? k := by
  unfold reached?
  rw [h]

lemma reached?_eq_some_iff {c : Contents} :
    s.reached? k = some c ↔
      ∃ p f, s.disk.find (Layout.diagramPath s.root k) = .ok (p, .file f) ∧ f.contents = c := by
  unfold reached?
  split
  · rename_i p f h
    simp [h]
  · rename_i h
    refine iff_of_false (by simp) ?_
    rintro ⟨p, f, hf, -⟩
    exact h p f hf

/-- A path that can be followed leads to the file at the place that it names, if the path of the
root leads anywhere. -/
lemma find_of_placed? {p : Place} {f : File} (htree : s.disk.IsTree) (hk : k.IsSafe)
    (hroot : s.disk.walk (s.disk.origin s.root) (Path.segments s.root) = .ok p)
    (hfollow : Followable (Layout.diagramPath s.root k))
    (hat : s.disk.at? (s.disk.placeOf (Layout.diagramPath s.root k)) = some (.file f)) :
    s.disk.find (Layout.diagramPath s.root k) =
      .ok (s.disk.placeOf (Layout.diagramPath s.root k), .file f) := by
  obtain ⟨below, hbelow⟩ : ∃ below, Layout.place k.location k.stem = below ++ [k.fileName] := by
    rw [Layout.place, Key.fileName_eq, ← List.cons_append]
    exact ⟨_, rfl⟩
  have habove : s.disk.walk (s.disk.origin (Layout.diagramPath s.root k)) (Path.segments s.root) =
      .ok p := by
    rw [Layout.origin_diagramPath hk]
    exact hroot
  refine find_file_of_walk htree (by rw [Layout.segments_diagramPath hk, hbelow]) habove ?_
    (Layout.fileName_ne "." (by decide)) (Layout.endsWithSlash_diagramPath hk) hfollow hat
  rw [← hbelow]
  exact Layout.up_not_mem_place hk

/-- Unless the root has double dots in its path, a path that can be followed leads to the file
at the place that it names. -/
theorem reached?_eq [Decidable (Followable (Layout.diagramPath s.root k))] (htree : s.disk.IsTree)
    (hup : ".." ∉ Path.segments s.root) (hk : k.IsSafe) :
    s.reached? k = if Followable (Layout.diagramPath s.root k) then s.placed? k else none := by
  ext c
  rw [reached?_eq_some_iff]
  split
  · rename_i hfollow
    rw [placed?, fileAt?_eq_some_iff]
    constructor
    · rintro ⟨p, f, hfind, hc⟩
      rw [placeOf_of_find hfind]
      exact ⟨f, (find_eq_ok_iff.1 hfind).2.2.1, hc⟩
    · rintro ⟨f, hat, hc⟩
      -- what lies below the root is a file, so the root is a directory and can be walked to
      have hroot : s.disk.at? (s.disk.placeOf s.root) = some .directory := by
        rw [Layout.placeOf_diagramPath hk] at hat
        exact htree.at?_above hat (by simp [Layout.place])
      have hwalk := walk_of_isTree htree hup (fun t ht => hfollow.names t (by
        rw [Layout.segments_diagramPath hk]
        exact List.mem_append_left _ ht)) hroot
      exact ⟨_, f, find_of_placed? htree hk hwalk hfollow hat, hc⟩
  · rename_i hfollow
    refine iff_of_false ?_ (by simp)
    rintro ⟨p, f, hfind, -⟩
    exact hfollow (followable_of_find hfind)

/-! ## Steps -/

/-- One store comes from another by steps after which the files of diagrams are as given. -/
structure Becomes (s s' : OnDisk) (files : Location × String → Option Contents) : Prop where
  /-- The root is the same. -/
  root : s'.root = s.root
  /-- The working directory is the same. -/
  workingDirectory : s'.disk.workingDirectory = s.disk.workingDirectory
  /-- The disk is a tree if it was one. -/
  tree : s.disk.IsTree → s'.disk.IsTree
  /-- What the files of diagrams hold. -/
  view : s'.view = files

namespace Becomes

lemma refl (s : OnDisk) : Becomes s s s.view := ⟨rfl, rfl, id, rfl⟩

lemma trans {s'' : OnDisk} {files files' : Location × String → Option Contents}
    (h : Becomes s s' files) (h' : Becomes s' s'' files') : Becomes s s'' files' :=
  ⟨h'.root.trans h.root, h'.workingDirectory.trans h.workingDirectory,
    fun ht => h'.tree (h.tree ht), h'.view⟩

/-- Changes of the disk are changes of the store, at the places of diagrams. -/
lemma of_disk {disk : Disk} {all : Place → Option Contents}
    {files : Location × String → Option Contents} (h : Disk.Becomes s.disk disk all)
    (hfiles : ∀ q, all (s.disk.placeOf s.root ++ Layout.place q.1 q.2) = files q) :
    Becomes s { s with disk } files := by
  refine ⟨rfl, h.workingDirectory, h.tree, funext fun q => ?_⟩
  rw [OnDisk.view, placeOf_congr h.workingDirectory, h.files, hfiles]

/-- The place of a diagram is that of its location and stem. -/
lemma update_place (hk : k.IsSafe) (all : Place → Option Contents) (c : Option Contents)
    (q : Location × String) :
    Function.update all (s.disk.placeOf (Layout.diagramPath s.root k)) c
        (s.disk.placeOf s.root ++ Layout.place q.1 q.2) =
      Function.update (fun q => all (s.disk.placeOf s.root ++ Layout.place q.1 q.2))
        (k.location, k.stem) c q := by
  rw [Layout.placeOf_diagramPath hk, Function.update_apply, Function.update_apply]
  refine if_congr ⟨fun h => ?_, fun h => by rw [h]⟩ rfl rfl
  obtain ⟨hl, hs⟩ := Layout.place_injective (List.append_cancel_left h)
  exact Prod.ext hl hs

end Becomes

lemma perform_change (f : Disk → Except OsError Disk) (s : OnDisk) :
    (change f).perform s =
      match f s.disk with
      | .ok disk => (.ok (), { s with disk })
      | .error e => (.error (.io e), s) := rfl

/-- Making directories touches nothing else, also when it fails. -/
lemma perform_ensureDirectory (path : String) (s : OnDisk) :
    (ensureDirectory path).perform s =
      ((s.disk.ensureDirectory path).1.mapError .io,
        { s with disk := (s.disk.ensureDirectory path).2 }) := by
  rw [ensureDirectory, Action.perform_of]
  split <;> rename_i h <;> simp [h, Except.mapError]

/-- Make the directories of some locations. -/
def makeDirectories (ls : List Location) : Action OnDisk Unit :=
  ls.forM fun location => do
    let root ← Action.ask fun s => .ok s.root
    ensureDirectory (Layout.locationDirectory root location)

/-- Setting a repository up makes those of all locations. -/
lemma setUp_eq : setUp = makeDirectories Location.all := rfl

lemma perform_makeDirectories_cons (l : Location) (ls : List Location) (s : OnDisk) :
    (makeDirectories (l :: ls)).perform s =
      match s.disk.ensureDirectory (Layout.locationDirectory s.root l) with
      | (.ok (), disk) => (makeDirectories ls).perform { s with disk }
      | (.error e, disk) => (.error (.io e), { s with disk }) := by
  have hcons : makeDirectories (l :: ls) =
      (do
        let root ← Action.ask fun s => .ok s.root
        ensureDirectory (Layout.locationDirectory root l)) >>= fun _ => makeDirectories ls := rfl
  rw [hcons, Action.perform_bind, Action.perform_bind, Action.perform_ask]
  simp only [perform_ensureDirectory]
  rcases s.disk.ensureDirectory (Layout.locationDirectory s.root l) with ⟨_ | _, disk⟩ <;> rfl

lemma ensureParent_extends (path : String) (s : OnDisk) :
    ∃ disk, ((ensureParent path).perform s).2 = { s with disk } ∧ Extends s.disk disk := by
  unfold ensureParent
  split
  · exact ⟨s.disk, rfl, .refl _⟩
  · rw [perform_ensureDirectory]
    exact ⟨_, rfl, ensureDirectory_extends _ _⟩

/-- Removing the directory of a file, if it is empty, cannot fail where the directory is
found. -/
lemma perform_removeEmptyParent {path q : String} {p : Place}
    (hparent : Path.parent? path = some q) (hfind : s.disk.find q = .ok (p, .directory))
    (hp : p ≠ []) :
    (removeEmptyParent path).perform s =
      (.ok (), { s with disk := if s.disk.children p = [] then s.disk.erase p else s.disk }) := by
  simp only [removeEmptyParent, hparent]
  have hlist : s.disk.list q = .ok (s.disk.children p) := by
    simp [Disk.list, hfind, bind, Except.bind]
  rw [perform_change, hlist]
  cases hc : s.disk.children p with
  | nil =>
    have hremove : s.disk.removeDirectory q = .ok (s.disk.erase p) :=
      removeDirectory_eq_ok_iff.2 ⟨p, hfind, hp, hc, rfl⟩
    simp [hremove]
  | cons e es => simp

/-! ## Operations -/

/-- What is written beside the file of a diagram is the file of no diagram. -/
lemma writeBeside_becomes {disk : Disk} {contents : Contents} (hk : k.IsSafe)
    (h : s.disk.writeFile now (Path.withExtension (Layout.diagramPath s.root k) "tmp") contents =
      .ok disk) : Becomes s { s with disk } s.view := by
  refine .of_disk (writeFile_becomes h) fun q => ?_
  rw [Function.update_of_ne (Layout.placeOf_beside_ne hk _ _ _).symm]
  rfl

/-- Renamed into the file of a diagram it changes this one file. -/
lemma renameBeside_becomes {disk : Disk} (hk : k.IsSafe)
    (h : s.disk.renameFile (Path.withExtension (Layout.diagramPath s.root k) "tmp")
      (Layout.diagramPath s.root k) = .ok disk) :
    Becomes s { s with disk } (Function.update s.view (k.location, k.stem) (s.disk.fileAt?
      (s.disk.placeOf (Path.withExtension (Layout.diagramPath s.root k) "tmp")))) := by
  refine .of_disk (renameFile_becomes h) fun q => ?_
  have hother : (fun q : Location × String => Function.update s.disk.fileAt?
      (s.disk.placeOf (Path.withExtension (Layout.diagramPath s.root k) "tmp")) none
      (s.disk.placeOf s.root ++ Layout.place q.1 q.2)) = s.view := by
    funext q
    rw [Function.update_of_ne (Layout.placeOf_beside_ne hk _ _ _).symm]
    rfl
  rw [Becomes.update_place hk, hother]

/-- The path of a diagram that was renamed into its place leads to it. -/
lemma reached?_of_renameFile {disk : Disk} {source : String} (hk : k.IsSafe)
    (h : s.disk.renameFile source (Layout.diagramPath s.root k) = .ok disk) :
    reached? { s with disk } k = s.disk.fileAt? (s.disk.placeOf source) := by
  have hkeep := (renameFile_becomes h).toKeepsDirectories
  obtain ⟨p, f, t, hfind, hlocate, -, -, hdisk⟩ := renameFile_eq_ok_iff.1 h
  have hat : disk.at? t = some (.file f) := by
    rw [hdisk, at?_put _ (ne_nil_of_locate hlocate), if_pos rfl]
  have hfound : disk.find (Layout.diagramPath s.root k) = .ok (t, .file f) :=
    find_of_locate (locate_mono hkeep hlocate) hat fun hslash => by
      rw [Layout.endsWithSlash_diagramPath hk] at hslash
      exact absurd hslash (by simp)
  have hbefore : s.disk.fileAt? (s.disk.placeOf source) = some f.contents := by
    rw [placeOf_of_find hfind]
    exact fileAt?_eq_some_iff.2 ⟨f, (find_eq_ok_iff.1 hfind).2.2.1, rfl⟩
  rw [hbefore]
  exact reached?_eq_some_iff.2 ⟨t, f, hfound, rfl⟩

/-- Writing either gives the file of the diagram its document, or changes the file of no
diagram. -/
theorem write_cases (now : Instant) (d : Diagram) (s : OnDisk) :
    (∃ s', (write now d).perform s = (.ok (), s') ∧ d.key.IsSafe ∧
      Followable (Layout.diagramPath s.root d.key) ∧ s'.reached? d.key = some (.text d.content) ∧
      Becomes s s' (Function.update s.view (d.key.location, d.key.stem)
        (some (.text d.content)))) ∨
    ∃ failure s', (write now d).perform s = (.error failure, s') ∧ Becomes s s' s.view := by
  cases hpath : Layout.checkedPath s.root d.key with
  | error failure =>
    refine .inr ⟨failure, s, ?_, .refl s⟩
    simp only [write, Action.perform_bind, Action.perform_ask, hpath]
  | ok path =>
    obtain ⟨hsafe, rfl⟩ := Layout.checkedPath_eq_ok_iff.1 hpath
    obtain ⟨disk, hs, hext⟩ := ensureParent_extends (Layout.diagramPath s.root d.key) s
    have hmade : Becomes s { s with disk } s.view := .of_disk hext.becomes fun _ => rfl
    rcases hmake : (ensureParent (Layout.diagramPath s.root d.key)).perform s with
      ⟨failure | _, s₁⟩ <;> rw [hmake] at hs <;> obtain rfl := hs
    · refine .inr ⟨failure, _, ?_, hmade⟩
      simp only [write, Action.perform_bind, Action.perform_ask, hpath, hmake]
    · cases hwrite : disk.writeFile now
          (Path.withExtension (Layout.diagramPath s.root d.key) "tmp") (.text d.content) with
      | error e =>
        refine .inr ⟨.io e, _, ?_, hmade⟩
        simp only [write, Action.perform_bind, Action.perform_ask, hpath, hmake, perform_change,
          hwrite]
      | ok disk₂ =>
        have hbeside : Becomes s { s with disk := disk₂ } s.view := by
          have := hmade.trans (writeBeside_becomes (s := { s with disk }) hsafe hwrite)
          rwa [hmade.view] at this
        cases hrename : disk₂.renameFile
            (Path.withExtension (Layout.diagramPath s.root d.key) "tmp")
            (Layout.diagramPath s.root d.key) with
        | error e =>
          refine .inr ⟨.io e, _, ?_, hbeside⟩
          simp only [write, Action.perform_bind, Action.perform_ask, hpath, hmake, perform_change,
            hwrite, hrename]
        | ok disk₃ =>
          obtain ⟨_, _, _, -, hlocate, -⟩ := renameFile_eq_ok_iff.1 hrename
          have hdone := hbeside.trans
            (renameBeside_becomes (s := { s with disk := disk₂ }) hsafe hrename)
          have hwritten : disk₂.fileAt? (disk₂.placeOf
              (Path.withExtension (Layout.diagramPath s.root d.key) "tmp")) =
              some (.text d.content) := by
            have hbecomes := writeFile_becomes hwrite
            rw [placeOf_congr hbecomes.workingDirectory, hbecomes.files, Function.update_self]
          have hreached := reached?_of_renameFile (s := { s with disk := disk₂ }) hsafe hrename
          rw [hwritten] at hreached
          rw [hwritten, hbeside.view] at hdone
          refine .inl ⟨_, ?_, hsafe, followable_of_locate hlocate, hreached, hdone⟩
          simp only [write, Action.perform_bind, Action.perform_ask, hpath, hmake, perform_change,
            hwrite, hrename]

/-- The file of a diagram that can be removed lies in a directory that is found. -/
lemma exists_directory (hk : k.IsSafe) {p : Place}
    (h : s.disk.locate (Layout.diagramPath s.root k) = .ok (some p)) :
    ∃ q, Path.parent? (Layout.diagramPath s.root k) = some q ∧
      s.disk.find q = .ok (p.dropLast, .directory) ∧ p.dropLast ≠ [] := by
  obtain ⟨q, hq, hfind⟩ := exists_find_parent h (Layout.two_le_length_segments hk)
  refine ⟨q, hq, hfind, ?_⟩
  rw [← placeOf_of_locate h, Layout.placeOf_diagramPath hk, Layout.place, List.append_cons,
    ← List.append_assoc, List.dropLast_concat]
  simp

/-- Without the directory of a file, which is empty, the files of diagrams are the same. -/
lemma eraseEmpty_becomes {p : Place} {q : String}
    (hfind : s.disk.find q = .ok (p, .directory)) (hp : p ≠ []) :
    Becomes s { s with disk := if s.disk.children p = [] then s.disk.erase p else s.disk }
      s.view := by
  split
  · rename_i hempty
    obtain ⟨htree, hfiles⟩ := erase_directory hp (find_eq_ok_iff.1 hfind).2.2.1 hempty
    refine ⟨rfl, rfl, htree, funext fun q => ?_⟩
    rw [view, hfiles]
    rfl
  · exact .refl s

/-- Deleting either takes the file of the diagram away, or changes nothing. -/
theorem delete_cases (k : Key) (s : OnDisk) :
    (∃ s', (delete k).perform s = (.ok (), s') ∧ k.IsSafe ∧
      Followable (Layout.diagramPath s.root k) ∧ (s.view (k.location, k.stem)).isSome = true ∧
      Becomes s s' (Function.update s.view (k.location, k.stem) none)) ∨
    ∃ failure, (delete k).perform s = (.error failure, s) := by
  cases hpath : Layout.checkedPath s.root k with
  | error failure =>
    refine .inr ⟨failure, ?_⟩
    simp only [delete, Action.perform_bind, Action.perform_ask, hpath]
  | ok path =>
    obtain ⟨hsafe, rfl⟩ := Layout.checkedPath_eq_ok_iff.1 hpath
    cases hremove : s.disk.removeFile (Layout.diagramPath s.root k) with
    | error e =>
      refine .inr ⟨readFailure k (Layout.diagramPath s.root k) e, ?_⟩
      simp only [delete, Action.perform_bind, Action.perform_ask, Action.perform_of, hpath, hremove]
    | ok disk =>
      obtain ⟨p, f, hlocate, hf, -⟩ := removeFile_eq_ok_iff.1 hremove
      have hbecomes := removeFile_becomes hremove
      have hremoved : Becomes s { s with disk }
          (Function.update s.view (k.location, k.stem) none) :=
        .of_disk hbecomes fun q => Becomes.update_place hsafe _ _ q
      obtain ⟨q, hq, hfind, hp⟩ := exists_directory hsafe hlocate
      have hfind' : disk.find q = .ok (p.dropLast, .directory) :=
        find_directory_mono hbecomes.toKeepsDirectories hfind
      have hemptied := hremoved.trans (eraseEmpty_becomes (s := { s with disk }) hfind' hp)
      rw [hremoved.view] at hemptied
      have hpresent : s.view (k.location, k.stem) = some f.contents := by
        rw [← placed?_eq hsafe, placed?, placeOf_of_locate hlocate]
        exact fileAt?_eq_some_iff.2 ⟨f, hf, rfl⟩
      refine .inl ⟨_, ?_, hsafe, followable_of_locate hlocate, by rw [hpresent]; rfl, hemptied⟩
      simp only [delete, Action.perform_bind, Action.perform_ask, Action.perform_of, hpath, hremove]
      exact perform_removeEmptyParent (s := { s with disk }) hq hfind' hp

/-- A file at a place that is found to be free cannot be there: the path of the other diagram
has shown that the path of the root leads somewhere. -/
lemma view_eq_none_of_not_contains {p : Place} {f : File} (htree : s.disk.IsTree) (hk : k.IsSafe)
    (hj : j.IsSafe) (hfind : s.disk.find (Layout.diagramPath s.root k) = .ok (p, .file f))
    (hfree : s.disk.contains (Layout.diagramPath s.root j) = false)
    (hfollow : Followable (Layout.diagramPath s.root j)) : s.view (j.location, j.stem) = none := by
  obtain ⟨-, hwalk, -, -⟩ := find_eq_ok_iff.1 hfind
  rw [Layout.segments_diagramPath hk, Layout.origin_diagramPath hk] at hwalk
  obtain ⟨r, hroot, -⟩ := walk_append_eq_ok_iff.1 hwalk
  rw [← placed?_eq hj, Option.eq_none_iff_forall_ne_some]
  intro c hc
  obtain ⟨g, hg, -⟩ := fileAt?_eq_some_iff.1 hc
  rw [Disk.contains, find_of_placed? htree hj hroot hfollow hg] at hfree
  exact absurd hfree (by simp [Except.toBool])

/-- The file of a diagram is renamed to that of the same diagram elsewhere. -/
lemma renameFile_view {disk : Disk} (hk : k.IsSafe) (hj : j.IsSafe)
    (h : s.disk.renameFile (Layout.diagramPath s.root k) (Layout.diagramPath s.root j) = .ok disk) :
    Becomes s { s with disk } (Function.update (Function.update s.view (k.location, k.stem) none)
      (j.location, j.stem) (s.view (k.location, k.stem))) := by
  refine .of_disk (renameFile_becomes h) fun q => ?_
  have hgone : (fun q : Location × String => Function.update s.disk.fileAt?
      (s.disk.placeOf (Layout.diagramPath s.root k)) none
      (s.disk.placeOf s.root ++ Layout.place q.1 q.2)) =
      Function.update s.view (k.location, k.stem) none :=
    funext fun q => Becomes.update_place hk _ _ q
  rw [Becomes.update_place hj, hgone, ← placed?_eq hk]
  rfl

/-- Once it is checked that the diagram is there and the other place is free, the file is moved
or nothing changes. -/
lemma moveFile_cases {p : Place} {f : File} (htree : s.disk.IsTree) (hk : k.IsSafe)
    (hj : j.IsSafe) (hfind : s.disk.find (Layout.diagramPath s.root k) = .ok (p, .file f))
    (hfree : s.disk.contains (Layout.diagramPath s.root j) = false) :
    let x : Action OnDisk Unit := do
      ensureParent (Layout.diagramPath s.root j)
      change (renameFile (Layout.diagramPath s.root k) (Layout.diagramPath s.root j))
      removeEmptyParent (Layout.diagramPath s.root k)
    (∃ s', x.perform s = (.ok (), s') ∧ Followable (Layout.diagramPath s.root j) ∧
      s.view (j.location, j.stem) = none ∧
      Becomes s s' (Function.update (Function.update s.view (k.location, k.stem) none)
        (j.location, j.stem) (s.view (k.location, k.stem)))) ∨
    ∃ failure s', x.perform s = (.error failure, s') ∧ Becomes s s' s.view := by
  intro x
  obtain ⟨disk, hs, hext⟩ := ensureParent_extends (Layout.diagramPath s.root j) s
  have hmade : Becomes s { s with disk } s.view := .of_disk hext.becomes fun _ => rfl
  rcases hmake : (ensureParent (Layout.diagramPath s.root j)).perform s with ⟨failure | _, s₁⟩ <;>
    rw [hmake] at hs <;> obtain rfl := hs
  · refine .inr ⟨failure, _, ?_, hmade⟩
    simp only [x, Action.perform_bind, hmake]
  · cases hrename : disk.renameFile (Layout.diagramPath s.root k)
        (Layout.diagramPath s.root j) with
    | error e =>
      refine .inr ⟨.io e, _, ?_, hmade⟩
      simp only [x, Action.perform_bind, hmake, perform_change, hrename]
    | ok disk₂ =>
      obtain ⟨p₁, f₁, t, hfind₁, hlocate, -, -, -⟩ := renameFile_eq_ok_iff.1 hrename
      have hrenamed := hmade.trans (renameFile_view (s := { s with disk }) hk hj hrename)
      rw [hmade.view] at hrenamed
      -- the directory that the file has left is found after the renaming, too
      have hseg := Layout.segments_diagramPath_eq s.root hk
      obtain ⟨q, hq, hparent, hne⟩ := exists_directory (s := { s with disk }) hk
        (locate_of_find hseg (Layout.fileName_ne "." (by decide))
          (Layout.fileName_ne ".." (by decide)) hfind₁)
      have hparent' : disk₂.find q = .ok (p₁.dropLast, .directory) :=
        find_directory_mono (renameFile_becomes hrename).toKeepsDirectories hparent
      have hdone := hrenamed.trans (eraseEmpty_becomes (s := { s with disk := disk₂ }) hparent' hne)
      rw [hrenamed.view] at hdone
      have hfollow := followable_of_locate hlocate
      refine .inl ⟨_, ?_, hfollow, view_eq_none_of_not_contains htree hk hj hfind hfree hfollow,
        hdone⟩
      simp only [x, Action.perform_bind, hmake, perform_change, hrename]
      exact perform_removeEmptyParent (s := { s with disk := disk₂ }) hq hparent' hne

/-- Moving either gives the file of a diagram to another location, where there was none, or
changes the file of no diagram. -/
theorem move_cases (k : Key) (destination : Location) (s : OnDisk) (htree : s.disk.IsTree) :
    (∃ s', (move k.name k.version k.location destination).perform s = (.ok (), s') ∧ k.IsSafe ∧
      Followable (Layout.diagramPath s.root k) ∧
      Followable (Layout.diagramPath s.root (k.relocate destination)) ∧
      (s.view (k.location, k.stem)).isSome = true ∧ s.view (destination, k.stem) = none ∧
      Becomes s s' (Function.update (Function.update s.view (k.location, k.stem) none)
        (destination, k.stem) (s.view (k.location, k.stem)))) ∨
    ∃ failure s', (move k.name k.version k.location destination).perform s =
      (.error failure, s') ∧ Becomes s s' s.view := by
  cases hpath : Layout.checkedPath s.root k with
  | error failure =>
    refine .inr ⟨failure, s, ?_, .refl s⟩
    simp only [move, Action.perform_bind, Action.perform_ask, hpath]
  | ok path =>
    obtain ⟨hsafe, rfl⟩ := Layout.checkedPath_eq_ok_iff.1 hpath
    have hsafe' : (k.relocate destination).IsSafe := hsafe.relocate destination
    have htarget : Layout.checkedPath s.root (k.relocate destination) =
        .ok (Layout.diagramPath s.root (k.relocate destination)) :=
      Layout.checkedPath_eq_ok_iff.2 ⟨hsafe', rfl⟩
    cases hfile : s.disk.isFile (Layout.diagramPath s.root k) with
    | false =>
      refine .inr ⟨.notFound k, s, ?_, .refl s⟩
      simp only [move, Action.perform_bind, Action.perform_ask, hpath, htarget, hfile,
        Bool.false_eq_true, if_false, Action.perform_fail]
    | true =>
      cases hfree : s.disk.contains (Layout.diagramPath s.root (k.relocate destination)) with
      | true =>
        refine .inr ⟨.alreadyExists (k.relocate destination), s, ?_, .refl s⟩
        simp only [move, Action.perform_bind, Action.perform_ask, hpath, htarget, hfile, hfree,
          if_true, Action.perform_fail]
      | false =>
        obtain ⟨p, f, hfind⟩ := isFile_iff.1 hfile
        have hpresent : s.view (k.location, k.stem) = some f.contents := by
          rw [← placed?_eq hsafe, placed?_of_find hfind]
        rcases moveFile_cases htree hsafe hsafe' hfind hfree with
          ⟨s', hs', hfollow, hnone, hdone⟩ | ⟨failure, s', hs', hsame⟩
        · refine .inl ⟨s', ?_, hsafe, followable_of_find hfind, hfollow, by rw [hpresent]; rfl,
            hnone, hdone⟩
          rw [← hs']
          simp only [move, Action.perform_bind, Action.perform_ask, hpath, htarget, hfile, hfree,
            if_true, Bool.false_eq_true, if_false]
        · refine .inr ⟨failure, s', ?_, hsame⟩
          rw [← hs']
          simp only [move, Action.perform_bind, Action.perform_ask, hpath, htarget, hfile, hfree,
            if_true, Bool.false_eq_true, if_false]

end DiagramRegistry.OnDisk
