import DiagramRegistry.Proofs.Repository.TidyOperations

/-
# Setting a repository up

Where nothing lies below the root of a repository, setting it up makes the directories of the
locations there, and nothing else, so the repository is tidy and has no diagrams.  For this the
path of the root must not lead through what lies below it: the directories on its way are made,
too.

* `OnDisk.IsFresh`: a place for a new repository;
* `OnDisk.IsFresh.tidy_of_setUp`: the repository that is set up there;
* `OnDisk.exists_setUp`: where a repository can be set up.
-/
namespace DiagramRegistry.OnDisk

open Disk

variable {s s' : OnDisk} {disk : Disk} {l : Location} {ls : List Location} {p : Place}

/-- A place for a new repository: nothing lies below the root, and its path stays above. -/
structure IsFresh (s : OnDisk) : Prop where
  /-- The disk is a tree. -/
  tree : s.disk.IsTree
  /-- The path of the root does not lead through what lies below it. -/
  above : s.disk.StaysAbove s.root
  /-- It leaves room for the paths of diagrams. -/
  short : s.root.utf8ByteSize + 516 ≤ maxPath
  /-- Nothing lies below the root. -/
  nothing : ∀ p, p ≠ [] → s.disk.at? (s.rootPlace ++ p) = none

/-- Some directories of locations have been made, and nothing else below the root. -/
structure IsPartlySetUp (s : OnDisk) (disk : Disk) : Prop where
  /-- The working directory is the same. -/
  workingDirectory : disk.workingDirectory = s.disk.workingDirectory
  /-- Below the root lie directories of locations. -/
  below : ∀ p n, p ≠ [] → disk.at? (s.rootPlace ++ p) = some n →
    n = .directory ∧ ∃ l : Location, p = [l.directory]
  /-- Every place below the root is taken once. -/
  once : disk.OnceBelow s.rootPlace

lemma isPartlySetUp_of_nothing (h : ∀ p, p ≠ [] → s.disk.at? (s.rootPlace ++ p) = none) :
    IsPartlySetUp s s.disk := by
  refine ⟨rfl, fun p n hp hn => ?_, ?_⟩
  · rw [h p hp] at hn
    exact absurd hn (by simp)
  · -- nothing is taken at all
    refine List.pairwise_of_forall_mem_list fun e he e' _ _ name rest hplace => ?_
    have hsome : (s.disk.entries.find? fun e => e.1 = s.rootPlace ++ name :: rest).isSome = true :=
      List.find?_isSome.2 ⟨e, he, decide_eq_true hplace⟩
    have hnone := h (name :: rest) (by simp)
    simp only [at?, List.append_eq_nil_iff, List.cons_ne_nil, and_false,
      if_false, Option.map_eq_none_iff] at hnone
    rw [hnone] at hsome
    exact absurd hsome (by simp)

/-- The directory of a location is made, and besides only directories that are not below the
root. -/
lemma IsPartlySetUp.ensureDirectory (h : IsPartlySetUp s disk) (habove : s.disk.StaysAbove s.root)
    (l : Location) :
    IsPartlySetUp s (disk.ensureDirectory (Layout.locationDirectory s.root l)).2 := by
  have hname := l.isEntryName_directory
  refine ensureDirectory_induction (Path.segments_join hname.slash hname.ne_empty) hname.dot h ?_
  intro d p first hd hfirst hp hfree hne
  have horigin : d.origin (Layout.locationDirectory s.root l) = s.disk.origin s.root := by
    rw [Layout.locationDirectory, origin_join hname.slash, origin_congr hd.workingDirectory]
  rw [horigin] at hp
  refine ⟨hd.workingDirectory, fun q n hq hn => ?_, hd.once.put p _⟩
  rw [at?_put _ hne] at hn
  split at hn
  · rename_i hplace
    refine ⟨(Option.some.inj hn).symm, l, ?_⟩
    rcases List.prefix_concat_iff.1 hfirst with rfl | hfirst
    · rw [List.foldl_concat, along_entry hname.dot hname.up] at hp
      exact List.append_cancel_left (hplace.trans hp)
    · -- a directory on the way to the root is not below it
      have hsame := habove first ((List.mem_inits _ _).2 hfirst)
        (hp ▸ hplace ▸ List.prefix_append _ _)
      rw [← hp, ← hplace] at hsame
      exact absurd (List.append_right_eq_self.1 hsame) hq
  · exact hd.below q n hq hn

/-- Setting up goes through the locations. -/
lemma isPartlySetUp_of_makeDirectories {s'' : OnDisk}
    (hperform : (makeDirectories ls).perform s' = (.ok (), s'')) (hroot : s'.root = s.root)
    (habove : s.disk.StaysAbove s.root) (h : IsPartlySetUp s s'.disk) :
    s''.root = s.root ∧ IsPartlySetUp s s''.disk ∧ Extends s'.disk s''.disk ∧
      ∀ l ∈ ls, ∃ p, s''.disk.find (Layout.locationDirectory s.root l) = .ok (p, .directory) := by
  induction ls generalizing s' with
  | nil =>
    obtain rfl : s' = s'' := (Prod.mk.inj hperform).2
    exact ⟨hroot, h, .refl _, by simp⟩
  | cons l ls ih =>
    rw [perform_makeDirectories_cons, hroot] at hperform
    have hmade := h.ensureDirectory habove l
    have hold := ensureDirectory_extends (Layout.locationDirectory s.root l) s'.disk
    rcases hmake : s'.disk.ensureDirectory (Layout.locationDirectory s.root l) with
      ⟨e | _, disk⟩ <;> rw [hmake] at hperform hmade hold
    · exact absurd hperform (by simp)
    · obtain ⟨hroot', hpartly, hext, hfind⟩ := ih hperform rfl hmade
      obtain ⟨p, hp⟩ := exists_find_of_ensureDirectory (Layout.locationDirectory_ne _ _)
        (congrArg Prod.fst hmake)
      rw [hmake] at hp
      refine ⟨hroot', hpartly, hold.trans hext, ?_⟩
      exact List.forall_mem_cons.2 ⟨⟨p, find_directory_mono hext.keepsDirectories hp⟩, hfind⟩

/-- A repository that was set up is tidy and has no diagrams. -/
theorem IsFresh.tidy_of_setUp (h : IsFresh s) (hsetUp : setUp.perform s = (.ok (), s')) :
    Tidy s' ∧ s'.root = s.root ∧ ∀ q, s'.view q = none := by
  obtain ⟨hroot, hpartly, hext, hfind⟩ :=
    isPartlySetUp_of_makeDirectories hsetUp rfl h.above (isPartlySetUp_of_nothing h.nothing)
  have hrootPlace : s'.rootPlace = s.rootPlace := by
    rw [rootPlace, rootPlace, hroot, placeOf_congr hpartly.workingDirectory]
  have hlocation (l : Location) :
      s'.disk.find (Layout.locationDirectory s'.root l) =
        .ok (s'.rootPlace ++ [l.directory], .directory) := by
    obtain ⟨p, hp⟩ := hfind l (by cases l <;> simp [Location.all])
    rw [← hroot] at hp
    rw [hp, ← placeOf_of_find hp, Layout.placeOf_locationDirectory]
    rfl
  have hname := Location.isEntryName_directory .staging
  obtain ⟨htext, hwalk, -, -⟩ := find_eq_ok_iff.1 (hlocation .staging)
  have hshort : s'.root.utf8ByteSize + 516 ≤ maxPath := hroot ▸ h.short
  refine ⟨⟨hext.tree h.tree, ?_, ?_, ?_, hshort, fun l => ?_, ?_, ?_⟩, hroot, ?_⟩
  · rw [Layout.locationDirectory, origin_join hname.slash,
      Path.segments_join hname.slash hname.ne_empty] at hwalk
    obtain ⟨r, hr, -⟩ := walk_append_eq_ok_iff.1 hwalk
    rw [hr, eq_of_walk hr]
    rfl
  · rw [hroot]
    exact (staysAbove_congr hpartly.workingDirectory _).2 h.above
  · intro hmem
    refine (checkText_eq_ok_iff.1 htext).1 ?_
    rcases Path.toList_join_eq s'.root hname.slash with e | e <;>
      exact e ▸ List.mem_append_left _ hmem
  · exact (find_eq_ok_iff.1 (hlocation l)).2.2.1
  · intro p n hp hn
    rw [hrootPlace] at hn
    obtain ⟨rfl, l, rfl⟩ := hpartly.below p n hp hn
    exact .location l
  · rw [hrootPlace]
    exact hpartly.once
  · intro q
    rw [Option.eq_none_iff_forall_ne_some]
    intro c hc
    obtain ⟨f, hf, -⟩ := fileAt?_eq_some_iff.1 hc
    have hplace : s'.disk.at? (s.rootPlace ++ Layout.place q.1 q.2) = some (.file f) := by
      rw [← hrootPlace]
      exact hf
    obtain ⟨hdir, -⟩ := hpartly.below _ _ (by simp [Layout.place]) hplace
    exact absurd hdir (by simp)

/-- A repository that was set up has no directories of diagrams. -/
lemma IsFresh.homes_of_setUp (h : IsFresh s) (hsetUp : setUp.perform s = (.ok (), s')) :
    s'.homes = ∅ := by
  obtain ⟨hroot, hpartly, -, -⟩ :=
    isPartlySetUp_of_makeDirectories hsetUp rfl h.above (isPartlySetUp_of_nothing h.nothing)
  have hrootPlace : s'.rootPlace = s.rootPlace := by
    rw [rootPlace, rootPlace, hroot, placeOf_congr hpartly.workingDirectory]
  ext q
  refine iff_of_false (fun hq => ?_) (Set.notMem_empty q)
  have hat : s'.disk.at? (s'.rootPlace ++ [q.1.directory, q.2]) = some .directory := hq
  rw [hrootPlace] at hat
  obtain ⟨-, l, hl⟩ := hpartly.below _ _ (by simp) hat
  exact absurd hl (by simp)

/-- Where the root is a directory and no file is in the way, a repository can be set up. -/
theorem exists_setUp (htree : s.disk.IsTree)
    (hwalk : s.disk.walk (s.disk.origin s.root) (Path.segments s.root) = .ok p)
    (hdir : s.disk.at? p = some .directory) (hnul : '\x00' ∉ s.root.toList)
    (hsize : s.root.utf8ByteSize + 9 ≤ maxPath)
    (hfile : ∀ (l : Location) f, s.disk.at? (p ++ [l.directory]) ≠ some (.file f)) :
    ∃ s', setUp.perform s = (.ok (), s') ∧ s'.root = s.root := by
  -- by induction on the locations whose directories are to be made
  suffices ∀ (ls : List Location) (disk : Disk), Extends s.disk disk →
      ∃ s', (makeDirectories ls).perform { s with disk } = (.ok (), s') ∧ s'.root = s.root from
    this Location.all s.disk (.refl _)
  intro ls
  induction ls with
  | nil => exact fun disk _ => ⟨_, rfl, rfl⟩
  | cons l ls ih =>
    intro disk hext
    have hname := l.isEntryName_directory
    have hsmall : l.directory.utf8ByteSize ≤ 8 := by cases l <;> decide
    have honward : disk.Onward (Layout.locationDirectory s.root l) p [l.directory] := by
      refine onward_join (fun _ hs => absurd hs (by simp)) hname
        ⟨_, (List.append_nil _).symm, ?_⟩ hnul (by omega)
      rw [origin_congr hext.workingDirectory]
      exact walk_mono hext.keepsDirectories.directory hwalk hdir
    have hdir' : disk.at? p = some .directory := hext.old _ _ hdir
    have hlocate : disk.locate (Layout.locationDirectory s.root l) =
        .ok (some (p ++ [l.directory])) :=
      Onward.locate_eq [] honward (hext.tree htree) hdir' (by rwa [List.append_nil])
    have hmake := ensureDirectory_of_locate hlocate fun f hf => by
      rcases hext.new _ _ hf with hf | hf
      · exact hfile l f hf
      · exact absurd hf (by simp)
    have hold := ensureDirectory_extends (Layout.locationDirectory s.root l) disk
    rw [hmake] at hold
    obtain ⟨s', hs', hroot⟩ := ih _ (hext.trans hold)
    refine ⟨s', ?_, hroot⟩
    rw [← hs', perform_makeDirectories_cons, hmake]

end DiagramRegistry.OnDisk
