import DiagramRegistry.Proofs.Identity.Admissible
import DiagramRegistry.Proofs.Repository.Tidy
import Mathlib.Data.Set.Insert

/-
# Operations in a tidy repository

In a tidy repository an operation on diagrams that can be stored fails only because a diagram is
not there, or because one is there already.  Otherwise it is carried out, and the repository is tidy
again.  The directory of a diagram comes with its document and goes with it.

* `OnDisk.Tidy.leaves_write`, `OnDisk.Tidy.leaves_delete`, `OnDisk.Tidy.leaves_move`: the operations
  are carried out;
* `OnDisk.Tidy.delete_eq_notFound`: there is nothing to delete;
* `OnDisk.Tidy.exists_list`: what a listing shows.
-/
namespace DiagramRegistry.OnDisk

open Disk

variable {s s' : OnDisk} {k j : Key} {d : Diagram} {now : Instant} {l : Location}
  {p : Place} {path : String}

/-- The directories of diagrams that are there, by location and stem. -/
def homes (s : OnDisk) : Set (Location × String) :=
  {q | s.disk.at? (s.rootPlace ++ [q.1.directory, q.2]) = some .directory}

/-- All files are documents of admissible diagrams. -/
def OnlyAdmissible (files : Location × String → Option Contents) : Prop :=
  ∀ q c, files q = some c → ∃ k : Key, k.IsAdmissible ∧ (k.location, k.stem) = q

/-- An operation has been carried out: the repository is tidy, and its documents and the
directories for them are as given. -/
structure Leaves (s : OnDisk) (files : Location × String → Option Contents)
    (homes : Set (Location × String)) (s' : OnDisk) : Prop extends Becomes s s' files where
  /-- The repository is tidy. -/
  tidy : Tidy s'
  /-- The directories are as given. -/
  homes : s'.homes = homes

lemma Leaves.trans {files files' : Location × String → Option Contents}
    {homes homes' : Set (Location × String)} {s'' : OnDisk} (h : Leaves s files homes s')
    (h' : Leaves s' files' homes' s'') : Leaves s files' homes' s'' :=
  ⟨h.toBecomes.trans h'.toBecomes, h'.tidy, h'.homes⟩

/-! ## The directories of diagrams -/

section Homes

variable {q : Location × String} {stem : String} {n : Node}

lemma mem_homes_iff (s : OnDisk) {disk : Disk}
    (hworking : disk.workingDirectory = s.disk.workingDirectory) :
    q ∈ homes { s with disk } ↔
      disk.at? (s.rootPlace ++ [q.1.directory, q.2]) = some .directory := by
  rw [homes, rootPlace, placeOf_congr hworking]
  rfl

lemma home_eq_iff :
    s.rootPlace ++ [q.1.directory, q.2] = s.rootPlace ++ [l.directory, stem] ↔ q = (l, stem) := by
  rw [List.append_right_inj]
  constructor
  · intro he
    simp only [List.cons.injEq, and_true] at he
    exact Prod.ext (Layout.directory_injective he.1) he.2
  · rintro rfl
    rfl

/-- A directory for a diagram is made. -/
lemma homes_put_home (s : OnDisk) (l : Location) (stem : String) :
    homes { s with disk := s.disk.put (s.rootPlace ++ [l.directory, stem]) .directory } =
      insert (l, stem) s.homes := by
  ext q
  refine Iff.trans (mem_homes_iff s rfl) ?_
  rw [at?_put _ (by simp), Set.mem_insert_iff]
  split
  · rename_i he
    simp [home_eq_iff.1 he]
  · rename_i hne
    rw [or_iff_right (mt home_eq_iff.2 hne)]
    rfl

/-- A directory for a diagram is removed. -/
lemma homes_erase_home (s : OnDisk) (l : Location) (stem : String) :
    homes { s with disk := s.disk.erase (s.rootPlace ++ [l.directory, stem]) } =
      s.homes \ {(l, stem)} := by
  ext q
  refine Iff.trans (mem_homes_iff s rfl) ?_
  rw [at?_erase _ (by simp), Set.mem_sdiff, Set.mem_singleton_iff]
  split
  · rename_i he
    simp [home_eq_iff.1 he]
  · rename_i hne
    rw [and_iff_left (mt home_eq_iff.2 hne)]
    rfl

/-- A document does not lie where the directory of a diagram would. -/
lemma home_ne (hlength : p.length = 3) (q : Location × String) :
    s.rootPlace ++ [q.1.directory, q.2] ≠ s.rootPlace ++ p := by
  intro he
  rw [← List.append_cancel_left he] at hlength
  exact absurd hlength (by simp)

lemma homes_put (s : OnDisk) (n : Node) (hlength : p.length = 3) :
    homes { s with disk := s.disk.put (s.rootPlace ++ p) n } = s.homes := by
  have hp : s.rootPlace ++ p ≠ [] :=
    Tidy.rootPlace_append_ne s (List.ne_nil_of_length_pos (by omega))
  ext q
  refine Iff.trans (mem_homes_iff s rfl) ?_
  rw [at?_put _ hp, if_neg (home_ne hlength q)]
  rfl

lemma homes_erase (s : OnDisk) (hlength : p.length = 3) :
    homes { s with disk := s.disk.erase (s.rootPlace ++ p) } = s.homes := by
  have hp : s.rootPlace ++ p ≠ [] :=
    Tidy.rootPlace_append_ne s (List.ne_nil_of_length_pos (by omega))
  ext q
  refine Iff.trans (mem_homes_iff s rfl) ?_
  rw [at?_erase _ hp, if_neg (home_ne hlength q)]
  rfl

end Homes

namespace Tidy

/-! ## Making the directory of a diagram -/

/-- Whatever its path, the directory of a diagram can be made if it is not there. -/
lemma exists_ensureDirectory (h : Tidy s) (hk : k.IsStorable)
    (hpath : s.disk.Onward path s.rootPlace [k.location.directory, k.stem]) :
    ∃ s', (ensureDirectory path).perform s = (.ok (), s') ∧
      Leaves s s.view (insert (k.location, k.stem) s.homes) s' := by
  have hlocate : s.disk.locate path =
      .ok (some (s.rootPlace ++ [k.location.directory, k.stem])) :=
    Onward.locate_eq [k.location.directory] hpath h.tree h.at?_rootPlace (h.location k.location)
  have hfile := h.not_file (p := [k.location.directory, k.stem]) (by simp)
  have hmake := ensureDirectory_of_locate hlocate hfile
  have hbecomes : Becomes s { s with disk := (s.disk.ensureDirectory path).2 } s.view :=
    .of_disk (ensureDirectory_extends path s.disk).becomes fun _ => rfl
  have hperform := perform_ensureDirectory path s
  rw [hmake] at hbecomes hperform
  refine ⟨_, hperform, hbecomes, ?_, ?_⟩
  · split
    · exact h.put (.home hk) (h.location k.location) fun _ => rfl
    · exact h
  · cases hat : s.disk.at? (s.rootPlace ++ [k.location.directory, k.stem]) with
    | none =>
      rw [if_pos rfl]
      exact homes_put_home s k.location k.stem
    | some n =>
      cases n with
      | file f => exact absurd hat (hfile f)
      | directory =>
        have hmem : (k.location, k.stem) ∈ s.homes := hat
        rw [if_neg (by simp), Set.insert_eq_of_mem hmem]

/-- Before a document is written its directory is made. -/
lemma exists_ensureParent (h : Tidy s) (hk : k.IsStorable) :
    ∃ s', (ensureParent (Layout.diagramPath s.root k)).perform s = (.ok (), s') ∧
      Leaves s s.view (insert (k.location, k.stem) s.homes) s' := by
  obtain ⟨q, hq, honward⟩ :=
    Onward.exists_parent [k.location.directory, k.stem] (h.onward_document hk) (by simp)
  simp only [ensureParent, hq]
  exact h.exists_ensureDirectory hk honward

/-! ## Writing -/

/-- A path in the directory of a diagram names a place there. -/
lemma locate_in_home (h : Tidy s) (hhome : (k.location, k.stem) ∈ s.homes) {name : String}
    (hpath : s.disk.Onward path s.rootPlace [k.location.directory, k.stem, name]) :
    s.disk.locate path = .ok (some (s.rootPlace ++ [k.location.directory, k.stem, name])) :=
  Onward.locate_eq [k.location.directory, k.stem] hpath h.tree h.at?_rootPlace hhome

/-- Beside a document there is nothing. -/
lemma at?_beside (h : Tidy s) (hk : k.IsStorable) :
    s.disk.at? (s.rootPlace ++ [k.location.directory, k.stem, Layout.besideName k.stem]) =
      none := by
  cases hat : s.disk.at?
      (s.rootPlace ++ [k.location.directory, k.stem, Layout.besideName k.stem]) with
  | none => rfl
  | some n =>
    have hname := (h.below _ _ (by simp) hat).eq_fileName
    rw [hk.besideName_eq, Key.fileName_eq] at hname
    exact absurd (congrArg String.toList hname) (by simp)

/-- Where a document lies or may lie there is no directory. -/
lemma not_directory (h : Tidy s) (k : Key) :
    s.disk.at? (s.rootPlace ++ [k.location.directory, k.stem, k.fileName]) ≠ some .directory := by
  intro hat
  obtain ⟨f, content, hf, -⟩ := (h.below _ _ (by simp) hat).exists_of_document
  exact absurd hf (by simp)

lemma endsWithSlash_beside (root : String) (hk : k.IsStorable) :
    Path.endsWithSlash (Path.withExtension (Layout.diagramPath root k) "tmp") = false := by
  rw [Layout.beside_eq hk.isSafe]
  exact Path.endsWithSlash_join hk.isEntryName_besideName.slash hk.isEntryName_besideName.ne_empty

/-- A document is written beside its place and renamed. -/
lemma exists_writeInHome (h : Tidy s) (now : Instant) (hk : k.IsStorable)
    (hhome : (k.location, k.stem) ∈ s.homes) (content : String) :
    let beside := Path.withExtension (Layout.diagramPath s.root k) "tmp"
    ∃ disk disk', s.disk.writeFile now beside (.text content) = .ok disk ∧
      disk.renameFile beside (Layout.diagramPath s.root k) = .ok disk' ∧
      Tidy { s with disk := disk' } ∧ homes { s with disk := disk' } = s.homes := by
  intro beside
  -- the places of the document and of the file beside it
  set p := s.rootPlace ++ [k.location.directory, k.stem, k.fileName] with hp
  set b := s.rootPlace ++ [k.location.directory, k.stem, Layout.besideName k.stem] with hb
  have hbne : b ≠ [] := rootPlace_append_ne s (by simp)
  have hpne : p ≠ [] := rootPlace_append_ne s (by simp)
  have hfree : s.disk.at? b = none := h.at?_beside hk
  have hbeside : s.disk.locate beside = .ok (some b) := h.locate_in_home hhome (h.onward_beside hk)
  have hpath : s.disk.locate (Layout.diagramPath s.root k) = .ok (some p) :=
    h.locate_in_home hhome (h.onward_document hk)
  have hpb : p ≠ b := by
    intro he
    have hname := List.append_cancel_left (hp.symm.trans (he.trans hb))
    simp only [List.cons.injEq, and_true, true_and] at hname
    rw [hk.besideName_eq, Key.fileName_eq] at hname
    exact absurd (congrArg String.toList hname) (by simp)
  set f : File := ⟨.text content, now, now⟩ with hf
  have hwrite : s.disk.writeFile now beside (.text content) = .ok (s.disk.put b (.file f)) :=
    writeFile_eq_ok_iff.2 ⟨b, f, hbeside, endsWithSlash_beside s.root hk, by simp [hfree],
      by simp [hfree, hf], rfl⟩
  have hkeep := (writeFile_becomes hwrite).toKeepsDirectories
  have hfind : (s.disk.put b (.file f)).find beside = .ok (b, .file f) :=
    find_of_locate (locate_mono hkeep hbeside) (by rw [at?_put _ hbne, if_pos rfl]) fun hslash => by
      rw [endsWithSlash_beside s.root hk] at hslash
      exact absurd hslash (by simp)
  have hrename : (s.disk.put b (.file f)).renameFile beside (Layout.diagramPath s.root k) =
      .ok (((s.disk.put b (.file f)).erase b).put p (.file f)) := by
    refine renameFile_eq_ok_iff.2 ⟨b, f, p, hfind, locate_mono hkeep hpath,
      Layout.endsWithSlash_diagramPath hk.isSafe, ?_, rfl⟩
    rw [at?_put _ hbne, if_neg hpb]
    exact h.not_directory k
  refine ⟨_, _, hwrite, hrename, ?_, ?_⟩
  -- the file beside the document comes and goes
  · refine (h.put (.document hk (f := f) rfl) hhome fun hdir => absurd hdir (h.not_directory k)).congr
      rfl (fun q => ?_) (((h.once.put _ _).erase _).put _ _)
    rw [at?_put _ hpne, at?_put _ hpne, at?_erase _ hbne, at?_put _ hbne]
    split
    · rfl
    · split
      · rename_i hq
        rw [hq, hfree]
      · rfl
  · ext q
    refine Iff.trans (mem_homes_iff s rfl) ?_
    rw [at?_put _ hpne, if_neg (home_ne rfl q), at?_erase _ hbne,
      if_neg (home_ne rfl q), at?_put _ hbne, if_neg (home_ne rfl q)]
    rfl

/-- Writing a diagram gives it its document. -/
theorem leaves_write (h : Tidy s) (now : Instant) (hk : d.key.IsStorable) :
    ∃ s', (write now d).perform s = (.ok (), s') ∧
      Leaves s (Function.update s.view (d.key.location, d.key.stem) (some (.text d.content)))
        (insert (d.key.location, d.key.stem) s.homes) s' := by
  obtain ⟨s₁, hmake, hleaves⟩ := h.exists_ensureParent hk
  have hhome : (d.key.location, d.key.stem) ∈ s₁.homes := hleaves.homes ▸ Set.mem_insert _ _
  obtain ⟨disk, disk', hwrite, hrename, htidy, hhomes⟩ :=
    hleaves.tidy.exists_writeInHome now hk hhome d.content
  rw [hleaves.root] at hwrite hrename
  have hperform : (write now d).perform s = (.ok (), { s₁ with disk := disk' }) := by
    simp only [write, Action.perform_bind, Action.perform_ask,
      Layout.checkedPath_eq_ok_iff.2 ⟨hk.isSafe, rfl⟩, hmake, perform_change, hwrite, hrename]
  rcases write_cases now d s with ⟨s', hs', -, -, -, hbecomes⟩ | ⟨failure, s', hs', -⟩
  · obtain rfl := (Prod.mk.inj (hperform.symm.trans hs')).2
    exact ⟨_, hperform, hbecomes, htidy, hhomes.trans hleaves.homes⟩
  · exact absurd (hperform.symm.trans hs') (by simp)

/-! ## Deleting -/

/-- The directory of a diagram goes when its document is gone. -/
lemma exists_removeEmptyParent (h : Tidy s) (hk : k.IsStorable)
    (hhome : (k.location, k.stem) ∈ s.homes) (hgone : s.view (k.location, k.stem) = none) :
    ∃ s', (removeEmptyParent (Layout.diagramPath s.root k)).perform s = (.ok (), s') ∧
      Tidy s' ∧ s'.homes = s.homes \ {(k.location, k.stem)} := by
  obtain ⟨q, hq, honward⟩ :=
    Onward.exists_parent [k.location.directory, k.stem] (h.onward_document hk) (by simp)
  have hfind : s.disk.find q = .ok (s.rootPlace ++ [k.location.directory, k.stem], .directory) :=
    honward.find_eq h.tree h.at?_rootPlace hhome fun _ => rfl
  -- nothing else could be in it
  have hempty (name : String) :
      s.disk.at? (s.rootPlace ++ [k.location.directory, k.stem] ++ [name]) = none := by
    rw [List.append_assoc]
    cases hat : s.disk.at? (s.rootPlace ++ ([k.location.directory, k.stem] ++ [name])) with
    | none => rfl
    | some n =>
      rw [(h.below _ _ (by simp) hat).eq_fileName] at hat
      exact absurd (hat.symm.trans (h.at?_eq_none hk hgone)) (by simp)
  have hperform := perform_removeEmptyParent hq hfind (rootPlace_append_ne s (by simp))
  rw [if_pos (children_eq_nil_iff.2 hempty)] at hperform
  exact ⟨_, hperform, h.erase (by simp) hempty, homes_erase_home s k.location k.stem⟩

/-- The place of a file may be given up. -/
lemma eraseFile (h : Tidy s) {f : File} (hlength : 2 ≤ p.length)
    (hf : s.disk.at? (s.rootPlace ++ p) = some (.file f)) :
    Tidy { s with disk := s.disk.erase (s.rootPlace ++ p) } :=
  h.erase hlength (h.tree.at?_below_file hf)

/-- Deleting takes the document of a diagram away. -/
theorem leaves_delete (h : Tidy s) (hk : k.IsStorable) {c : Contents}
    (hc : s.view (k.location, k.stem) = some c) :
    ∃ s', (delete k).perform s = (.ok (), s') ∧
      Leaves s (Function.update s.view (k.location, k.stem) none)
        (s.homes \ {(k.location, k.stem)}) s' := by
  obtain ⟨f, content, -, -, hat, hhome⟩ := h.exists_at? hk hc
  set p := s.rootPlace ++ [k.location.directory, k.stem, k.fileName] with hp
  have hremove : s.disk.removeFile (Layout.diagramPath s.root k) = .ok (s.disk.erase p) :=
    removeFile_eq_ok_iff.2 ⟨p, f, h.locate_in_home hhome (h.onward_document hk), hat,
      Layout.endsWithSlash_diagramPath hk.isSafe, rfl⟩
  have hgone : Tidy { s with disk := s.disk.erase p } := h.eraseFile (by simp) hat
  have hhomes : homes { s with disk := s.disk.erase p } = s.homes := homes_erase s (by simp)
  have hfree : view { s with disk := s.disk.erase p } (k.location, k.stem) = none := by
    rw [view_eq hk]
    exact (fileAt?_erase (rootPlace_append_ne s (by simp)) _).trans (if_pos rfl)
  obtain ⟨s', hempty, htidy, hleft⟩ := hgone.exists_removeEmptyParent hk (hhomes ▸ hhome) hfree
  have hperform : (delete k).perform s = (.ok (), s') := by
    simp only [delete, Action.perform_bind, Action.perform_ask, Action.perform_of,
      Layout.checkedPath_eq_ok_iff.2 ⟨hk.isSafe, rfl⟩, hremove]
    exact hempty
  rcases delete_cases k s with ⟨s'', hs'', -, -, -, hbecomes⟩ | ⟨failure, hs'⟩
  · obtain rfl := (Prod.mk.inj (hperform.symm.trans hs'')).2
    exact ⟨_, hperform, hbecomes, htidy, hhomes ▸ hleft⟩
  · exact absurd (hperform.symm.trans hs') (by simp)

/-- What is not there is not deleted. -/
theorem delete_eq_notFound (h : Tidy s) (hk : k.IsStorable)
    (hnone : s.view (k.location, k.stem) = none) :
    (delete k).perform s = (.error (.notFound k), s) := by
  have hremove : s.disk.removeFile (Layout.diagramPath s.root k) = .error .notFound := by
    cases hhome : s.disk.at? (s.rootPlace ++ [k.location.directory, k.stem]) with
    | none =>
      -- there is not even a directory
      have hlocate : s.disk.locate (Layout.diagramPath s.root k) = .error .notFound :=
        Onward.locate_eq_notFound [k.location.directory, k.stem] (h.onward_document hk)
          h.at?_rootPlace (h.not_file_before (by simp)) hhome
      simp [removeFile, hlocate, bind, Except.bind]
    | some n =>
      cases n with
      | file f => exact absurd hhome (h.not_file (by simp) f)
      | directory =>
        simp [removeFile, h.locate_in_home hhome (h.onward_document hk), h.at?_eq_none hk hnone,
          bind, Except.bind]
  simp only [delete, Action.perform_bind, Action.perform_ask, Action.perform_of,
    Layout.checkedPath_eq_ok_iff.2 ⟨hk.isSafe, rfl⟩, hremove, readFailure]

/-! ## Moving -/

/-- The document of a diagram is renamed into the directory of another one. -/
lemma exists_renameFile (h : Tidy s) (hk : k.IsStorable) (hj : j.IsStorable)
    (hhome : (j.location, j.stem) ∈ s.homes) {c : Contents}
    (hc : s.view (k.location, k.stem) = some c) (hnone : s.view (j.location, j.stem) = none) :
    ∃ disk, s.disk.renameFile (Layout.diagramPath s.root k) (Layout.diagramPath s.root j) =
      .ok disk ∧ Tidy { s with disk } ∧ homes { s with disk } = s.homes ∧
      (k.location, k.stem) ∈ s.homes ∧ view { s with disk } (k.location, k.stem) = none := by
  obtain ⟨f, content, -, hcontent, hat, hhomek⟩ := h.exists_at? hk hc
  set p := s.rootPlace ++ [k.location.directory, k.stem, k.fileName] with hp
  set t := s.rootPlace ++ [j.location.directory, j.stem, j.fileName] with ht
  have hpne : p ≠ [] := rootPlace_append_ne s (by simp)
  have htne : t ≠ [] := rootPlace_append_ne s (by simp)
  have hpt : p ≠ t := by
    intro he
    rw [view_eq hj, ← ht, ← he, fileAt?_eq_some_iff.2 ⟨f, hat, rfl⟩] at hnone
    exact absurd hnone (by simp)
  have hfree : (s.disk.erase p).at? t ≠ some .directory := by
    rw [at?_erase _ hpne, if_neg (Ne.symm hpt)]
    exact h.not_directory j
  -- the directories of the diagrams stay
  have herase : homes { s with disk := s.disk.erase p } = s.homes := homes_erase s (by simp)
  have hput := homes_put { s with disk := s.disk.erase p }
    (p := [j.location.directory, j.stem, j.fileName]) (.file f) rfl
  have hhomej : (j.location, j.stem) ∈ homes { s with disk := s.disk.erase p } := herase ▸ hhome
  refine ⟨_, renameFile_eq_ok_iff.2 ⟨p, f, t, h.find_document hk hat,
    h.locate_in_home hhome (h.onward_document hj), Layout.endsWithSlash_diagramPath hj.isSafe,
    h.not_directory j, rfl⟩, ?_, hput.trans herase, hhomek, ?_⟩
  · exact (h.eraseFile (by simp) hat).put (.document hj hcontent) hhomej fun hdir =>
      absurd hdir hfree
  · rw [view_eq hk]
    refine (fileAt?_put_file htne f p).trans ?_
    rw [if_neg hpt, fileAt?_erase hpne, if_pos rfl]

/-- Moving takes the document of a diagram to another location. -/
theorem leaves_move (h : Tidy s) {destination : Location} (hk : k.IsStorable)
    (hj : (k.relocate destination).IsStorable) {c : Contents}
    (hc : s.view (k.location, k.stem) = some c) (hnone : s.view (destination, k.stem) = none) :
    ∃ s', (move k.name k.version k.location destination).perform s = (.ok (), s') ∧
      Leaves s (Function.update (Function.update s.view (k.location, k.stem) none)
        (destination, k.stem) (some c))
        (insert (destination, k.stem) s.homes \ {(k.location, k.stem)}) s' := by
  have hfile : s.disk.isFile (Layout.diagramPath s.root k) = true := by
    rw [h.isFile_eq hk, hc]
    rfl
  have hfree : s.disk.contains (Layout.diagramPath s.root (k.relocate destination)) = false := by
    rw [Disk.contains, h.find_eq_notFound hj hnone]
    rfl
  obtain ⟨⟨root, disk₁⟩, hmake, hleaves⟩ := h.exists_ensureParent hj
  obtain rfl : root = s.root := hleaves.root
  obtain ⟨disk, hrename, htidy, hstay, hhome, hgone⟩ :=
    hleaves.tidy.exists_renameFile hk hj (hleaves.homes ▸ Set.mem_insert _ _)
      (by rw [hleaves.view, hc]) (by rw [hleaves.view]; exact hnone)
  obtain ⟨s', hempty, htidy', hleft⟩ := htidy.exists_removeEmptyParent hk (hstay ▸ hhome) hgone
  have hperform : (move k.name k.version k.location destination).perform s = (.ok (), s') := by
    rw [← hempty]
    simp only [move, Action.perform_bind, Action.perform_ask,
      Layout.checkedPath_eq_ok_iff.2 ⟨hk.isSafe, rfl⟩,
      Layout.checkedPath_eq_ok_iff.2 ⟨hj.isSafe, rfl⟩, hfile, hfree, if_true,
      Bool.false_eq_true, if_false, hmake, perform_change, hrename]
  rcases move_cases k destination s h.tree with
    ⟨s'', hs'', -, -, -, -, -, hbecomes⟩ | ⟨failure, s'', hs'', -⟩
  · obtain rfl := (Prod.mk.inj (hperform.symm.trans hs'')).2
    rw [hc] at hbecomes
    rw [hstay, hleaves.homes] at hleft
    exact ⟨_, hperform, hbecomes, htidy', hleft⟩
  · exact absurd (hperform.symm.trans hs'') (by simp)

/-! ## Listing -/

/-- The key of an admissible diagram is read off its stem. -/
lemma keyForStem?_stem (hk : k.IsAdmissible) : keyForStem? k.location k.stem = some k := by
  by_cases hl : k.location = .nested
  · rw [hl, keyForStem?, Key.stem_eq_name hk.wellNamed hl]
    obtain ⟨name, version, location⟩ := k
    rw [Key.nested, ← hl, ← Key.version_eq_empty hk.wellNamed hl]
  · exact (keyForStem?_eq_some_iff hl).2 ⟨hk.split?_stem hl, rfl⟩

/-- The key that is read off the directory of a diagram may be another one, but it leads to the same
directory. -/
lemma of_keyForStem? (hj : j.IsStorable) (hkey : keyForStem? j.location j.stem = some k) :
    k.IsSafe ∧ k.location = j.location ∧ k.stem = j.stem := by
  by_cases hl : j.location = .nested
  · obtain ⟨name, version, location⟩ := j
    obtain rfl : location = .nested := hl
    obtain rfl : version = "" := Key.version_eq_empty hj.wellNamed rfl
    rw [keyForStem?, Key.stem_eq_name hj.wellNamed rfl, Option.some.injEq] at hkey
    subst hkey
    exact ⟨hj.isSafe, rfl, rfl⟩
  · obtain ⟨i, hi, hsafe, hlocation, hstem⟩ :=
      exists_key_of_stem (Key.isIdentifier_name hj.wellNamed)
        (Key.isVersion_version hj.wellNamed hl) hl hj.isSafe
    obtain rfl := Option.some.inj (hi.symm.trans hkey)
    exact ⟨hsafe, hlocation, hstem⟩

/-- In the directory of a location lie the directories of its diagrams. -/
lemma exists_stem_of_mem_children (h : Tidy s) {name : String} {n : Node}
    (hmem : (name, n) ∈ s.disk.children (s.rootPlace ++ [l.directory])) :
    ∃ j : Key, j.IsStorable ∧ j.location = l ∧ j.stem = name := by
  obtain ⟨n, hn⟩ := exists_at?_of_mem_children hmem
  rw [List.append_assoc] at hn
  have hbelongs : Belongs [l.directory, name] n := h.below _ _ (by simp) hn
  generalize hplace : [l.directory, name] = place at hbelongs
  cases hbelongs with
  | location l => simp at hplace
  | document => simp at hplace
  | @home j hj =>
    simp only [List.cons.injEq, and_true] at hplace
    exact ⟨j, hj, (Layout.directory_injective hplace.1).symm, hplace.2.symm⟩

/-- So their names are texts. -/
lemma isText_of_mem_children (h : Tidy s) {name : String} {n : Node}
    (hmem : (name, n) ∈ s.disk.children (s.rootPlace ++ [l.directory])) : IsText name := by
  obtain ⟨j, hj, -, rfl⟩ := h.exists_stem_of_mem_children hmem
  exact hj.isEntryName_stem.nul

lemma of_mem_children (h : Tidy s) {name : String} {n : Node}
    (hmem : (name, n) ∈ s.disk.children (s.rootPlace ++ [l.directory]))
    (hkey : keyForStem? l (readName name) = some k) :
    k.IsSafe ∧ k.location = l ∧ k.stem = name := by
  rw [readName_of_isText (h.isText_of_mem_children hmem)] at hkey
  obtain ⟨j, hj, rfl, rfl⟩ := h.exists_stem_of_mem_children hmem
  exact of_keyForStem? hj hkey

/-- The keys of a listing are those of the diagrams of the location. -/
lemma mem_keysAmong_children_iff (h : Tidy s) (honly : OnlyAdmissible s.view) :
    k ∈ s.keysAmong l (s.disk.children (s.rootPlace ++ [l.directory])) ↔
      k.IsAdmissible ∧ k.location = l ∧ (s.view (k.location, k.stem)).isSome = true := by
  rw [mem_keysAmong_iff]
  constructor
  · rintro ⟨⟨name, hmem, hkey⟩, hfile⟩
    obtain ⟨hsafe, rfl, rfl⟩ := h.of_mem_children hmem hkey
    rw [readName_of_isText (h.isText_of_mem_children hmem)] at hkey
    have hsome := view_of_isFile hsafe hfile
    obtain ⟨c, hc⟩ := Option.isSome_iff_exists.1 hsome
    -- the file belongs to an admissible diagram, whose key is read off the directory
    obtain ⟨j, hj, hplace⟩ := honly _ c hc
    obtain ⟨hl, hstem'⟩ := Prod.mk.inj hplace
    have hread := keyForStem?_stem hj
    rw [hl, hstem', hkey, Option.some.injEq] at hread
    exact ⟨hread ▸ hj, rfl, hsome⟩
  · rintro ⟨hk, rfl, hsome⟩
    obtain ⟨c, hc⟩ := Option.isSome_iff_exists.1 hsome
    obtain ⟨-, -, -, -, -, hhome⟩ := h.exists_at? hk.isStorable hc
    rw [List.append_cons] at hhome
    have hread := readName_of_isText hk.isStorable.isEntryName_stem.nul
    exact ⟨⟨k.stem, mem_children_of_at? hhome, hread.symm ▸ keyForStem?_stem hk⟩,
      by rwa [h.isFile_eq hk.isStorable]⟩

lemma nodup_keysAmong_children (h : Tidy s) :
    (s.keysAmong l (s.disk.children (s.rootPlace ++ [l.directory]))).Nodup :=
  nodup_keysAmong (h.once.children [l.directory]) fun _ => h.isText_of_mem_children

/-- Where all diagrams are admissible a listing shows those of the location, each once and as it is
loaded. -/
theorem exists_list (h : Tidy s) (honly : OnlyAdmissible s.view) (l : Location) :
    ∃ ds, s.list l = .ok (sortByKey Diagram.key ds) ∧ (ds.map Diagram.key).Nodup ∧
      ∀ d, d ∈ ds ↔ d.key.IsAdmissible ∧ d.key.location = l ∧ s.load d.key = .ok d := by
  have hfind : s.disk.find (Layout.locationDirectory s.root l) =
      .ok (s.rootPlace ++ [l.directory], .directory) :=
    (h.onward_location l).find_eq h.tree h.at?_rootPlace (h.location l) fun _ => rfl
  rw [list_eq hfind]
  cases hload : (s.keysAmong l (s.disk.children (s.rootPlace ++ [l.directory]))).mapM s.load with
  | error failure =>
    -- whatever is listed can be loaded
    obtain ⟨k, hk, hfailure⟩ := exists_of_mapM_error hload
    obtain ⟨hadmissible, -, hsome⟩ := (h.mem_keysAmong_children_iff honly).1 hk
    obtain ⟨c, hc⟩ := Option.isSome_iff_exists.1 hsome
    obtain ⟨content, created, updated, -, hok⟩ := h.exists_load hadmissible.isStorable hc
    exact absurd (hfailure.symm.trans hok) (by simp)
  | ok ds =>
    refine ⟨ds, rfl, by rw [keys_of_mapM_load hload]; exact h.nodup_keysAmong_children, fun d => ?_⟩
    rw [mem_of_mapM hload]
    constructor
    · rintro ⟨k, hk, hd⟩
      obtain rfl := key_of_load hd
      obtain ⟨hadmissible, hl, -⟩ := (h.mem_keysAmong_children_iff honly).1 hk
      exact ⟨hadmissible, hl, hd⟩
    · rintro ⟨hk, hl, hd⟩
      obtain ⟨-, p, f, hdocument, -, -⟩ := load_eq_ok_iff.1 hd
      have hfile := isFile_iff.2 ⟨p, f, hdocument⟩
      rw [h.isFile_eq hk.isStorable] at hfile
      exact ⟨d.key, (h.mem_keysAmong_children_iff honly).2 ⟨hk, hl, hfile⟩, hd⟩

end Tidy

end DiagramRegistry.OnDisk
