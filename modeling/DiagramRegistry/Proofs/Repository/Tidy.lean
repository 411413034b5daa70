import DiagramRegistry.Proofs.Disk.Onward
import DiagramRegistry.Proofs.Identity.Storable
import DiagramRegistry.Proofs.Repository.Listing

/-
# Tidy repositories

A repository on disk is tidy when nothing lies below its root but the directories of the
locations, in them the directories of diagrams whose keys can be stored, and in these the
documents of the diagrams.  Then nothing can stand in the way of an operation on such a diagram,
and what a question about the diagram is answered depends only on whether its document is there.

* `OnDisk.Tidy`: the invariant;
* `OnDisk.Tidy.of_disk`, `OnDisk.Tidy.put`, `OnDisk.Tidy.erase`: changes that keep it;
* `OnDisk.Tidy.exists_load`, `OnDisk.Tidy.load_eq_notFound`, `OnDisk.Tidy.contains_eq`: the answers.
-/
namespace DiagramRegistry

open Disk

/-! ## Names -/

lemma Location.isEntryName_directory (l : Location) : IsEntryName l.directory := by
  cases l <;> exact ⟨by decide, by decide, by decide, by decide, by decide, by decide⟩

namespace Key.IsStorable

variable {k : Key}

lemma isEntryName_stem (hk : k.IsStorable) : IsEntryName k.stem :=
  ⟨hk.isSafe.stem_ne_dots.1, hk.isSafe.stem_ne_dots.2, Nat.le_trans hk.short (by decide),
    hk.isSafe.not_mem_stem, not_mem_stem hk.wellNamed (by decide), hk.stem_ne_empty⟩

/-- With a short extension the stem is still the name of an entry. -/
lemma isEntryName_append (hk : k.IsStorable) {extension : String}
    (hshort : extension.utf8ByteSize ≤ 5) (hlong : 3 ≤ extension.toList.length)
    (hslash : '/' ∉ extension.toList) (hnul : '\x00' ∉ extension.toList) :
    IsEntryName (k.stem ++ extension) := by
  have hlength (t : String) (ht : t.toList.length < 3) : k.stem ++ extension ≠ t := by
    rintro rfl
    rw [String.toList_append, List.length_append] at ht
    omega
  have hsize := hk.short
  refine ⟨hlength _ (by decide), hlength _ (by decide), ?_, ?_, ?_, hlength _ (by decide)⟩
  · rw [String.utf8ByteSize_append, maxName]
    omega
  · rw [String.toList_append, List.mem_append, not_or]
    exact ⟨hk.isEntryName_stem.slash, hslash⟩
  · rw [String.toList_append, List.mem_append, not_or]
    exact ⟨hk.isEntryName_stem.nul, hnul⟩

lemma isEntryName_fileName (hk : k.IsStorable) : IsEntryName k.fileName := by
  rw [Key.fileName_eq]
  exact hk.isEntryName_append (by decide) (by decide) (by decide) (by decide)

lemma besideName_eq (hk : k.IsStorable) : Layout.besideName k.stem = k.stem ++ ".tmp" := by
  rw [Layout.besideName, if_neg hk.stem_ne_empty]

lemma isEntryName_besideName (hk : k.IsStorable) : IsEntryName (Layout.besideName k.stem) := by
  rw [hk.besideName_eq]
  exact hk.isEntryName_append (by decide) (by decide) (by decide) (by decide)

/-- The place of a diagram, from the root. -/
lemma place_eq (hk : k.IsStorable) :
    Layout.place k.location k.stem = [k.location.directory, k.stem, k.fileName] := by
  rw [Layout.place, if_neg hk.stem_ne_empty, Key.fileName_eq]
  rfl

end Key.IsStorable

namespace OnDisk

variable {s s' : OnDisk} {k j : Key} {p q : Place} {n : Node} {l : Location} {disk : Disk}

/-! ## The invariant -/

/-- The place of the root. -/
def rootPlace (s : OnDisk) : Place := s.disk.placeOf s.root

/-- What may lie at a place, given from the root. -/
inductive Belongs : Place → Node → Prop where
  /-- The directory of a location. -/
  | location (l : Location) : Belongs [l.directory] .directory
  /-- The directory of a diagram. -/
  | home {k : Key} (hk : k.IsStorable) : Belongs [k.location.directory, k.stem] .directory
  /-- The document of a diagram. -/
  | document {k : Key} (hk : k.IsStorable) {f : File} {content : String}
      (hf : f.contents = .text content) :
      Belongs [k.location.directory, k.stem, k.fileName] (.file f)

/-- The root is found, the directories of the locations are there, and what else lies below the
root belongs there. -/
structure Tidy (s : OnDisk) : Prop where
  /-- The disk is a tree. -/
  tree : s.disk.IsTree
  /-- The path of the root can be followed. -/
  way : s.disk.walk (s.disk.origin s.root) (Path.segments s.root) = .ok s.rootPlace
  /-- It does not lead through what lies below the root. -/
  above : s.disk.StaysAbove s.root
  /-- It has no NUL character in it. -/
  nul : '\x00' ∉ s.root.toList
  /-- It leaves room for the paths of diagrams. -/
  short : s.root.utf8ByteSize + 516 ≤ maxPath
  /-- The directories of the locations are there. -/
  location : ∀ l : Location, s.disk.at? (s.rootPlace ++ [l.directory]) = some .directory
  /-- What lies below the root belongs there. -/
  below : ∀ p n, p ≠ [] → s.disk.at? (s.rootPlace ++ p) = some n → Belongs p n
  /-- Every place below the root is taken once. -/
  once : s.disk.OnceBelow s.rootPlace

/-- Files lie in the directories of diagrams only. -/
lemma Belongs.length_of_file {f : File} (h : Belongs p (.file f)) : p.length = 3 := by
  cases h
  rfl

/-- What lies where the document of a diagram lies is a document. -/
lemma Belongs.exists_of_document {name directory stem : String}
    (h : Belongs [directory, stem, name] n) :
    ∃ f content, n = .file f ∧ f.contents = .text content := by
  cases h with
  | document hk hf => exact ⟨_, _, rfl, hf⟩

/-- In the directory of a diagram lies its document and nothing else. -/
lemma Belongs.eq_fileName {name : String}
    (h : Belongs [k.location.directory, k.stem, name] n) : name = k.fileName := by
  generalize hp : [k.location.directory, k.stem, name] = p at h
  cases h with
  | location l => simp at hp
  | home hk' => simp at hp
  | document hk' hf =>
    simp only [List.cons.injEq, and_true] at hp
    rw [hp.2.2, Key.fileName_eq, Key.fileName_eq, hp.2.1]

namespace Tidy

/-- The root is a directory. -/
lemma at?_rootPlace (h : Tidy s) : s.disk.at? s.rootPlace = some .directory :=
  isTree_iff.1 h.tree _ _ _ (h.location .staging)

lemma rootPlace_append_ne (s : OnDisk) (hp : p ≠ []) : s.rootPlace ++ p ≠ [] := by simp [hp]

/-- No file stands on the way to a document. -/
lemma not_file (h : Tidy s) (hlength : p.length < 3) (f : File) :
    s.disk.at? (s.rootPlace ++ p) ≠ some (.file f) := by
  intro hf
  cases p with
  | nil =>
    rw [List.append_nil, h.at?_rootPlace] at hf
    exact absurd hf (by simp)
  | cons name rest =>
    have := (h.below _ _ (by simp) hf).length_of_file
    omega

/-! ## Paths of a tidy repository -/

lemma utf8ByteSize_locationDirectory_le (root : String) (l : Location) :
    (Layout.locationDirectory root l).utf8ByteSize ≤ root.utf8ByteSize + 9 := by
  have hdirectory : l.directory.utf8ByteSize ≤ 8 := by cases l <;> decide
  have hjoin : (Path.join root l.directory).utf8ByteSize ≤ _ :=
    Path.utf8ByteSize_join_le l.isEntryName_directory.slash
  unfold Layout.locationDirectory
  omega

lemma utf8ByteSize_diagramDirectory_le (root : String) (hk : k.IsStorable) :
    (Layout.diagramDirectory root k).utf8ByteSize ≤ root.utf8ByteSize + 260 := by
  have hdirectory := utf8ByteSize_locationDirectory_le root k.location
  have hshort := hk.short
  have hjoin : (Path.join (Layout.locationDirectory root k.location) k.stem).utf8ByteSize ≤ _ :=
    Path.utf8ByteSize_join_le hk.isEntryName_stem.slash
  unfold Layout.diagramDirectory
  omega

lemma onward_location (h : Tidy s) (l : Location) :
    s.disk.Onward (Layout.locationDirectory s.root l) s.rootPlace [l.directory] := by
  have hdirectory : l.directory.utf8ByteSize ≤ 8 := by cases l <;> decide
  have hshort := h.short
  exact onward_join (fun _ hs => absurd hs (by simp)) l.isEntryName_directory
    ⟨_, (List.append_nil _).symm, h.way⟩ h.nul (by omega)

lemma onward_home (h : Tidy s) (hk : k.IsStorable) :
    s.disk.Onward (Layout.diagramDirectory s.root k) s.rootPlace
      [k.location.directory, k.stem] := by
  have hdirectory := utf8ByteSize_locationDirectory_le s.root k.location
  have hshort := hk.short
  have hroom := h.short
  exact (h.onward_location k.location).join hk.isEntryName_stem (by omega)

/-- A path in the directory of a diagram. -/
lemma onward_in_home (h : Tidy s) (hk : k.IsStorable) {name : String} (hname : IsEntryName name) :
    s.disk.Onward (Path.join (Layout.diagramDirectory s.root k) name) s.rootPlace
      [k.location.directory, k.stem, name] := by
  have hdirectory := utf8ByteSize_diagramDirectory_le s.root hk
  have hlong : name.utf8ByteSize ≤ 255 := hname.short
  have hroom := h.short
  exact (h.onward_home hk).join hname (by omega)

lemma onward_document (h : Tidy s) (hk : k.IsStorable) :
    s.disk.Onward (Layout.diagramPath s.root k) s.rootPlace
      [k.location.directory, k.stem, k.fileName] :=
  h.onward_in_home hk hk.isEntryName_fileName

lemma onward_beside (h : Tidy s) (hk : k.IsStorable) :
    s.disk.Onward (Path.withExtension (Layout.diagramPath s.root k) "tmp") s.rootPlace
      [k.location.directory, k.stem, Layout.besideName k.stem] := by
  rw [Layout.beside_eq hk.isSafe]
  exact h.onward_in_home hk hk.isEntryName_besideName

/-! ## Questions -/

/-- The file of a diagram, if it is there. -/
lemma view_eq (hk : k.IsStorable) :
    s.view (k.location, k.stem) =
      s.disk.fileAt? (s.rootPlace ++ [k.location.directory, k.stem, k.fileName]) := by
  rw [view, hk.place_eq]
  rfl

/-- Where no file is, there is nothing. -/
lemma at?_eq_none (h : Tidy s) (hk : k.IsStorable) (hnone : s.view (k.location, k.stem) = none) :
    s.disk.at? (s.rootPlace ++ [k.location.directory, k.stem, k.fileName]) = none := by
  rw [view_eq hk] at hnone
  cases hat : s.disk.at? (s.rootPlace ++ [k.location.directory, k.stem, k.fileName]) with
  | none => rfl
  | some n =>
    obtain ⟨f, content, rfl, -⟩ := (h.below _ _ (by simp) hat).exists_of_document
    rw [fileAt?_eq_some_iff.2 ⟨f, hat, rfl⟩] at hnone
    exact absurd hnone (by simp)

/-- A file is a document, in a directory of its own. -/
lemma exists_at? (h : Tidy s) (hk : k.IsStorable) {c : Contents}
    (hc : s.view (k.location, k.stem) = some c) :
    ∃ f content, c = .text content ∧ f.contents = .text content ∧
      s.disk.at? (s.rootPlace ++ [k.location.directory, k.stem, k.fileName]) = some (.file f) ∧
      s.disk.at? (s.rootPlace ++ [k.location.directory, k.stem]) = some .directory := by
  rw [view_eq hk] at hc
  obtain ⟨f, hat, rfl⟩ := fileAt?_eq_some_iff.1 hc
  obtain ⟨f', content, hf', hcontent⟩ := (h.below _ _ (by simp) hat).exists_of_document
  obtain rfl := Node.file.inj hf'
  have hhome : s.disk.at? (s.rootPlace ++ [k.location.directory, k.stem]) = some .directory := by
    refine isTree_iff.1 h.tree _ k.fileName (.file f) ?_
    rw [List.append_assoc]
    exact hat
  exact ⟨f, content, hcontent, hcontent, hat, hhome⟩

lemma find_document (h : Tidy s) (hk : k.IsStorable) {f : File}
    (hf : s.disk.at? (s.rootPlace ++ [k.location.directory, k.stem, k.fileName]) =
      some (.file f)) :
    s.disk.find (Layout.diagramPath s.root k) =
      .ok (s.rootPlace ++ [k.location.directory, k.stem, k.fileName], .file f) := by
  refine (h.onward_document hk).find_eq h.tree h.at?_rootPlace hf fun hslash => ?_
  rw [Layout.endsWithSlash_diagramPath hk.isSafe] at hslash
  exact absurd hslash (by simp)

/-- No file stands on the way of a path in a tidy repository. -/
lemma not_file_before (h : Tidy s) {names : List String} (hlength : names.length ≤ 3)
    (init : List String) (name : String) (hinit : init ++ [name] <+: names)
    (hne : init ++ [name] ≠ names) (f : File) :
    s.disk.at? (s.rootPlace ++ (init ++ [name])) ≠ some (.file f) := by
  refine h.not_file ?_ f
  have hle := hinit.length_le
  rcases Nat.lt_or_eq_of_le hle with hlt | heq
  · omega
  · exact absurd (hinit.eq_of_length heq) hne

lemma find_eq_notFound (h : Tidy s) (hk : k.IsStorable)
    (hnone : s.view (k.location, k.stem) = none) :
    s.disk.find (Layout.diagramPath s.root k) = .error .notFound :=
  (h.onward_document hk).find_eq_notFound h.at?_rootPlace (h.not_file_before (by simp))
    (h.at?_eq_none hk hnone)

/-- A diagram with a document is loaded, with the times of its file. -/
lemma exists_load (h : Tidy s) (hk : k.IsStorable) {c : Contents}
    (hc : s.view (k.location, k.stem) = some c) :
    ∃ content created updated, c = .text content ∧
      s.load k = .ok ⟨k, content, [], created, updated⟩ := by
  obtain ⟨f, content, rfl, hcontent, hat, -⟩ := h.exists_at? hk hc
  exact ⟨content, f.created, f.modified, rfl,
    load_eq_ok_iff.2 ⟨hk.isSafe, _, f, h.find_document hk hat, hcontent, rfl⟩⟩

/-- A diagram without a document is not found. -/
lemma load_eq_notFound (h : Tidy s) (hk : k.IsStorable)
    (hnone : s.view (k.location, k.stem) = none) : s.load k = .error (.notFound k) := by
  simp [load, Layout.checkedPath_eq_ok_iff.2 ⟨hk.isSafe, rfl⟩, bind, Except.bind, readText,
    h.find_eq_notFound hk hnone, readFailure]

/-- A diagram exists when it has a document. -/
lemma isFile_eq (h : Tidy s) (hk : k.IsStorable) :
    s.disk.isFile (Layout.diagramPath s.root k) = (s.view (k.location, k.stem)).isSome := by
  cases hc : s.view (k.location, k.stem) with
  | none => simp [isFile, h.find_eq_notFound hk hc]
  | some c =>
    obtain ⟨f, content, -, -, hat, -⟩ := h.exists_at? hk hc
    simp [isFile, h.find_document hk hat]

lemma contains_eq (h : Tidy s) (hk : k.IsStorable) :
    s.contains k = .ok (s.view (k.location, k.stem)).isSome := by
  rw [contains, Layout.checkedPath_eq_ok_iff.2 ⟨hk.isSafe, rfl⟩, ← h.isFile_eq hk]
  rfl

/-! ## Changes -/

/-- A repository stays tidy when the disk is changed below the root and what lies there still
belongs there. -/
lemma of_disk (h : Tidy s) (hworking : disk.workingDirectory = s.disk.workingDirectory)
    (htree : disk.IsTree)
    (houtside : ∀ q, (∀ name rest, q ≠ s.rootPlace ++ name :: rest) → disk.at? q = s.disk.at? q)
    (hlocation : ∀ l : Location, disk.at? (s.rootPlace ++ [l.directory]) = some .directory)
    (hbelow : ∀ p n, p ≠ [] → disk.at? (s.rootPlace ++ p) = some n → Belongs p n)
    (honce : disk.OnceBelow s.rootPlace) : Tidy { s with disk } := by
  have hroot : rootPlace { s with disk } = s.rootPlace := placeOf_congr hworking s.root
  refine ⟨htree, ?_, ?_, h.nul, h.short, by rwa [hroot], by rwa [hroot], by rwa [hroot]⟩
  · rw [hroot, origin_congr hworking]
    refine walk_congr (fun init hinit => houtside _ fun name rest heq => ?_) h.way
    -- a place on the way that lies below the root would be the root itself
    have hsame := h.above init ((List.mem_inits _ _).2 hinit) (heq ▸ List.prefix_append _ _)
    exact absurd (heq.symm.trans hsame) (by simp [rootPlace])
  · exact (staysAbove_congr hworking _).2 h.above

/-- What belongs to a place may be put there, if no directory is replaced by a file. -/
lemma put (h : Tidy s) (hn : Belongs p n) (hparent : s.disk.at? (s.rootPlace ++ p.dropLast) =
      some .directory)
    (hkind : s.disk.at? (s.rootPlace ++ p) = some .directory → n = .directory) :
    Tidy { s with disk := s.disk.put (s.rootPlace ++ p) n } := by
  have hp : p ≠ [] := by
    rintro rfl
    cases hn
  have hne := rootPlace_append_ne s hp
  have hdrop : (s.rootPlace ++ p).dropLast = s.rootPlace ++ p.dropLast :=
    List.dropLast_append_of_ne_nil hp
  refine h.of_disk rfl (h.tree.put hne (by rwa [hdrop]) hkind) (fun q hq => ?_) (fun l => ?_)
    (fun q m hq hm => ?_) (h.once.put _ _)
  · obtain ⟨name, rest, rfl⟩ := List.exists_cons_of_ne_nil hp
    rw [at?_put _ hne, if_neg (hq name rest)]
  · rw [at?_put _ hne]
    split
    · rename_i he
      rw [hkind (he ▸ h.location l)]
    · exact h.location l
  · rw [at?_put _ hne] at hm
    split at hm
    · rename_i he
      rw [List.append_cancel_left he, ← Option.some.inj hm]
      exact hn
    · exact h.below q m hq hm

/-- What nothing lies in may be taken away, but for the directories of the locations. -/
lemma erase (h : Tidy s) (hlength : 2 ≤ p.length)
    (hleaf : ∀ name, s.disk.at? (s.rootPlace ++ p ++ [name]) = none) :
    Tidy { s with disk := s.disk.erase (s.rootPlace ++ p) } := by
  have hp : p ≠ [] := by
    rintro rfl
    exact absurd hlength (by simp)
  have hne := rootPlace_append_ne s hp
  refine h.of_disk rfl (h.tree.erase hne hleaf) (fun q hq => ?_) (fun l => ?_)
    (fun q m hq hm => ?_) (h.once.erase _)
  · obtain ⟨name, rest, rfl⟩ := List.exists_cons_of_ne_nil hp
    rw [at?_erase _ hne, if_neg (hq name rest)]
  · rw [at?_erase _ hne, if_neg, h.location l]
    intro he
    rw [← List.append_cancel_left he] at hlength
    exact absurd hlength (by simp)
  · rw [at?_erase _ hne] at hm
    split at hm
    · exact absurd hm (by simp)
    · exact h.below q m hq hm

/-- Only what is at the places counts. -/
lemma congr {disk' : Disk} (h : Tidy { s with disk })
    (hworking : disk'.workingDirectory = disk.workingDirectory)
    (hat : ∀ q, disk'.at? q = disk.at? q)
    (honce : disk'.OnceBelow (disk.placeOf s.root)) : Tidy { s with disk := disk' } := by
  refine of_disk (s := { s with disk }) h hworking ?_ (fun q _ => hat q) (fun l => ?_)
    (fun p n hp hn => ?_) honce
  · exact isTree_iff.2 fun p name n hn => (hat p).trans (isTree_iff.1 h.tree p name n
      ((hat _).symm.trans hn))
  · exact (hat _).trans (h.location l)
  · exact h.below p n hp ((hat _).symm.trans hn)

end Tidy

/-- For any safe key only a file at the place of the diagram can make the diagram exist. -/
lemma view_of_isFile (hk : k.IsSafe) (h : s.disk.isFile (Layout.diagramPath s.root k) = true) :
    (s.view (k.location, k.stem)).isSome = true := by
  obtain ⟨p, f, hfind⟩ := isFile_iff.1 h
  rw [← placed?_eq hk, placed?_of_find hfind]
  rfl

end OnDisk

end DiagramRegistry
