import DiagramRegistry.Proofs.Disk.Files
import DiagramRegistry.Repository.Layout

/-
# The places of diagrams

Below the root of a repository the file of a diagram has a place that is fixed by the location
and the stem of the diagram; the path of the file leads there from the place of the root.  A
document is first written beside that place, where no file of a diagram ever is.

* `Layout.place_injective`: the place determines location and stem;
* `Layout.components_diagramPath_eq`: the path of a diagram's file, behind the root;
* `Layout.placeOf_diagramPath`: the place that the path of a diagram's file names;
* `Layout.placeOf_beside_ne`: the place beside it is the place of no diagram.
-/
namespace DiagramRegistry

/-! ## Safe keys -/

/-- The name and the version of a key do not lead out of their directory. -/
structure Key.IsSafe (k : Key) : Prop where
  /-- The name has no separators and is neither a dot nor a double dot. -/
  name : '/' ∉ k.name.toList ∧ '\\' ∉ k.name.toList ∧ k.name ≠ "." ∧ k.name ≠ ".."
  /-- So has the version. -/
  version : '/' ∉ k.version.toList ∧ '\\' ∉ k.version.toList ∧ k.version ≠ "." ∧ k.version ≠ ".."

namespace Layout

variable {root path : String} {k : Key} {l l' : Location} {stem stem' : String} {d : Disk}

lemma ensureSafe_eq_ok_iff {value field : String} :
    ensureSafe value field = .ok () ↔
      '/' ∉ value.toList ∧ '\\' ∉ value.toList ∧ value ≠ "." ∧ value ≠ ".." := by
  unfold ensureSafe Path.unsafeSegment?
  by_cases hslash : '/' ∈ value.toList
  · simp [hslash]
  · by_cases hback : '\\' ∈ value.toList
    · simp [hslash, hback]
    · by_cases hdots : value = "." ∨ value = ".."
      · have hno : ¬ (value ≠ "." ∧ value ≠ "..") := by tauto
        simp [hslash, hback, hdots, hno]
      · have hyes : value ≠ "." ∧ value ≠ ".." := by tauto
        simp [hslash, hback, hyes]

/-- A key is accepted when it is safe. -/
lemma checkedPath_eq_ok_iff :
    checkedPath root k = .ok path ↔ k.IsSafe ∧ path = diagramPath root k := by
  unfold checkedPath
  cases hn : ensureSafe k.name "name" with
  | error e =>
    refine iff_of_false (by simp [bind, Except.bind]) fun ⟨h, _⟩ => ?_
    rw [ensureSafe_eq_ok_iff.2 h.name] at hn
    exact absurd hn (by simp)
  | ok u =>
    cases hv : ensureSafe k.version "version" with
    | error e =>
      refine iff_of_false (by simp [bind, Except.bind]) fun ⟨h, _⟩ => ?_
      rw [ensureSafe_eq_ok_iff.2 h.version] at hv
      exact absurd hv (by simp)
    | ok u' =>
      have hsafe : k.IsSafe := ⟨ensureSafe_eq_ok_iff.1 hn, ensureSafe_eq_ok_iff.1 hv⟩
      simp [bind, Except.bind, pure, Except.pure, hsafe, eq_comm]

end Layout

namespace Key

variable {k : Key}

lemma fileName_eq (k : Key) : k.fileName = k.stem ++ ".puml" := by
  simp [fileName, DiagramType.fileExtension, toString, String.append_assoc]

lemma IsSafe.not_mem_stem (h : k.IsSafe) : '/' ∉ k.stem.toList := by
  rw [stem, Stem.join]
  split
  · exact h.name.1
  · simp [toString, h.name.1, h.version.1]

/-- A key with a name has a stem. -/
lemma stem_ne_empty (h : k.name ≠ "") : k.stem ≠ "" := by
  rw [stem, Stem.join]
  split
  · exact h
  · intro hempty
    have := congrArg String.toList hempty
    simp [toString] at this

/-- A stem with a version has a hyphen, so it is not dots. -/
lemma IsSafe.stem_ne_dots (h : k.IsSafe) : k.stem ≠ "." ∧ k.stem ≠ ".." := by
  rw [stem, Stem.join]
  split
  · exact h.name.2.2
  · have hmem : '-' ∈ s!"{k.name}-{k.version}".toList := by simp [toString]
    constructor
    · intro he
      rw [he] at hmem
      exact absurd hmem (by decide)
    · intro he
      rw [he] at hmem
      exact absurd hmem (by decide)

lemma IsSafe.relocate (h : k.IsSafe) (l : Location) : (k.relocate l).IsSafe := ⟨h.name, h.version⟩

/-- Location and stem fix the path below the root. -/
lemma relativePath_congr {j : Key} (hl : k.location = j.location) (hs : k.stem = j.stem) :
    k.relativePath = j.relativePath := by
  rw [relativePath, relativePath, fileName_eq, fileName_eq, hl, hs]

end Key

namespace Layout

variable {root path : String} {k : Key} {l l' : Location} {stem stem' : String} {d : Disk}

/-! ## Places below the root -/

/-- The names that lead from the root to the file of a diagram. -/
def place (location : Location) (stem : String) : Place :=
  location.directory :: ((if stem = "" then [] else [stem]) ++ [stem ++ ".puml"])

lemma directory_injective (h : l.directory = l'.directory) : l = l' := by
  cases l <;> cases l' <;> first | rfl | exact absurd h (by decide)

lemma append_puml_injective (h : stem ++ ".puml" = stem' ++ ".puml") : stem = stem' := by
  have := congrArg String.toList h
  rw [String.toList_append, String.toList_append, List.append_left_inj] at this
  exact String.toList_inj.1 this

/-- The place determines location and stem. -/
theorem place_injective (h : place l stem = place l' stem') : l = l' ∧ stem = stem' := by
  obtain ⟨hl, hrest⟩ := List.cons.inj h
  refine ⟨directory_injective hl, append_puml_injective ?_⟩
  have hlast := congrArg List.getLast? hrest
  rw [List.getLast?_concat, List.getLast?_concat] at hlast
  exact Option.some.inj hlast

lemma getLast?_place (l : Location) (stem : String) :
    (place l stem).getLast? = some (stem ++ ".puml") := by
  rw [place, ← List.cons_append, List.getLast?_concat]

lemma not_mem_directory (l : Location) : '/' ∉ l.directory.toList := by
  cases l <;> decide

lemma directory_ne (l : Location) : l.directory ≠ "" ∧ l.directory ≠ "." ∧ l.directory ≠ ".." := by
  cases l <;> decide

/-- The name of a file of a diagram is an entry. -/
lemma append_puml_ne (t : String) (ht : t.toList.length < 5) : stem ++ ".puml" ≠ t := by
  intro h
  have hlen := congrArg (List.length ∘ String.toList) h
  have hpuml : ".puml".toList.length = 5 := by decide
  simp only [Function.comp_apply, String.toList_append, List.length_append, hpuml] at hlen
  omega

lemma locationDirectory_ne (root : String) (l : Location) : locationDirectory root l ≠ "" :=
  Path.join_ne_empty root (not_mem_directory l) (directory_ne l).1

lemma placeOf_locationDirectory (d : Disk) (root : String) (l : Location) :
    d.placeOf (locationDirectory root l) = d.placeOf root ++ [l.directory] :=
  Disk.placeOf_join (not_mem_directory l) (directory_ne l).1 (directory_ne l).2.1
    (directory_ne l).2.2

/-- The directory of a diagram, by its location and stem. -/
lemma segments_directory (root : String) (l : Location) (hslash : '/' ∉ stem.toList) :
    Path.segments (Path.join (locationDirectory root l) stem) =
      Path.segments root ++ l.directory :: (if stem = "" then [] else [stem]) := by
  have hl : Path.segments (locationDirectory root l) = Path.segments root ++ [l.directory] :=
    Path.segments_join (not_mem_directory l) (directory_ne l).1
  split
  · rename_i h
    rw [h, Path.segments_join_empty, hl]
  · rename_i h
    rw [Path.segments_join hslash h, hl, List.append_assoc]
    rfl

lemma not_mem_fileName (h : k.IsSafe) : '/' ∉ k.fileName.toList := by
  rw [Key.fileName_eq]
  simpa using h.not_mem_stem

lemma fileName_ne (t : String) (ht : t.toList.length < 5) : k.fileName ≠ t := by
  rw [Key.fileName_eq]
  exact append_puml_ne t ht

/-- The path of a file ends in the name of the file. -/
lemma segments_diagramPath_eq (root : String) (h : k.IsSafe) :
    Path.segments (diagramPath root k) =
      Path.segments (diagramDirectory root k) ++ [k.fileName] :=
  Path.segments_join (not_mem_fileName h) (fileName_ne "" (by decide))

lemma segments_diagramPath (h : k.IsSafe) :
    Path.segments (diagramPath root k) = Path.segments root ++ place k.location k.stem := by
  rw [segments_diagramPath_eq root h, diagramDirectory,
    segments_directory root k.location h.not_mem_stem, Key.fileName_eq, place]
  simp

/-- The path of a diagram's file goes on from the root by the names of its place. -/
lemma components_diagramPath_eq (root : String) (h : k.IsSafe) :
    Path.components (diagramPath root k) =
      Path.components root ++ (place k.location k.stem).map .entry := by
  obtain ⟨hne, hdot, hup⟩ := directory_ne k.location
  have hlocation : Path.components (locationDirectory root k.location) =
      Path.components root ++ [.entry k.location.directory] :=
    Path.components_join root (not_mem_directory _) hne hdot hup
  have hdirectory : Path.components (diagramDirectory root k) =
      Path.components (locationDirectory root k.location) ++
        (if k.stem = "" then [] else [k.stem]).map .entry := by
    rw [diagramDirectory]
    split
    · rename_i hempty
      rw [hempty, Path.components_join_empty, List.map_nil, List.append_nil]
    · rename_i hstem
      exact Path.components_join _ h.not_mem_stem hstem h.stem_ne_dots.1 h.stem_ne_dots.2
  rw [diagramPath, Path.components_join _ (not_mem_fileName h) (fileName_ne "" (by decide))
      (fileName_ne "." (by decide)) (fileName_ne ".." (by decide)), hdirectory, hlocation,
    Key.fileName_eq, place]
  simp

/-- The way from the root to the file goes down only. -/
lemma up_not_mem_place (h : k.IsSafe) : ".." ∉ place k.location k.stem := by
  rw [place, List.mem_cons, List.mem_append, List.mem_singleton, not_or, not_or]
  refine ⟨Ne.symm (directory_ne k.location).2.2, ?_, Ne.symm (append_puml_ne ".." (by decide))⟩
  split
  · simp
  · rw [List.mem_singleton]
    exact Ne.symm h.stem_ne_dots.2

/-- The path is long enough to have a directory. -/
lemma two_le_length_segments (h : k.IsSafe) :
    2 ≤ (Path.segments (diagramPath root k)).length := by
  rw [segments_diagramPath h, place]
  simp only [List.length_append, List.length_cons, List.length_nil]
  omega

lemma endsWithSlash_diagramPath (h : k.IsSafe) :
    Path.endsWithSlash (diagramPath root k) = false :=
  Path.endsWithSlash_join (not_mem_fileName h) (fileName_ne "" (by decide))

/-! ## The place of a diagram and the place beside it -/

/-- The place of the directory of a diagram. -/
lemma placeOf_diagramDirectory (h : k.IsSafe) :
    d.placeOf (diagramDirectory root k) =
      d.placeOf root ++ k.location.directory :: (if k.stem = "" then [] else [k.stem]) := by
  have hl : d.placeOf (locationDirectory root k.location) =
      d.placeOf root ++ [k.location.directory] := by
    obtain ⟨hne, hdot, hup⟩ := directory_ne k.location
    exact Disk.placeOf_join (not_mem_directory k.location) hne hdot hup
  rw [diagramDirectory]
  split
  · rename_i hempty
    rw [hempty, Disk.placeOf_join_empty, hl]
  · rename_i hne
    rw [Disk.placeOf_join h.not_mem_stem hne h.stem_ne_dots.1 h.stem_ne_dots.2, hl,
      List.append_assoc]
    rfl

/-- The file of a diagram is in the directory of the diagram. -/
lemma placeOf_diagramPath_eq (h : k.IsSafe) :
    d.placeOf (diagramPath root k) = d.placeOf (diagramDirectory root k) ++ [k.fileName] :=
  Disk.placeOf_join (not_mem_fileName h) (fileName_ne "" (by decide)) (fileName_ne "." (by decide))
    (fileName_ne ".." (by decide))

/-- Below the place of the root, the path of the file of a diagram leads to the diagram's
place. -/
theorem placeOf_diagramPath (h : k.IsSafe) :
    d.placeOf (diagramPath root k) = d.placeOf root ++ place k.location k.stem := by
  rw [placeOf_diagramPath_eq h, placeOf_diagramDirectory h, Key.fileName_eq, place]
  simp

/-- The name of the file in which a document is first written. -/
def besideName (stem : String) : String := (if stem = "" then ".puml" else stem) ++ ".tmp"

lemma stemOf_append_puml (stem : String) :
    Path.stemOf (stem ++ ".puml") = if stem = "" then ".puml" else stem := by
  have htoList : (stem ++ ".puml").toList = stem.toList ++ '.' :: "puml".toList := by
    rw [String.toList_append]
    rfl
  have hcut : Text.cutAtLast? '.' (stem ++ ".puml").toList = some (stem.toList, "puml".toList) := by
    rw [htoList]
    exact Path.cutAtLast?_append_cons (by decide)
  unfold Path.stemOf
  rw [hcut]
  cases hstem : stem.toList with
  | nil =>
    have hempty : stem = "" := String.toList_inj.1 hstem
    simp [hempty]
  | cons c cs =>
    have hne : stem ≠ "" := by
      rintro rfl
      exact absurd hstem (by simp)
    simp only [append_puml_ne ".." (by decide), if_false, if_neg hne, ← hstem,
      String.ofList_toList]

/-- The document of a diagram is first written in its directory, under another name. -/
lemma beside_eq (h : k.IsSafe) :
    Path.withExtension (diagramPath root k) "tmp" =
      Path.join (diagramDirectory root k) (besideName k.stem) := by
  have hname : Path.stemOf k.fileName ++ "." ++ "tmp" = besideName k.stem := by
    rw [Key.fileName_eq, stemOf_append_puml, besideName, String.append_assoc]
    rfl
  have hslash : '/' ∉ (besideName k.stem).toList := by
    rw [besideName]
    split
    · decide
    · simpa using h.not_mem_stem
  rw [diagramPath, Path.withExtension_join (not_mem_fileName h) (by rwa [hname]), hname]

/-- The place beside the file of a diagram. -/
lemma placeOf_beside (h : k.IsSafe) :
    d.placeOf (Path.withExtension (diagramPath root k) "tmp") =
      d.placeOf (diagramDirectory root k) ++ [besideName k.stem] := by
  have hlong : ∀ t : String, t.toList.length < 4 → besideName k.stem ≠ t := by
    intro t ht he
    have hlen := congrArg (List.length ∘ String.toList) he
    have htmp : ".tmp".toList.length = 4 := by decide
    simp only [besideName, Function.comp_apply, String.toList_append, List.length_append,
      htmp] at hlen
    omega
  have hslash : '/' ∉ (besideName k.stem).toList := by
    rw [besideName]
    split
    · decide
    · simpa using h.not_mem_stem
  rw [beside_eq h, Disk.placeOf_join hslash (hlong "" (by decide)) (hlong "." (by decide))
    (hlong ".." (by decide))]

lemma origin_diagramPath (h : k.IsSafe) : d.origin (diagramPath root k) = d.origin root := by
  rw [diagramPath, Disk.origin_join (not_mem_fileName h), diagramDirectory,
    Disk.origin_join h.not_mem_stem, locationDirectory, Disk.origin_join (not_mem_directory _)]

/-- No diagram has the place beside the file of a diagram. -/
theorem placeOf_beside_ne (h : k.IsSafe) (p : Place) (l : Location) (stem : String) :
    d.placeOf (Path.withExtension (diagramPath root k) "tmp") ≠ p ++ place l stem := by
  rw [placeOf_beside h]
  intro he
  have hlast := congrArg List.getLast? he
  rw [List.getLast?_concat, List.getLast?_append, getLast?_place] at hlast
  have hend := congrArg (List.getLast? ∘ String.toList) (Option.some.inj hlast)
  have hpuml : ".puml".toList.getLast? = some 'l' := by decide
  have htmp : ".tmp".toList.getLast? = some 'p' := by decide
  simp only [besideName, Function.comp_apply, String.toList_append, List.getLast?_append, hpuml,
    htmp, Option.some_or, Option.some.injEq] at hend
  exact absurd hend (by decide)

end Layout

end DiagramRegistry
