import DiagramRegistry.Disk.Tree
import DiagramRegistry.Repository.Layout
import DiagramRegistry.Repository.Store

/-
# Diagrams on disk

A store that keeps every diagram in a file of its own.  A document is first written beside
its place and then renamed, so that a file of the store is never half written; a diagram that
leaves its directory takes the directory along when nothing else is in it.
-/
namespace DiagramRegistry

/-- Diagrams on disk, below a root. -/
structure OnDisk where
  /-- The path of the root. -/
  root : String
  /-- The file system. -/
  disk : Disk
deriving DecidableEq, Repr

namespace OnDisk

/-! ## Questions -/

/-- A file that is missing means that its diagram is; other errors are the repository's. -/
def readFailure (k : Key) (path : String) : OsError → Failure
  | .notFound => .notFound k
  | e => .repository s!"{path}: {e.message}"

/-- Whether a diagram exists, for a key that does not lead out of its directory. -/
def contains (s : OnDisk) (k : Key) : Except Failure Bool :=
  (Layout.checkedPath s.root k).map s.disk.isFile

/-- The diagram under a key, with the times of its file. -/
def load (s : OnDisk) (k : Key) : Except Failure Diagram := do
  let path ← Layout.checkedPath s.root k
  match s.disk.readText path with
  | .ok (content, file) => .ok ⟨k, content, [], file.created, file.modified⟩
  | .error e => .error (readFailure k path e)

/-- The key of the diagram whose directory has the given name.  Outside the nested location
a name that does not split belongs to no diagram. -/
def keyForStem? (location : Location) (stem : String) : Option Key :=
  match location with
  | .nested => some (.nested stem)
  | _ => (Stem.split? stem).map fun p => ⟨p.1, p.2, location⟩

/-- The keys of the diagrams whose directories are among the given entries.  The name of a directory
is read as a text, which is taken for a stem; the diagram is looked for under the key. -/
def keysAmong (s : OnDisk) (location : Location) (entries : List (String × Node)) :
    List Key :=
  (entries.filterMap fun e =>
    if e.2 = .directory then keyForStem? location (Disk.readName e.1) else none).filter fun k =>
      s.disk.isFile (Layout.diagramPath s.root k)

/-- The diagrams of a location, in the order of their keys.  A location without a directory
has none. -/
def list (location : Location) (s : OnDisk) : Except Failure (List Diagram) :=
  let path := Layout.locationDirectory s.root location
  if s.disk.isDirectory path then
    match s.disk.list path with
    | .error e => .error (.io e)
    | .ok entries => (sortByKey Diagram.key) <$> (s.keysAmong location entries).mapM s.load
  else .ok []

/-- The keys that some file on disk may belong to. -/
def knownKeys (s : OnDisk) : List Key :=
  s.disk.entries.flatMap fun e =>
    match e.1.getLast?.bind fun name => Text.before? ".puml".toList name.toList with
    | none => []
    | some stem =>
      (Stem.candidates stem).flatMap fun p => Location.all.map fun l => ⟨p.1, p.2, l⟩

theorem ensureSafe_eq_ok {value field : String} {u : Unit}
    (h : Layout.ensureSafe value field = .ok u) : '/' ∉ value.toList := by
  unfold Layout.ensureSafe Path.unsafeSegment? at h
  split at h
  · simp at h
  · rename_i hn
    intro hmem
    simp [List.contains_eq_mem, hmem] at hn

theorem mem_knownKeys_of_contains {s : OnDisk} {k : Key} (h : s.contains k = .ok true) :
    k ∈ s.knownKeys := by
  unfold contains Layout.checkedPath at h
  cases hn : Layout.ensureSafe k.name "name" with
  | error e => simp [hn, bind, Except.bind, Except.map] at h
  | ok u =>
    cases hv : Layout.ensureSafe k.version "version" with
    | error e => simp [hn, hv, bind, Except.bind, Except.map] at h
    | ok u =>
      have hfile : s.disk.isFile (Layout.diagramPath s.root k) = true := by
        simpa [hn, hv, bind, Except.bind, Except.map, pure, Except.pure] using h
      have hname : k.fileName.toList = k.stem.toList ++ ".puml".toList := by
        simp [Key.fileName, DiagramType.fileExtension, toString]
      have hstem : '/' ∉ k.stem.toList := by
        have h1 := ensureSafe_eq_ok hn
        have h2 := ensureSafe_eq_ok hv
        simp only [Key.stem, Stem.join]
        split
        · exact h1
        · simp [toString, h1, h2]
      have hslash : '/' ∉ k.fileName.toList := by simp [hname, hstem]
      have hlen : ∀ t : String, t.toList.length < 5 → k.fileName ≠ t := by
        intro t ht he
        rw [← he, hname, List.length_append] at ht
        have : ".puml".toList.length = 5 := by decide
        omega
      have hseg : Path.segments (Layout.diagramPath s.root k) =
          Path.segments (Layout.diagramDirectory s.root k) ++ [k.fileName] :=
        Path.segments_join hslash (hlen "" (by decide))
      unfold Disk.isFile at hfile
      split at hfile
      · rename_i p f hfind
        obtain ⟨hmem, hlast⟩ := Disk.mem_entries_of_find hseg (hlen "." (by decide))
          (hlen ".." (by decide)) hfind
        refine List.mem_flatMap.2 ⟨_, hmem, ?_⟩
        have hb : Text.before? ".puml".toList k.fileName.toList = some k.stem.toList :=
          Text.before?_eq_some_iff.2 hname
        simp only [hlast, Option.bind_some, hb]
        refine List.mem_flatMap.2 ⟨_, Stem.mem_candidates k.name k.version, ?_⟩
        refine List.mem_map.2 ⟨k.location, ?_, rfl⟩
        cases k.location <;> simp [Location.all]
      · simp at hfile

/-- What the store answers when references are resolved. -/
def catalogue (s : OnDisk) : Catalogue where
  contains := s.contains
  read k := (s.load k).map Diagram.content
  keys := s.knownKeys
  mem_keys _ := mem_knownKeys_of_contains

/-! ## Changes -/

/-- Carry a change of the file system out. -/
def change (f : Disk → Except OsError Disk) : Action OnDisk Unit := .of fun s =>
  match f s.disk with
  | .ok disk => (.ok (), { s with disk })
  | .error e => (.error (.io e), s)

/-- Make a directory and those it lies in, where they are missing. -/
def ensureDirectory (path : String) : Action OnDisk Unit := .of fun s =>
  match s.disk.ensureDirectory path with
  | (.ok (), disk) => (.ok (), { s with disk })
  | (.error e, disk) => (.error (.io e), { s with disk })

/-- Make the directory that a file is to lie in. -/
def ensureParent (path : String) : Action OnDisk Unit :=
  match Path.parent? path with
  | none => pure ()
  | some directory => ensureDirectory directory

/-- Remove the directory that a file has left, if nothing else is in it. -/
def removeEmptyParent (path : String) : Action OnDisk Unit :=
  match Path.parent? path with
  | none => pure ()
  | some directory => change fun disk =>
    match disk.list directory with
    | .error e => .error e
    | .ok [] => disk.removeDirectory directory
    | .ok _ => .ok disk

/-- Make the root and the directories of all locations. -/
def setUp : Action OnDisk Unit :=
  Location.all.forM fun location => do
    let root ← Action.ask fun s => .ok s.root
    ensureDirectory (Layout.locationDirectory root location)

/-- Store a diagram in its file. -/
def write (now : Instant) (d : Diagram) : Action OnDisk Unit := do
  let path ← .ask fun s => Layout.checkedPath s.root d.key
  ensureParent path
  let beside := Path.withExtension path "tmp"
  change (Disk.writeFile now beside (.text d.content))
  change (Disk.renameFile beside path)

/-- Move a diagram's file to another location.  That the diagram is there is checked first. -/
def move (name version : String) (origin destination : Location) : Action OnDisk Unit := do
  let source : Key := ⟨name, version, origin⟩
  let target := source.relocate destination
  let sourcePath ← .ask fun s => Layout.checkedPath s.root source
  let targetPath ← .ask fun s => Layout.checkedPath s.root target
  if ← .ask fun s => .ok (s.disk.isFile sourcePath) then
    if ← .ask fun s => .ok (s.disk.contains targetPath) then
      .fail (.alreadyExists target)
    else
      ensureParent targetPath
      change (Disk.renameFile sourcePath targetPath)
      removeEmptyParent sourcePath
  else
    .fail (.notFound source)

/-- Remove a diagram's file. -/
def delete (k : Key) : Action OnDisk Unit := do
  let path ← .ask fun s => Layout.checkedPath s.root k
  .of fun s =>
    match s.disk.removeFile path with
    | .ok disk => (.ok (), { s with disk })
    | .error e => (.error (readFailure k path e), s)
  removeEmptyParent path

instance : Store OnDisk where
  catalogue := catalogue
  load k s := s.load k
  write := write
  move _ := move
  delete := delete
  list := list
  directoryExists path s := s.disk.isDirectory (Path.join s.root path)
  createDirectory path := do
    let root ← .ask fun s => .ok s.root
    ensureDirectory (Path.join root path)

end OnDisk

end DiagramRegistry
