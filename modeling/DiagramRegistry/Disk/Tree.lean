import DiagramRegistry.Disk.Name
import DiagramRegistry.Disk.Path
import DiagramRegistry.Repository.OsError
import DiagramRegistry.Time.Instant

/-
# A file system as a tree of directories and files

A disk is a finite table from places to directories and regular files, a place being the
list of names that leads to it from the top, together with a working directory.  A path is
followed segment by segment: every segment but the last has to be a directory, a dot stays, a
double dot goes up, and a slash at the end asks for a directory.
-/
namespace DiagramRegistry

/-- What a file holds: text, or bytes that are no text. -/
inductive Contents where
  /-- Text. -/
  | text (content : String)
  /-- Bytes that are not the encoding of a text. -/
  | binary (bytes : List UInt8)
deriving DecidableEq, Repr

/-- A regular file. -/
structure File where
  /-- What the file holds. -/
  contents : Contents
  /-- When the file was made. -/
  created : Instant
  /-- When the file was last written. -/
  modified : Instant
deriving DecidableEq, Repr

/-- What can be at a place. -/
inductive Node where
  /-- A directory. -/
  | directory
  /-- A regular file. -/
  | file (file : File)
deriving DecidableEq, Repr

/-- The names that lead to an entry, from the top of the file system, as `Disk.nameOfBytes` writes
them. -/
abbrev Place := List String

/-- A file system and a working directory in it. -/
structure Disk where
  /-- What is below the top. -/
  entries : List (Place × Node)
  /-- The working directory. -/
  workingDirectory : Place
deriving DecidableEq, Repr

namespace Disk

/-- What is at a place.  The top is a directory. -/
def at? (d : Disk) (p : Place) : Option Node :=
  if p = [] then some .directory else (d.entries.find? fun e => e.1 = p).map Prod.snd

/-- The disk with something at a place, instead of what was there. -/
def put (d : Disk) (p : Place) (n : Node) : Disk :=
  { d with entries := (p, n) :: d.entries.filter fun e => e.1 ≠ p }

/-- The disk with nothing at a place. -/
def erase (d : Disk) (p : Place) : Disk :=
  { d with entries := d.entries.filter fun e => e.1 ≠ p }

/-- The entry that a place is of the directory at another place. -/
def childName? (directory p : Place) : Option String :=
  if p ≠ [] ∧ p.dropLast = directory then p.getLast? else none

/-- The entries of the directory at a place. -/
def children (d : Disk) (p : Place) : List (String × Node) :=
  d.entries.filterMap fun e => (childName? p e.1).map fun name => (name, e.2)

/-- The top is always a directory. -/
@[simp] theorem at?_nil (d : Disk) : d.at? [] = some .directory := rfl

/-- Only what is at the place is another; the top stays what it is. -/
theorem at?_put (d : Disk) {p : Place} (hp : p ≠ []) (n : Node) (q : Place) :
    (d.put p n).at? q = if q = p then some n else d.at? q := by
  by_cases hq : q = []
  · subst hq
    simp [Ne.symm hp]
  · by_cases h : q = p
    · subst h
      simp [at?, put, hq]
    · simp only [at?, put, hq, h, if_false, List.find?_cons, Ne.symm h, decide_false,
        List.find?_filter]
      congr 2
      funext e
      by_cases he : e.1 = q <;> simp [he, h]

/-- Only what is at the place is gone. -/
theorem at?_erase (d : Disk) {p : Place} (hp : p ≠ []) (q : Place) :
    (d.erase p).at? q = if q = p then none else d.at? q := by
  by_cases hq : q = []
  · subst hq
    simp [Ne.symm hp]
  · simp only [at?, erase, hq, if_false, List.find?_filter]
    split
    · rename_i h
      simp [h]
    · rename_i h
      congr 2
      funext e
      by_cases he : e.1 = q <;> simp [he, h]

/-! ## Following paths -/

/-- The longest name of an entry, in bytes. -/
def maxName : Nat := 255

/-- The longest path, in bytes. -/
def maxPath : Nat := 4095

/-- A path is refused as a whole when it holds a NUL character, is empty or is too long. -/
def checkText (path : String) : Except OsError Unit :=
  if path.toList.contains '\x00' then .error .nulInPath
  else if path = "" then .error .notFound
  else if maxPath < path.utf8ByteSize then .error .nameTooLong
  else .ok ()

/-- The place at which following a path starts. -/
def origin (d : Disk) (path : String) : Place :=
  if Path.isAbsolute path then [] else d.workingDirectory

/-- The place that a segment leads to from a directory. -/
def step (d : Disk) (p : Place) (segment : String) : Except OsError Place :=
  match d.at? p with
  | some .directory =>
    if segment = "." then .ok p
    else if segment = ".." then .ok p.dropLast
    else if maxName < segment.utf8ByteSize then .error .nameTooLong
    else if (d.at? (p ++ [segment])).isSome then .ok (p ++ [segment])
    else .error .notFound
  | _ => .error .notDirectory

/-- The place that segments lead to. -/
def walk (d : Disk) (p : Place) (segments : List String) : Except OsError Place :=
  segments.foldlM d.step p

/-- What a path leads to, and where it is. -/
def find (d : Disk) (path : String) : Except OsError (Place × Node) := do
  checkText path
  let p ← d.walk (d.origin path) (Path.segments path)
  match d.at? p with
  | none => .error .notFound
  | some .directory => .ok (p, .directory)
  | some (.file f) => if Path.endsWithSlash path then .error .notDirectory else .ok (p, .file f)

/-- The place that a path names, whether something is there or not: a name in a directory, or
nothing when the path ends in dots or is the top. -/
def locate (d : Disk) (path : String) : Except OsError (Option Place) := do
  checkText path
  match (Path.segments path).getLast? with
  | none => .ok none
  | some name =>
    let p ← d.walk (d.origin path) (Path.segments path).dropLast
    match d.at? p with
    | some .directory =>
      if name = "." ∨ name = ".." then .ok none
      else if maxName < name.utf8ByteSize then .error .nameTooLong
      else .ok (some (p ++ [name]))
    | _ => .error .notDirectory

theorem exists_mem_of_at? {d : Disk} {p : Place} {n : Node} (hp : p ≠ [])
    (h : d.at? p = some n) : (p, n) ∈ d.entries := by
  simp only [at?, hp, if_false, Option.map_eq_some_iff] at h
  obtain ⟨⟨q, m⟩, hq, rfl⟩ := h
  have hpq : q = p := by simpa using List.find?_some hq
  exact hpq ▸ List.mem_of_find?_eq_some hq

/-- A segment that is no dots leads to the entry of that name. -/
theorem eq_of_step {d : Disk} {p q : Place} {segment : String} (hdot : segment ≠ ".")
    (hup : segment ≠ "..") (h : d.step p segment = .ok q) : q = p ++ [segment] := by
  unfold step at h
  split at h
  · rw [if_neg hdot, if_neg hup] at h
    split at h
    · simp at h
    · split at h
      · simpa [eq_comm] using h
      · simp at h
  · simp at h

/-- What is found behind a name is an entry with that name. -/
theorem mem_entries_of_find {d : Disk} {path name : String} {init : List String} {p : Place}
    {n : Node} (hseg : Path.segments path = init ++ [name]) (hdot : name ≠ ".")
    (hup : name ≠ "..") (h : d.find path = .ok (p, n)) :
    (p, n) ∈ d.entries ∧ p.getLast? = some name := by
  unfold find at h
  cases ha : checkText path with
  | error e => simp [ha, bind, Except.bind] at h
  | ok u =>
    cases hw : d.walk (d.origin path) (Path.segments path) with
    | error e => simp [ha, hw, bind, Except.bind] at h
    | ok q =>
      have hq : ∃ r, q = r ++ [name] := by
        simp only [hseg, walk, List.foldlM_append, List.foldlM_cons, List.foldlM_nil] at hw
        cases hi : List.foldlM d.step (d.origin path) init with
        | error e => simp [hi, bind, Except.bind] at hw
        | ok r =>
          cases hs : d.step r name with
          | error e => simp [hi, hs, bind, Except.bind] at hw
          | ok t =>
            simp only [hi, hs, bind, Except.bind, pure, Except.pure, Except.ok.injEq] at hw
            exact ⟨r, hw ▸ eq_of_step hdot hup hs⟩
      obtain ⟨r, rfl⟩ := hq
      have hat : d.at? (r ++ [name]) = some n ∧ r ++ [name] = p := by
        simp only [ha, hw, bind, Except.bind] at h
        repeat' split at h
        all_goals simp_all
      obtain ⟨hat, rfl⟩ := hat
      exact ⟨exists_mem_of_at? (by simp) hat, by simp⟩

/-! ## Questions -/

/-- The path leads to a regular file. -/
def isFile (d : Disk) (path : String) : Bool :=
  match d.find path with
  | .ok (_, .file _) => true
  | _ => false

/-- The path leads to a directory. -/
def isDirectory (d : Disk) (path : String) : Bool :=
  match d.find path with
  | .ok (_, .directory) => true
  | _ => false

/-- The path leads to something. -/
def contains (d : Disk) (path : String) : Bool := (d.find path).toBool

/-- The file that a path leads to, to be read as text. -/
def readText (d : Disk) (path : String) : Except OsError (String × File) := do
  let (_, n) ← d.find path
  match n with
  | .directory => .error .isDirectory
  | .file f =>
    match f.contents with
    | .text content => .ok (content, f)
    | .binary _ => .error .notText

/-- The entries of the directory that a path leads to. -/
def list (d : Disk) (path : String) : Except OsError (List (String × Node)) := do
  let (p, n) ← d.find path
  match n with
  | .directory => .ok (d.children p)
  | .file _ => .error .notDirectory

/-! ## Changes

A change either happens or leaves the disk as it was. -/

/-- Make a directory. -/
def makeDirectory (path : String) (d : Disk) : Except OsError Disk := do
  match ← d.locate path with
  | none => .error .exists
  | some p => if (d.at? p).isSome then .error .exists else .ok (d.put p .directory)

/-- Write a file, in place of what it held. -/
def writeFile (now : Instant) (path : String) (contents : Contents) (d : Disk) :
    Except OsError Disk := do
  match ← d.locate path with
  | none => .error .isDirectory
  | some p =>
    if Path.endsWithSlash path then .error .isDirectory
    else
      match d.at? p with
      | some .directory => .error .isDirectory
      | some (.file f) => .ok (d.put p (.file { f with contents, modified := now }))
      | none => .ok (d.put p (.file ⟨contents, now, now⟩))

/-- Give a file another place; a file that was there goes. -/
def renameFile (source target : String) (d : Disk) : Except OsError Disk := do
  match ← d.find source with
  | (_, .directory) => .error .isDirectory
  | (s, .file f) =>
    match ← d.locate target with
    | none => .error .isDirectory
    | some t =>
      if Path.endsWithSlash target then .error .notDirectory
      else
        match d.at? t with
        | some .directory => .error .isDirectory
        | _ => .ok ((d.erase s).put t (.file f))

/-- Remove a file. -/
def removeFile (path : String) (d : Disk) : Except OsError Disk := do
  match ← d.locate path with
  | none => .error .isDirectory
  | some p =>
    match d.at? p with
    | none => .error .notFound
    | some .directory => .error .isDirectory
    | some (.file _) =>
      if Path.endsWithSlash path then .error .notDirectory else .ok (d.erase p)

/-- Remove a directory without entries. -/
def removeDirectory (path : String) (d : Disk) : Except OsError Disk := do
  match ← d.find path with
  | (_, .file _) => .error .notDirectory
  | (p, .directory) =>
    if p ≠ [] ∧ (d.children p).isEmpty then .ok (d.erase p) else .error .notEmpty

/-! ## Directories with their ancestors -/

/-- The longer of these beginnings of a path first: the directories that a directory, given by
its components, lies in.  The top is one of them, the working directory is not. -/
def ancestors : List Path.Component → List String
  | [] => []
  | _ :: reversed =>
    if reversed = [] then [] else Path.ofComponents reversed.reverse :: ancestors reversed

/-- Make the first of the directories, after making those it lies in, where they are missing.
What was made stays when a later one is refused. -/
def makeWithAncestors : List String → Disk → Except OsError Unit × Disk
  | [], d => (.ok (), d)
  | path :: above, d =>
    match d.makeDirectory path with
    | .ok d' => (.ok (), d')
    | .error .notFound =>
      match makeWithAncestors above d with
      | (.error e, d') => (.error e, d')
      | (.ok (), d') =>
        match d'.makeDirectory path with
        | .ok d'' => (.ok (), d'')
        | .error e => if d'.isDirectory path then (.ok (), d') else (.error e, d')
    | .error e => if d.isDirectory path then (.ok (), d) else (.error e, d)

/-- Make a directory and those it lies in, where they are missing. -/
def ensureDirectory (path : String) (d : Disk) : Except OsError Unit × Disk :=
  if path = "" then (.ok (), d)
  else makeWithAncestors (path :: ancestors (Path.components path).reverse) d

end Disk

end DiagramRegistry
