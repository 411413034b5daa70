import DiagramRegistry.Text.Blank

/-
# Paths

A path is a text whose segments are separated by slashes.  It is absolute when it starts with
a slash.  Two paths are the same when their components are: repeated slashes, a slash at the
end and single dots inside the path make no difference, while double dots stay, since what
they lead to depends on the file system.
-/
namespace DiagramRegistry.Path

open Text

/-- A part of a path. -/
inductive Component where
  /-- The top of the file system. -/
  | top
  /-- The working directory, written as a dot at the beginning. -/
  | here
  /-- The directory above. -/
  | up
  /-- An entry of a directory. -/
  | entry (name : String)
deriving DecidableEq, Repr

/-- The text of a component. -/
def Component.text : Component → String
  | top => "/"
  | here => "."
  | up => ".."
  | entry name => name

/-- A path that starts at the top of the file system. -/
def isAbsolute (path : String) : Bool := path.toList.head? = some '/'

/-- The path ends with a slash. -/
def endsWithSlash (path : String) : Bool := path.toList.getLast? = some '/'

/-- The second path taken from the first.  An absolute path stands for itself; an empty one
only adds a slash. -/
def join (base path : String) : String :=
  if isAbsolute path then path
  else if base = "" ∨ endsWithSlash base then base ++ path
  else base ++ "/" ++ path

/-- The texts between the slashes of a path, without the empty ones. -/
def segments (path : String) : List String :=
  ((path.toList.splitOn '/').filter (· ≠ [])).map String.ofList

/-- The component that a segment stands for. -/
def Component.ofSegment (segment : String) : Component :=
  if segment = ".." then up else entry segment

/-- The components of a path: a dot counts only at the beginning of a relative path. -/
def components (path : String) : List Component :=
  let rest (s : List String) := (s.filter (· ≠ ".")).map Component.ofSegment
  let s := segments path
  if isAbsolute path then .top :: rest s
  else if s.head? = some "." then .here :: rest s
  else rest s

/-- The path that components make. -/
def ofComponents : List Component → String
  | .top :: cs => "/" ++ String.intercalate "/" (cs.map Component.text)
  | cs => String.intercalate "/" (cs.map Component.text)

/-- The path of the directory that a path lies in; the top and the empty path lie in none. -/
def parent? (path : String) : Option String :=
  match components path with
  | [] | [.top] => none
  | cs => some (ofComponents cs.dropLast)

/-- The components of a path below a base, if the base is where the path starts. -/
def below? (base path : String) : Option (List Component) :=
  let b := components base
  let p := components path
  if b.isPrefixOf p then some (p.drop b.length) else none

/-- What follows the last slash of a path. -/
def fileName (path : String) : String :=
  match cutAtLast? '/' path.toList with
  | some (_, name) => String.ofList name
  | none => path

/-- A file name up to its last dot.  A dot at the beginning starts no extension, and the
double dot has none. -/
def stemOf (name : String) : String :=
  match cutAtLast? '.' name.toList with
  | some (c :: cs, _) => if name = ".." then name else String.ofList (c :: cs)
  | _ => name

/-- The path of the file next to a file, with the extension exchanged. -/
def withExtension (path extension : String) : String :=
  let name := stemOf (fileName path) ++ "." ++ extension
  match cutAtLast? '/' path.toList with
  | some (directory, _) => String.ofList (directory ++ ['/']) ++ name
  | none => name

/-- Refuse a name or a version that would lead out of its directory, naming the field. -/
def unsafeSegment? (value field : String) : Option String :=
  if value.toList.contains '/' || value.toList.contains '\\' then
    some s!"{field} '{value}' must not contain path separators"
  else if value = "." ∨ value = ".." then
    some s!"{field} '{value}' is not a valid path segment"
  else none

/-- The same path: the components agree. -/
def same (a b : String) : Bool := components a = components b

/-! ## Segments of joined paths -/

theorem segments_of_entry {name : String} (h : '/' ∉ name.toList) (hne : name ≠ "") :
    segments name = [name] := by
  have : name.toList ≠ [] := by
    intro h'
    exact hne (String.toList_inj.1 (by simp [h']))
  simp [segments, List.splitOn_eq_singleton h, this]

theorem segments_slash (a b : List Char) :
    segments (String.ofList (a ++ '/' :: b)) =
      segments (String.ofList a) ++ segments (String.ofList b) := by
  simp [segments, List.splitOn_append_cons_self]

/-- An entry joined to a path is one more segment. -/
theorem segments_join {base name : String} (h : '/' ∉ name.toList) (hne : name ≠ "") :
    segments (join base name) = segments base ++ [name] := by
  have habs : isAbsolute name = false := by
    cases hn : name.toList with
    | nil => simp [isAbsolute, hn]
    | cons c cs => simp [hn] at h; simp [isAbsolute, hn, Ne.symm h.1]
  simp only [join, habs, Bool.false_eq_true, if_false]
  rw [← segments_of_entry h hne]
  by_cases hb : base = ""
  · subst hb; simp [segments]
  by_cases hs : endsWithSlash base = true
  · obtain ⟨a, ha⟩ : ∃ a, base.toList = a ++ ['/'] := by
      simpa [endsWithSlash, List.getLast?_eq_some_iff] using hs
    have e1 : base ++ name = String.ofList (a ++ '/' :: name.toList) :=
      String.toList_inj.1 (by simp [ha])
    have e2 : base = String.ofList (a ++ '/' :: []) := String.toList_inj.1 (by simp [ha])
    rw [if_pos (Or.inr hs), e1, segments_slash]
    conv => rhs; rw [e2, segments_slash]
    simp [segments]
  · have e1 : base ++ "/" ++ name = String.ofList (base.toList ++ '/' :: name.toList) :=
      String.toList_inj.1 (by simp)
    rw [if_neg (by simp [hb, hs]), e1, segments_slash]
    simp

example : components "a//./b/" = components "a/b" := by decide
example : parent? "./a" = some "." ∧ parent? "a" = some "" ∧ parent? "/" = none := by decide
example : withExtension "d/.puml" "tmp" = "d/.puml.tmp" := by decide

end DiagramRegistry.Path
