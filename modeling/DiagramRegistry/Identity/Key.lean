import DiagramRegistry.Identity.Location
import DiagramRegistry.Identity.Name
import DiagramRegistry.Identity.Stem
import DiagramRegistry.Identity.Version

/-
# Keys

A diagram is identified by its name, its version and its location.  The key also fixes where
the diagram is kept below the root of a repository, and the order in which listings show
diagrams.
-/
namespace DiagramRegistry

/-- The kinds of diagram that a registry keeps. -/
inductive DiagramType where
  /-- A state machine. -/
  | stateMachine
deriving DecidableEq, Repr

namespace DiagramType

/-- The name of a kind of diagram. -/
def name : DiagramType → String
  | stateMachine => "state_machine"

/-- The extension of the files that hold this kind of diagram. -/
def fileExtension : DiagramType → String
  | stateMachine => "puml"

end DiagramType

/-- The identity of a stored diagram.  All diagrams are state machines. -/
structure Key where
  /-- The name of the diagram. -/
  name : String
  /-- The version of the diagram, empty for nested diagrams. -/
  version : String
  /-- Where the diagram is stored. -/
  location : Location
deriving DecidableEq, Repr

namespace Key

/-- The key of a draft. -/
def staging (name version : String) : Key := ⟨name, version, .staging⟩

/-- The key of a promoted diagram. -/
def production (name version : String) : Key := ⟨name, version, .production⟩

/-- The key of a nested diagram. -/
def nested (name : String) : Key := ⟨name, "", .nested⟩

/-- The kind of diagram behind a key. -/
def type (_ : Key) : DiagramType := .stateMachine

/-- The key of the same name and version at another location. -/
def relocate (k : Key) (location : Location) : Key := { k with location }

/-- The name of the diagram's directory and, but for the extension, of its file. -/
def stem (k : Key) : String := Stem.join k.name k.version

/-- The name of the diagram's file. -/
def fileName (k : Key) : String := s!"{k.stem}.{k.type.fileExtension}"

/-- The path of the diagram's file below the root of a repository. -/
def relativePath (k : Key) : String := s!"{k.location.directory}/{k.stem}/{k.fileName}"

/-- How a key is shown in messages and in chains of references. -/
def display (k : Key) : String := s!"{k.type.name}:{k.stem}@{k.location.name}"

/-- Keys are ordered by name, then by version as a text, then by location. -/
def order (a b : Key) : Ordering :=
  ((compare a.name b.name).then (compare a.version b.version)).then
    (compare a.location.rank b.location.rank)

/-- The key comes first in the order of keys, or is the same. -/
def le (a b : Key) : Bool := (order a b).isLE

/-- The rule that a key obeys at its location: an identifier as name, a version at staging
and production, none at nested. -/
def isWellNamed (k : Key) : Bool :=
  isIdentifier k.name &&
    match k.location with
    | .nested => k.version == ""
    | _ => isVersion k.version

end Key

/-- Insert an element of a sequence that is in the order of its keys, after its equals. -/
def insertByKey {α : Type} (key : α → Key) (x : α) : List α → List α
  | [] => [x]
  | y :: ys => if Key.le (key y) (key x) then y :: insertByKey key x ys else x :: y :: ys

/-- The elements in the order of their keys; equal keys keep their order. -/
def sortByKey {α : Type} (key : α → Key) (xs : List α) : List α :=
  xs.foldl (fun sorted x => insertByKey key x sorted) []

/-- A search that passes over an element does not see it inserted. -/
theorem find?_insertByKey_of_neg {α : Type} (key : α → Key) {p : α → Bool} {x : α}
    (h : p x = false) (xs : List α) : (insertByKey key x xs).find? p = xs.find? p := by
  induction xs with
  | nil => simp [insertByKey, h]
  | cons y ys ih =>
    unfold insertByKey
    split
    · simp [List.find?_cons, ih]
    · simp [List.find?_cons, h]

/-- A search that stops at no other element stops at the one inserted. -/
theorem find?_insertByKey_of_pos {α : Type} (key : α → Key) {p : α → Bool} {x : α}
    {xs : List α} (h : p x = true) (hxs : ∀ y ∈ xs, p y = false) :
    (insertByKey key x xs).find? p = some x := by
  induction xs with
  | nil => simp [insertByKey, h]
  | cons y ys ih =>
    unfold insertByKey
    split
    · simp [hxs y (by simp), ih fun z hz => hxs z (List.mem_cons_of_mem _ hz)]
    · simp [h]

end DiagramRegistry
