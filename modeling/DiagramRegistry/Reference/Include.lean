import DiagramRegistry.Reference.Basic
import DiagramRegistry.Text.Lines

/-
# Include directives

The references of a document are read off its include directives, one per line.  A directive
whose path ends in `products/stem/stem.puml` is a product reference, one whose path ends in
`nested/name/name.puml` a nested reference; any other directive is no reference.  A document
with a NUL character in it is not read at all.
-/
namespace DiagramRegistry

open Text

/-- A document whose references cannot be read: a line of it holds a NUL character. -/
structure UnreadableLine where
  /-- The first line that holds one. -/
  line : Nat
deriving DecidableEq, Repr

/-- What is said about a document that cannot be read. -/
def UnreadableLine.message (fault : UnreadableLine) : String :=
  s!"unable to parse references on line {fault.line}: content contains NUL bytes"

namespace Include

/-- What follows the keyword of an include directive, of which there are three. -/
def afterKeyword? (line : List Char) : Option (List Char) :=
  (after? "!include".toList line).map fun rest =>
    ((after? "_many".toList rest).or (after? "_once".toList rest)).getD rest

/-- The argument of an include directive: what follows the keyword and at least one blank. -/
def argument? (line : List Char) : Option (List Char) :=
  match afterKeyword? line with
  | some (c :: rest) =>
    if isBlank c ∧ trimStart rest ≠ [] then some (trimStart rest) else none
  | _ => none

/-- What stands between two marks that enclose a text. -/
def between? (opening closing : Char) : List Char → Option (List Char)
  | [] => none
  | c :: cs => if c = opening then before? [closing] cs else none

/-- A path without the quotation marks or angle brackets around it. -/
def unquote (cs : List Char) : List Char :=
  ((between? '"' '"' cs).or (between? '<' '>' cs)).getD cs

/-- The path that an argument declares, with slashes between its segments. -/
def declaredPath (argument : List Char) : List Char :=
  (unquote argument).map fun c => if c = '\\' then '/' else c

/-- The location directory and the stem that a path names in its last three segments: the
last of them is the stem with the file extension, the one before it the stem itself. -/
def addressed? (path : List Char) : Option (List Char × List Char) :=
  match (path.splitOn '/').reverse with
  | file :: stem :: place :: _ =>
    if stem ≠ [] ∧ file = stem ++ ".puml".toList then some (place, stem) else none
  | _ => none

/-- The reference that a path on a line makes. -/
def reference? (path : List Char) (line : Nat) : Option Reference :=
  match addressed? path with
  | none => none
  | some (place, stem) =>
    if place = Location.production.directory.toList then
      let (name, version) := (Stem.splitChars? stem).getD (stem, [])
      some ⟨String.ofList name, String.ofList version, .product, String.ofList path, line⟩
    else if place = Location.nested.directory.toList then
      some ⟨String.ofList stem, "", .nested, String.ofList path, line⟩
    else none

/-- The reference that a line of a document makes. -/
def ofLine? (line : List Char) (number : Nat) : Option Reference :=
  (argument? (trim line)).bind fun argument => reference? (declaredPath argument) number

/-- The references whose identity is not among those seen, each identity once. -/
def firstOccurrences (seen : List (ReferenceKind × String × String)) :
    List Reference → List Reference
  | [] => []
  | r :: rs =>
    if r.identity ∈ seen then firstOccurrences seen rs
    else r :: firstOccurrences (r.identity :: seen) rs

end Include

/-- The references of a document, in the order of their first directives. -/
def includes (content : String) : Except UnreadableLine (List Reference) :=
  let numbered := numberedLines content
  match numbered.find? fun l => l.1.contains '\x00' with
  | some (_, line) => .error ⟨line⟩
  | none => .ok (Include.firstOccurrences [] (numbered.filterMap fun l => Include.ofLine? l.1 l.2))

end DiagramRegistry
