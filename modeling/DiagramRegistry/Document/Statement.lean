import DiagramRegistry.Identity.Name
import DiagramRegistry.Text.Blank

/-
# Statements of a document's body

A line of the body is a transition (from the pseudo-state, to it, or between two states), the
name of a state alone, a directive, a description with a colon in it, or nothing that is
known.  Lines are read after trimming.  A transition is split at the first arrow that leaves
something on either side.
-/
namespace DiagramRegistry

open Text

/-- What a trimmed line of the body says. -/
inductive Statement where
  /-- A transition from the pseudo-state; the target may carry a label. -/
  | initial (target : List Char)
  /-- A transition to the pseudo-state. -/
  | terminal (source : List Char)
  /-- A transition between two states; the target may carry a label. -/
  | transition (source target : List Char)
  /-- A state alone. -/
  | state (name : List Char)
  /-- A directive after which the lines up to the end of the note are text. -/
  | noteBlock
  /-- A directive on one line. -/
  | directive
  /-- A line with a colon in it, such as the description of a state. -/
  | description
  /-- None of these. -/
  | unknown
deriving DecidableEq, Repr

namespace Statement

/-- The keywords of directives, which are accepted whatever follows them. -/
def directives : List (List Char) :=
  ["note".toList, "end note".toList, "title".toList, "skinparam".toList, "!define".toList,
    "define".toList, "!include".toList, "include".toList, "scale".toList,
    "left to right direction".toList, "top to bottom direction".toList]

/-- What follows an arrow of one or two dashes, without the blanks around the arrow. -/
def afterArrow? (cs : List Char) : Option (List Char) :=
  match trimStart cs with
  | '-' :: '>' :: rest => some (trimStart rest)
  | '-' :: '-' :: '>' :: rest => some (trimStart rest)
  | _ => none

/-- Split a line after its shortest nonempty beginning that an arrow follows, with the rest
after the arrow accepted. -/
def splitArrow? (accepts : List Char → Bool) : List Char → Option (List Char × List Char)
  | [] => none
  | c :: cs =>
    match (afterArrow? cs).filter accepts with
    | some rest => some ([c], rest)
    | none => (splitArrow? accepts cs).map fun p => (c :: p.1, p.2)

/-- The pseudo-state alone or with a label behind it. -/
def isPseudoTarget (cs : List Char) : Bool :=
  match after? pseudoState.toList cs with
  | none => false
  | some rest =>
    match trimStart rest with
    | [] => true
    | c :: _ => c == ':'

/-- The target of a transition from the pseudo-state. -/
def initialTarget? (line : List Char) : Option (List Char) :=
  ((after? pseudoState.toList line).bind afterArrow?).filter (· ≠ [])

/-- The source of a transition to the pseudo-state. -/
def terminalSource? (line : List Char) : Option (List Char) :=
  (splitArrow? isPseudoTarget line).map Prod.fst

/-- Source and target of any transition. -/
def transition? (line : List Char) : Option (List Char × List Char) :=
  splitArrow? (· ≠ []) line

/-- The line starts with the keyword of a directive. -/
def isDirective (line : List Char) : Bool := directives.any (startsWithWord line)

/-- What a note can be attached to or called: a word without a colon or a quotation mark. -/
def isNoteName (cs : List Char) : Bool := !(cs.contains ':' || cs.contains '"')

/-- The line opens a note whose text follows on the next lines: `note left of X` and its
three variants, or `note as X`. -/
def opensNote (line : List Char) : Bool :=
  match words line with
  | [note, «as», name] =>
    note = "note".toList && «as» = "as".toList && isNoteName name
  | [note, side, «of», name] =>
    note = "note".toList &&
      (["left".toList, "right".toList, "top".toList, "bottom".toList].contains side) &&
      «of» = "of".toList && isNoteName name
  | _ => false

/-- The line ends the text of a note. -/
def closesNote (line : List Char) : Bool :=
  startsWithWord line "end note".toList || startsWithWord line "endnote".toList

/-- A name without the label behind it. -/
def withoutLabel (cs : List Char) : List Char :=
  match cutAtFirst? ':' cs with
  | some (name, _) => trim name
  | none => trim cs

/-- Read a line that is no transition. -/
def ofPlain (line : List Char) : Statement :=
  if identifierChars line then state line
  else if isDirective line then if opensNote line then noteBlock else directive
  else if line.contains ':' then description
  else unknown

/-- Read a trimmed line of the body. -/
def ofTrimmed (line : List Char) : Statement :=
  match initialTarget? line with
  | some target => initial target
  | none =>
    match terminalSource? line with
    | some source => terminal source
    | none =>
      match transition? line with
      | some (source, target) => transition source target
      | none => ofPlain line

end Statement

end DiagramRegistry
