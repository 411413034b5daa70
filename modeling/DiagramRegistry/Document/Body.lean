import DiagramRegistry.Document.Envelope
import DiagramRegistry.Document.Statement

/-
# The body of a document

The body is scanned line by line.  Only lines inside the envelope count; blank lines,
comments and the text of notes are passed over.  The scan collects the states that the
statements declare, warns about names and lines that it cannot make sense of, and in the end
reports a body without an initial transition or without states.
-/
namespace DiagramRegistry

open Text

/-- What the scan of a body knows after some lines. -/
structure Body where
  /-- There was a start marker. -/
  sawStart : Bool
  /-- The latest marker was a start marker. -/
  inside : Bool
  /-- The lines are the text of a note. -/
  inNote : Bool
  /-- There was a transition from the pseudo-state. -/
  sawInitial : Bool
  /-- The states declared so far. -/
  states : List (List Char)
  /-- The findings so far. -/
  found : Findings
deriving DecidableEq, Repr

namespace Body

/-- Before the first line. -/
def begin (found : Findings) : Body := ⟨false, false, false, false, [], found⟩

/-- Add a state, once. -/
def addState (b : Body) (name : List Char) : Body :=
  if name ∈ b.states then b else { b with states := b.states ++ [name] }

/-- Declare the state that one side of a transition names, if it is not the pseudo-state. -/
def declare (b : Body) (side : List Char) (line column : Nat) : Body :=
  let name := Statement.withoutLabel side
  if name = pseudoState.toList then b
  else
    let text := String.ofList name
    let b :=
      if isStateName text then b
      else { b with found := b.found.warning (.atPosition .invalidStateName line column
        s!"state name '{text}' is not a valid identifier") }
    b.addState name

/-- Take in what a trimmed line inside the envelope says. -/
def take (b : Body) (trimmed : List Char) (line column : Nat) : Body :=
  match Statement.ofTrimmed trimmed with
  | .initial target => { b with sawInitial := true }.declare target line column
  | .terminal source => b.declare source line column
  | .transition source target => (b.declare source line column).declare target line column
  | .state name => b.addState name
  | .noteBlock => { b with inNote := true }
  | .directive => b
  | .description => b
  | .unknown =>
    { b with found := b.found.warning (.atPosition .unknownSyntax line column
      s!"unrecognized syntax: {String.ofList trimmed}") }

/-- A trimmed line that is passed over: an empty one or a comment. -/
def isInert (trimmed : List Char) : Bool :=
  match trimmed with
  | [] => true
  | c :: _ => c == '\u0027'

/-- Take one numbered line in. -/
def step (b : Body) (l : List Char × Nat) : Body :=
  let trimmed := trim l.1
  match Marker.ofTrimmed? trimmed with
  | some .start => { b with sawStart := true, inside := true }
  | some .stop => { b with inside := false, inNote := false }
  | none =>
    if !b.inside || isInert trimmed then b
    else if b.inNote then
      if Statement.closesNote trimmed then { b with inNote := false } else b
    else b.take trimmed l.2 (indentation l.1 + 1)

/-- Report what the body lacks as a whole.  A document without a start marker has no body. -/
def close (b : Body) : Findings :=
  if !b.sawStart then b.found
  else
    let found :=
      if b.sawInitial then b.found
      else b.found.warning (.atPosition .noInitialState 1 1
        "no initial state transition ([*] --> State) found")
    if b.states.isEmpty then
      found.error (.atPosition .noStates 1 1 "diagram declares no states")
    else found

/-- Scan the body of a document, after what was found before. -/
def check (content : String) (found : Findings) : Findings :=
  ((numberedLines content).foldl step (begin found)).close

end Body

end DiagramRegistry
