import DiagramRegistry.Finding.Basic
import DiagramRegistry.Text.Blank
import DiagramRegistry.Text.Lines

/-
# The envelope of a document

The body of a diagram stands between a start marker and a later end marker, each alone at the
beginning of a line.  The check reports missing, repeated and misplaced markers; it looks at
every line, whatever it has found before.
-/
namespace DiagramRegistry

open Text

/-- The lines that open and close the body of a document. -/
inductive Marker where
  /-- The marker before the body. -/
  | start
  /-- The marker after the body. -/
  | stop
deriving DecidableEq, Repr

namespace Marker

/-- The text of a marker. -/
def text : Marker → String
  | start => "@startuml"
  | stop => "@enduml"

/-- The marker that a trimmed line is, if any. -/
def ofTrimmed? (line : List Char) : Option Marker :=
  if startsWithWord line start.text.toList then some start
  else if startsWithWord line stop.text.toList then some stop
  else none

end Marker

/-- What the envelope check knows after some lines. -/
structure Envelope where
  /-- The line of the first start marker. -/
  start? : Option Nat
  /-- The line of the first end marker. -/
  stop? : Option Nat
  /-- The findings so far. -/
  found : Findings
deriving DecidableEq, Repr

namespace Envelope

/-- The finding for a marker that has come before. -/
def repeated (code : Code) (marker : Marker) (first line column : Nat) : Finding :=
  .atPosition code line column
    s!"duplicate {marker.text} marker (first seen on line {first})"

/-- Take one numbered line in. -/
def step (e : Envelope) (l : List Char × Nat) : Envelope :=
  let column := indentation l.1 + 1
  match Marker.ofTrimmed? (trim l.1) with
  | none => e
  | some .start =>
    match e.start? with
    | none => { e with start? := some l.2 }
    | some first =>
      { e with found := e.found.error (repeated .duplicateStart .start first l.2 column) }
  | some .stop =>
    match e.stop? with
    | none => { e with stop? := some l.2 }
    | some first =>
      { e with found := e.found.error (repeated .duplicateEnd .stop first l.2 column) }

/-- Report the markers that are missing or in the wrong order, for a document with the given
number of lines. -/
def close (e : Envelope) (lineCount : Nat) : Findings :=
  let found := e.found
  let found :=
    if e.start?.isNone then
      found.error (.atPosition .missingStart 1 1 s!"missing {Marker.start.text} marker")
    else found
  let found :=
    if e.stop?.isNone then
      found.error (.atPosition .missingEnd lineCount 1 s!"missing {Marker.stop.text} marker")
    else found
  match e.start?, e.stop? with
  | some start, some stop =>
    if stop ≤ start then
      found.error (.atPosition .invalidOrder start 1
        (s!"{Marker.start.text} on line {start} must precede " ++
          s!"{Marker.stop.text} on line {stop}"))
    else found
  | _, _ => found

/-- Check the envelope of a document, after what was found before. -/
def check (content : String) (found : Findings) : Findings :=
  let numbered := numberedLines content
  (numbered.foldl step ⟨none, none, found⟩).close numbered.length

end Envelope

end DiagramRegistry
