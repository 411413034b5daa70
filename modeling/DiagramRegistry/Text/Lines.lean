/-
# The lines of a document

A line ends at a line feed; one carriage return right before the line feed belongs to the
line end.  What follows the last line feed is a line only when it is not empty, and a
carriage return at the very end of the document is part of its line.
-/
namespace DiagramRegistry.Text

/-- Put a character in front of the first line, opening a line when there is none. -/
def consLine (c : Char) : List (List Char) → List (List Char)
  | [] => [[c]]
  | l :: ls => (c :: l) :: ls

/-- The lines of a document, without their ends. -/
def lines : List Char → List (List Char)
  | [] => []
  | c :: cs =>
    if c = '\n' then [] :: lines cs
    else if c = '\r' ∧ cs.head? = some '\n' then lines cs
    else consLine c (lines cs)

/-- The lines of a document with their numbers, counted from one. -/
def numberedLines (content : String) : List (List Char × Nat) :=
  (lines content.toList).zipIdx 1

example : lines "a\r\n\nb\r\rc\r".toList = ["a".toList, [], "b\r\rc\r".toList] := by decide

end DiagramRegistry.Text
