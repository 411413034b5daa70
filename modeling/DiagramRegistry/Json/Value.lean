/-
# JSON values

A JSON document as a value.  Objects keep their fields in the order of the text, and may hold
a name more than once.  A string of a document may contain half of a surrogate pair and is
then no text; a number is only told apart from others when it is a plain natural number,
which is all that is ever read.
-/
namespace DiagramRegistry.Json

/-- The content of a JSON string: a text, or nothing when it is no sequence of characters. -/
abbrev Content := Option String

/-- A JSON value. -/
inductive Value where
  /-- The value without content. -/
  | null
  /-- A truth value. -/
  | bool (b : Bool)
  /-- A number: a natural number written without sign, fraction and exponent, or another. -/
  | number (n : Option Nat)
  /-- A string. -/
  | string (s : Content)
  /-- A sequence of values. -/
  | array (items : List Value)
  /-- Named values. -/
  | object (fields : List (Content × Value))
deriving Repr

namespace Value

/-- A text as a value. -/
def text (s : String) : Value := string (some s)

/-- A natural number as a value. -/
def nat (n : Nat) : Value := number (some n)

/-- Named values as a value. -/
def record (fields : List (String × Value)) : Value :=
  object (fields.map fun f => (some f.1, f.2))

end Value

end DiagramRegistry.Json
