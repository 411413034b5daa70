import DiagramRegistry.Json.Token

/-
# Reading JSON

The tokens of a document are taken in one by one, with the arrays and objects that are still
open on a stack.  A state of the reader says what may come next; a document is read when,
after the last token, exactly one value is complete.
-/
namespace DiagramRegistry.Json

/-- An array or object that is still open, with what it holds so far, last first. -/
inductive Frame where
  /-- An open array. -/
  | array (items : List Value)
  /-- An open object, and the name of the field whose value is being read. -/
  | object (fields : List (Content × Value)) (name : Content)
deriving Repr

/-- What may come next. -/
inductive Expected where
  /-- A value. -/
  | value
  /-- A value, or the end of an array that was just opened. -/
  | firstItem
  /-- A comma or the end of an array that holds these items, last first. -/
  | afterItem (items : List Value)
  /-- The name of a field, or the end of an object that was just opened. -/
  | firstName
  /-- The name of a further field of an object that holds these fields, last first. -/
  | name (fields : List (Content × Value))
  /-- The colon behind the name of a field. -/
  | colon (fields : List (Content × Value)) (name : Content)
  /-- A comma or the end of an object that holds these fields, last first. -/
  | afterField (fields : List (Content × Value))
  /-- Nothing: the document is complete. -/
  | nothing (v : Value)
deriving Repr

/-- The arrays and objects that are still open around what is being read, and what may come
next. -/
abbrev Reading := List Frame × Expected

/-- Take a complete value in. -/
def complete (v : Value) : List Frame → Reading
  | [] => ([], .nothing v)
  | .array items :: frames => (frames, .afterItem (v :: items))
  | .object fields name :: frames => (frames, .afterField ((name, v) :: fields))

/-- Take the first token of a value in. -/
def beginValue (frames : List Frame) : Token → Option Reading
  | .atom v => some (complete v frames)
  | .string s => some (complete (.string s) frames)
  | .openArray => some (frames, .firstItem)
  | .openObject => some (frames, .firstName)
  | _ => none

/-- Take a token in. -/
def Reading.step : Reading → Token → Option Reading
  | (frames, .value), t => beginValue frames t
  | (frames, .firstItem), .closeArray => some (complete (.array []) frames)
  | (frames, .firstItem), t => beginValue (.array [] :: frames) t
  | (frames, .afterItem items), .comma => some (.array items :: frames, .value)
  | (frames, .afterItem items), .closeArray =>
    some (complete (.array items.reverse) frames)
  | (frames, .firstName), .closeObject => some (complete (.object []) frames)
  | (frames, .firstName), .string s => some (frames, .colon [] s)
  | (frames, .name fields), .string s => some (frames, .colon fields s)
  | (frames, .colon fields name), .colon => some (.object fields name :: frames, .value)
  | (frames, .afterField fields), .comma => some (frames, .name fields)
  | (frames, .afterField fields), .closeObject =>
    some (complete (.object fields.reverse) frames)
  | _, _ => none

/-- Take tokens in. -/
def Reading.run (r : Reading) (ts : List Token) : Option Reading := ts.foldlM Reading.step r

/-- The value that a document is read as. -/
def Value.ofChars? (cs : List Char) : Option Value :=
  match (tokens? cs).bind (Reading.run ([], .value)) with
  | some ([], .nothing v) => some v
  | _ => none

/-- The value that a document is read as. -/
def Value.parse? (document : String) : Option Value := ofChars? document.toList

end DiagramRegistry.Json
