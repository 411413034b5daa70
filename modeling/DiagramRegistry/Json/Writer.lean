import DiagramRegistry.Json.Value

/-
# Writing JSON

Values are written without blanks.  In strings the quotation mark, the backslash and the
control characters below the blank are escaped, with the short forms where there are any and
four hexadecimal digits in small letters otherwise; all other characters stand for
themselves.
-/
namespace DiagramRegistry.Json

/-- A hexadecimal digit. -/
def hexDigit (n : Nat) : Char := Char.ofNat (if n < 10 then 48 + n else 87 + n)

/-- The written form of one character of a string. -/
def escape (c : Char) : List Char :=
  if c = '"' then ['\\', '"']
  else if c = '\\' then ['\\', '\\']
  else if c = '\x08' then ['\\', 'b']
  else if c = '\x0c' then ['\\', 'f']
  else if c = '\n' then ['\\', 'n']
  else if c = '\r' then ['\\', 'r']
  else if c = '\t' then ['\\', 't']
  else if c.toNat < 32 then
    ['\\', 'u', '0', '0', hexDigit (c.toNat / 16), hexDigit (c.toNat % 16)]
  else [c]

/-- The written form of a string. -/
def quoted (cs : List Char) : List Char := '"' :: cs.flatMap escape ++ ['"']

/-- The written form of a number. -/
def digits (n : Nat) : List Char := (toString n).toList

/-- The written form of the content of a string; what is no text is written as empty. -/
def contentText (s : Content) : List Char := quoted ((s.map String.toList).getD [])

mutual

/-- The written form of a value. -/
def Value.chars : Value → List Char
  | .null => "null".toList
  | .bool b => (if b then "true" else "false").toList
  | .number n => digits (n.getD 0)
  | .string s => contentText s
  | .array items => '[' :: itemsChars items ++ [']']
  | .object fields => '\x7b' :: fieldsChars fields ++ ['\x7d']

/-- The written form of the items of an array. -/
def itemsChars : List Value → List Char
  | [] => []
  | [v] => v.chars
  | v :: vs => v.chars ++ ',' :: itemsChars vs

/-- The written form of the fields of an object. -/
def fieldsChars : List (Content × Value) → List Char
  | [] => []
  | [(name, v)] => contentText name ++ ':' :: v.chars
  | (name, v) :: fs => contentText name ++ ':' :: v.chars ++ ',' :: fieldsChars fs

end

/-- The written form of a value. -/
def Value.write (v : Value) : String := String.ofList v.chars

/-- Insert a field into fields ordered by name, after its equals. -/
def insertField (f : Content × Value) : List (Content × Value) → List (Content × Value)
  | [] => [f]
  | g :: gs =>
    if f.1.getD "" < g.1.getD "" then f :: g :: gs else g :: insertField f gs

mutual

/-- A value with the fields of all its objects in the order of their names. -/
def Value.sorted : Value → Value
  | .array items => .array (sortedItems items)
  | .object fields => .object (sortedFields fields)
  | v => v

/-- Values with sorted fields. -/
def sortedItems : List Value → List Value
  | [] => []
  | v :: vs => v.sorted :: sortedItems vs

/-- Fields with sorted values, in the order of their names. -/
def sortedFields : List (Content × Value) → List (Content × Value)
  | [] => []
  | (name, v) :: fs => insertField (name, v.sorted) (sortedFields fs)

end

end DiagramRegistry.Json
