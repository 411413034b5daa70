import DiagramRegistry.Json.Value

/-
# The tokens of a JSON document

A document is first cut into tokens: punctuation, literals, numbers and strings, with blanks
between them.  The cut fails at a character that starts no token and at a token that is
malformed.
-/
namespace DiagramRegistry.Json

/-- A token of a JSON document. -/
inductive Token where
  /-- Opens an array. -/
  | openArray
  /-- Closes an array. -/
  | closeArray
  /-- Opens an object. -/
  | openObject
  /-- Closes an object. -/
  | closeObject
  /-- Stands between the name and the value of a field. -/
  | colon
  /-- Stands between items and between fields. -/
  | comma
  /-- A value that is one token: a literal or a number. -/
  | atom (v : Value)
  /-- A string, which is a value or the name of a field. -/
  | string (s : Content)
deriving Repr

/-- The blanks of JSON, which are fewer than those of a text. -/
def isSpace (c : Char) : Bool := c == ' ' || c == '\t' || c == '\n' || c == '\r'

/-! ## Strings

A string is read as a sequence of code units: characters that stand for themselves and
surrogates given by escapes.  Two halves of a surrogate pair make a character; a half alone
makes the string no text. -/

/-- A part of a string: a character, or a surrogate given by its escape. -/
inductive Unit16 where
  /-- A character. -/
  | char (c : Char)
  /-- Half of a surrogate pair. -/
  | surrogate (n : Nat)
deriving DecidableEq, Repr

/-- The value of a hexadecimal digit. -/
def hexValue? (c : Char) : Option Nat :=
  if c.isDigit then some (c.toNat - 48)
  else if 'a' ≤ c ∧ c ≤ 'f' then some (c.toNat - 87)
  else if 'A' ≤ c ∧ c ≤ 'F' then some (c.toNat - 55)
  else none

/-- The value of four hexadecimal digits. -/
def hexValue4? (a b c d : Char) : Option Nat := do
  let a ← hexValue? a
  let b ← hexValue? b
  let c ← hexValue? c
  let d ← hexValue? d
  return ((a * 16 + b) * 16 + c) * 16 + d

/-- What a short escape stands for. -/
def shortEscape? (c : Char) : Option Char :=
  if c = '"' then some '"'
  else if c = '\\' then some '\\'
  else if c = '/' then some '/'
  else if c = 'b' then some '\x08'
  else if c = 'f' then some '\x0c'
  else if c = 'n' then some '\n'
  else if c = 'r' then some '\r'
  else if c = 't' then some '\t'
  else none

/-- The part of a string that an escape with a number stands for. -/
def unitOf (n : Nat) : Unit16 :=
  if 0xD800 ≤ n ∧ n < 0xE000 then .surrogate n else .char (Char.ofNat n)

/-- The parts of a string after the opening quotation mark, and what follows the closing
one. -/
def stringUnits? : List Char → Option (List Unit16 × List Char)
  | '"' :: cs => some ([], cs)
  | '\\' :: 'u' :: a :: b :: c :: d :: cs => do
    let n ← hexValue4? a b c d
    let (units, rest) ← stringUnits? cs
    return (unitOf n :: units, rest)
  | '\\' :: c :: cs => do
    let x ← shortEscape? c
    let (units, rest) ← stringUnits? cs
    return (.char x :: units, rest)
  | c :: cs =>
    if c.toNat < 32 then none
    else (stringUnits? cs).map fun p => (.char c :: p.1, p.2)
  | [] => none

/-- The characters that the parts of a string make, if they make a text. -/
def joinUnits? : List Unit16 → Option (List Char)
  | [] => some []
  | .char c :: us => (joinUnits? us).map (c :: ·)
  | .surrogate high :: .surrogate low :: us =>
    if high < 0xDC00 ∧ 0xDC00 ≤ low then
      (joinUnits? us).map
        (Char.ofNat (0x10000 + (high - 0xD800) * 0x400 + (low - 0xDC00)) :: ·)
    else none
  | .surrogate _ :: _ => none

/-- The content of a string after the opening quotation mark, and what follows it. -/
def stringToken? (cs : List Char) : Option (Token × List Char) :=
  (stringUnits? cs).map fun p => (.string ((joinUnits? p.1).map String.ofList), p.2)

/-! ## Numbers -/

/-- Whole digits: a zero alone, or digits that do not start with one. -/
def wholeDigits? (cs : List Char) : Option (List Char × List Char) :=
  let ds := cs.takeWhile Char.isDigit
  if ds = [] ∨ (1 < ds.length ∧ ds.head? = some '0') then none
  else some (ds, cs.dropWhile Char.isDigit)

/-- At least one digit. -/
def someDigits? (cs : List Char) : Option (List Char) :=
  if cs.takeWhile Char.isDigit = [] then none else some (cs.dropWhile Char.isDigit)

/-- What follows a fraction, if there is one; whether there is one. -/
def fraction? : List Char → Option (Bool × List Char)
  | '.' :: cs => (someDigits? cs).map (true, ·)
  | cs => some (false, cs)

/-- What follows the sign of an exponent. -/
def afterSign : List Char → List Char
  | '+' :: cs => cs
  | '-' :: cs => cs
  | cs => cs

/-- What follows an exponent, if there is one; whether there is one. -/
def exponent? : List Char → Option (Bool × List Char)
  | c :: cs =>
    if c = 'e' ∨ c = 'E' then (someDigits? (afterSign cs)).map (true, ·)
    else some (false, c :: cs)
  | [] => some (false, [])

/-- A number without its sign.  Only one without fraction and exponent is natural. -/
def unsignedNumber? (cs : List Char) : Option (Option Nat × List Char) := do
  let (ds, cs) ← wholeDigits? cs
  let (fraction, cs) ← fraction? cs
  let (exponent, cs) ← exponent? cs
  return (if fraction || exponent then none else some (Nat.ofDigitChars 10 ds 0), cs)

/-- A number. -/
def numberToken? : List Char → Option (Token × List Char)
  | '-' :: cs => (unsignedNumber? cs).map fun p => (.atom (.number none), p.2)
  | cs => (unsignedNumber? cs).map fun p => (.atom (.number p.1), p.2)

/-! ## All tokens -/

/-- The token at the head of a text that starts with no blank, and what follows it. -/
def token? : List Char → Option (Token × List Char)
  | '[' :: cs => some (.openArray, cs)
  | ']' :: cs => some (.closeArray, cs)
  | '\x7b' :: cs => some (.openObject, cs)
  | '\x7d' :: cs => some (.closeObject, cs)
  | ':' :: cs => some (.colon, cs)
  | ',' :: cs => some (.comma, cs)
  | '"' :: cs => stringToken? cs
  | 'n' :: 'u' :: 'l' :: 'l' :: cs => some (.atom .null, cs)
  | 't' :: 'r' :: 'u' :: 'e' :: cs => some (.atom (.bool true), cs)
  | 'f' :: 'a' :: 'l' :: 's' :: 'e' :: cs => some (.atom (.bool false), cs)
  | cs => numberToken? cs

/-- The tokens of a document.  Every token takes at least one character, so a document has
no more tokens than characters, which is what `limit` counts. -/
def tokensWithin? : (limit : Nat) → List Char → Option (List Token)
  | 0, cs => if cs = [] then some [] else none
  | limit + 1, cs =>
    match cs with
    | [] => some []
    | c :: cs =>
      if isSpace c then tokensWithin? limit cs
      else
        match token? (c :: cs) with
        | none => none
        | some (t, rest) => (tokensWithin? limit rest).map (t :: ·)

/-- The tokens of a document. -/
def tokens? (cs : List Char) : Option (List Token) := tokensWithin? cs.length cs

end DiagramRegistry.Json
