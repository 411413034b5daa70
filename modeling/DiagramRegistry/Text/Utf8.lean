/-
# Characters and bytes

A character is encoded in one to four bytes.  Bytes are decoded one after the other: a byte
begins a character, or goes on with one that is unfinished.  Bytes that are no character are
not refused.  In their place stands one replacement character for each longest beginning of a
character, and for each byte that begins none.
-/
namespace DiagramRegistry.Utf8

/-- The bytes of characters. -/
def encoded (cs : List Char) : List UInt8 := cs.flatMap String.utf8EncodeChar

/-- What stands for bytes that are no character. -/
def replacement : Char := '\uFFFD'

/-- A character of which some bytes have been read, and at least one has not. -/
structure Unfinished where
  /-- The least value of the next byte. -/
  low : Nat
  /-- The greatest value of the next byte. -/
  high : Nat
  /-- The number of bytes that come after the next one. -/
  further : Nat
  /-- The bits that have been read. -/
  bits : Nat
deriving DecidableEq, Repr

/-- The characters that a byte completes when none is unfinished, and the one that it begins.
The bounds of the second byte leave out surrogates, numbers beyond the last character, and
numbers for which fewer bytes are enough. -/
def first (b : Nat) : List Char × Option Unfinished :=
  if b ≤ 0x7F then ([Char.ofNat b], none)
  else if b < 0xC2 then ([replacement], none)
  else if b ≤ 0xDF then ([], some ⟨0x80, 0xBF, 0, b - 0xC0⟩)
  else if b ≤ 0xEF then
    ([], some ⟨if b = 0xE0 then 0xA0 else 0x80, if b = 0xED then 0x9F else 0xBF, 1, b - 0xE0⟩)
  else if b ≤ 0xF4 then
    ([], some ⟨if b = 0xF0 then 0x90 else 0x80, if b = 0xF4 then 0x8F else 0xBF, 2, b - 0xF0⟩)
  else ([replacement], none)

/-- The characters that a byte completes, and the one that is unfinished after it.  A byte that
does not go on with a character ends it early, and is read as a first byte. -/
def step : Option Unfinished → Nat → List Char × Option Unfinished
  | none, b => first b
  | some u, b =>
    if u.low ≤ b ∧ b ≤ u.high then
      let bits := u.bits * 0x40 + (b - 0x80)
      match u.further with
      | 0 => ([Char.ofNat bits], none)
      | further + 1 => ([], some ⟨0x80, 0xBF, further, bits⟩)
    else (replacement :: (first b).1, (first b).2)

/-- The characters that bytes are read as, behind an unfinished character. -/
def decodeBehind : Option Unfinished → List UInt8 → List Char
  | none, [] => []
  | some _, [] => [replacement]
  | u, b :: bs => (step u b.toNat).1 ++ decodeBehind (step u b.toNat).2 bs

/-- The characters that bytes are read as. -/
def decode (bs : List UInt8) : List Char := decodeBehind none bs

example : decode [0x61, 0xFF, 0xF0, 0x9F, 0x98, 0xC3, 0xA9] = ['a', '\uFFFD', '\uFFFD', 'é'] := by
  decide

end DiagramRegistry.Utf8
