import DiagramRegistry.Text.Blank
import DiagramRegistry.Time.Instant

/-
# Written times

Times are written as RFC 3339 lays down, in UTC, with the fewest groups of three digits that
give the fraction of a second exactly.  The zone is written as `Z`, or for people as an offset.
The reader is more liberal: blanks may stand around the fields, a blank may separate date and
time, fields may have fewer digits, and the zone may be `Z`, `UTC` or a signed offset, with or
without a colon.
-/
namespace DiagramRegistry.Instant

open Text

/-! ## Writing -/

/-- A number with zeros in front, up to a width. -/
def padded (width n : Nat) : String :=
  let digits := toString n
  String.ofList (List.replicate (width - digits.length) '0') ++ digits

/-- A year of four digits; a year that needs more digits or is negative carries its sign. -/
def yearText (year : Int) : String :=
  if 0 ≤ year ∧ year ≤ 9999 then padded 4 year.toNat
  else if year < 0 then "-" ++ padded 4 year.natAbs
  else "+" ++ padded 4 year.natAbs

/-- The fraction of a second, in milli-, micro- or nanoseconds. -/
def fractionText (nanoseconds : Nat) : String :=
  if nanoseconds = 0 then ""
  else if nanoseconds % 1000000 = 0 then "." ++ padded 3 (nanoseconds / 1000000)
  else if nanoseconds % 1000 = 0 then "." ++ padded 6 (nanoseconds / 1000)
  else "." ++ padded 9 nanoseconds

/-- The date and the time of day of an instant, in UTC and without a zone. -/
def writeUnzoned (t : Instant) : String :=
  let d := t.date
  let s := t.secondOfDay
  let leap := t.nanoseconds / 1000000000
  s!"{yearText d.year}-{padded 2 d.month}-{padded 2 d.day}T" ++
    s!"{padded 2 (s / 3600)}:{padded 2 (s / 60 % 60)}:{padded 2 (s % 60 + leap)}" ++
    fractionText (t.nanoseconds % 1000000000)

/-- The written form of an instant. -/
def write (t : Instant) : String := t.writeUnzoned ++ "Z"

/-- The form in which instants are shown to people, with the zone as an offset. -/
def display (t : Instant) : String := t.writeUnzoned ++ "+00:00"

/-! ## Reading -/

/-- A number of one digit to a greatest number of digits. -/
def number? (most : Nat) (cs : List Char) : Option (Nat × List Char) :=
  let digits := (cs.take most).takeWhile Char.isDigit
  if digits = [] then none else some (Nat.ofDigitChars 10 digits 0, cs.drop digits.length)

/-- A field of a date or a time: blanks and one or two digits, of a value in a range. -/
def field? (least greatest : Nat) (cs : List Char) : Option (Nat × List Char) := do
  let (n, rest) ← number? 2 (trimStart cs)
  if least ≤ n ∧ n ≤ greatest then some (n, rest) else none

/-- A separator with blanks in front. -/
def separator? (c : Char) (cs : List Char) : Option (List Char) :=
  match trimStart cs with
  | [] => none
  | d :: rest => if d = c then some rest else none

/-- A year: up to four digits, or a sign and any number of digits. -/
def year? (cs : List Char) : Option (Int × List Char) :=
  match trimStart cs with
  | '-' :: rest => (number? rest.length rest).map fun p => (-(p.1 : Int), p.2)
  | '+' :: rest => (number? rest.length rest).map fun p => ((p.1 : Int), p.2)
  | rest => (number? 4 rest).map fun p => ((p.1 : Int), p.2)

/-- A fraction of a second, in nanoseconds.  Digits after the ninth are dropped. -/
def fraction? : List Char → Option (Nat × List Char)
  | '.' :: cs =>
    let digits := cs.takeWhile Char.isDigit
    let nine := digits.take 9
    if digits = [] then none
    else some (Nat.ofDigitChars 10 nine 0 * Nat.pow 10 (9 - nine.length), cs.drop digits.length)
  | cs => some (0, cs)

/-- Two digits exactly. -/
def twoDigits? : List Char → Option (Nat × List Char)
  | a :: b :: cs =>
    if a.isDigit && b.isDigit then some (Nat.ofDigitChars 10 [a, b] 0, cs) else none
  | _ => none

/-- A signed offset of hours and minutes, in seconds. -/
def offset? (cs : List Char) : Option (Int × List Char) := do
  let (sign, cs) ← match cs with
    | '+' :: cs => some ((1 : Int), cs)
    | '-' :: cs => some ((-1 : Int), cs)
    | '\u2212' :: cs => some ((-1 : Int), cs)
    | _ => none
  let (hours, cs) ← twoDigits? cs
  let (minutes, cs) ← twoDigits? (cs.dropWhile fun c => c == ':' || isBlank c)
  if minutes < 60 then some (sign * (hours * 3600 + minutes * 60 : Nat), cs) else none

/-- The zone of a time, as an offset from UTC in seconds. -/
def zone? (cs : List Char) : Option (Int × List Char) :=
  if ((cs.take 3).map Char.toUpper) = "UTC".toList then some (0, cs.drop 3)
  else match cs with
    | 'Z' :: cs => some (0, cs)
    | 'z' :: cs => some (0, cs)
    | cs => offset? cs

/-- The date and the time of day are separated by a `T` or a blank. -/
def dateEnd? : List Char → Option (List Char)
  | c :: cs => if c == 'T' || c == 't' || c == ' ' then some cs else none
  | [] => none

/-- The years that a calendar date may have. -/
def isKnownYear (year : Int) : Bool := -262143 ≤ year ∧ year ≤ 262142

/-- Read a written time. -/
def parse? (text : String) : Option Instant := do
  let (year, cs) ← year? text.toList
  let cs ← separator? '-' cs
  let (month, cs) ← field? 1 12 cs
  let cs ← separator? '-' cs
  let (day, cs) ← field? 1 31 cs
  let cs ← dateEnd? cs
  let (hour, cs) ← field? 0 23 cs
  let cs ← separator? ':' cs
  let (minute, cs) ← field? 0 59 cs
  let cs ← separator? ':' cs
  let (second, cs) ← field? 0 60 cs
  let (fraction, cs) ← fraction? cs
  let (offset, cs) ← zone? (trimStart cs)
  let date : Date := ⟨year, month, day⟩
  let leap := second / 60
  let local? := date.toDays * 86400 + (hour * 3600 + minute * 60 + (second - leap) : Nat)
  let t : Instant := ⟨local? - offset, fraction + leap * 1000000000⟩
  if trimStart cs = [] ∧ date.isValid ∧ isKnownYear year ∧ isKnownYear t.date.year ∧
      -86400 < offset ∧ offset < 86400 then some t else none

example : (parse? "2024-02-29T23:59:60.5+01:00").map write = some "2024-02-29T22:59:60.500Z" := by
  decide +kernel
example : parse? "2023-02-29T00:00:00Z" = none := by decide +kernel

end DiagramRegistry.Instant
