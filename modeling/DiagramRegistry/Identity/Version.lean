/-
# Versions

A version is written `major.minor.patch`, optionally followed by a hyphen and a prerelease
of dot-separated identifiers, as semantic versioning 2.0.0 lays down.  Build metadata is not
accepted.  The three numbers are written without superfluous zeros and fit into 64 bits.
-/
namespace DiagramRegistry

/-- A version of a diagram.  The prerelease is empty when there is none. -/
structure Version where
  /-- The first number. -/
  major : Nat
  /-- The second number. -/
  minor : Nat
  /-- The third number. -/
  patch : Nat
  /-- The text after the hyphen. -/
  prerelease : String
deriving DecidableEq, Repr

namespace Version

/-- A number is written without a zero in front, and fits into 64 bits. -/
def number? (cs : List Char) : Option Nat :=
  if cs = [] then none
  else if 1 < cs.length ∧ cs.head? = some '0' then none
  else
    let n := Nat.ofDigitChars 10 cs 0
    if n < UInt64.size then some n else none

/-- A number at the head of a text, and what follows it. -/
def leadingNumber? (cs : List Char) : Option (Nat × List Char) :=
  (number? (cs.takeWhile Char.isDigit)).map fun n => (n, cs.dropWhile Char.isDigit)

/-- A number at the head of a text, a dot, and what follows the dot. -/
def numberThenDot? (cs : List Char) : Option (Nat × List Char) :=
  match leadingNumber? cs with
  | some (n, '.' :: rest) => some (n, rest)
  | _ => none

/-- One identifier of a prerelease: letters, digits and hyphens, and a number has no zero in
front. -/
def isPrereleasePart (cs : List Char) : Bool :=
  cs ≠ [] && cs.all (fun c => c.isAlphanum || c == '-') &&
    !(cs.all Char.isDigit && 1 < cs.length && cs.head? == some '0')

/-- A prerelease is a dot-separated sequence of such identifiers. -/
def isPrerelease (cs : List Char) : Bool := (cs.splitOn '.').all isPrereleasePart

/-- What may follow the three numbers: nothing, or a hyphen and a prerelease. -/
def prerelease? : List Char → Option String
  | [] => some ""
  | c :: cs => if c = '-' ∧ isPrerelease cs then some (String.ofList cs) else none

/-- Read a version. -/
def ofChars? (cs : List Char) : Option Version := do
  let (major, cs) ← numberThenDot? cs
  let (minor, cs) ← numberThenDot? cs
  let (patch, cs) ← leadingNumber? cs
  let prerelease ← prerelease? cs
  return ⟨major, minor, patch, prerelease⟩

/-- Read a version. -/
def parse? (text : String) : Option Version := ofChars? text.toList

/-- The written form of a version. -/
def text (v : Version) : String :=
  let core := s!"{v.major}.{v.minor}.{v.patch}"
  if v.prerelease = "" then core else s!"{core}-{v.prerelease}"

end Version

/-- The texts that are versions. -/
def isVersion (text : String) : Bool := (Version.parse? text).isSome

end DiagramRegistry
