/-
# Instants and the civil calendar

An instant is a number of seconds since the beginning of 1970 in UTC and a number of
nanoseconds.  A leap second is an instant of the second before it, with a whole second of
nanoseconds added.  The calendar is the Gregorian one, extended to all years; its dates are
numbered by counting years from March on, so that the leap day comes last.
-/
namespace DiagramRegistry

/-- A point in time. -/
structure Instant where
  /-- The seconds since the beginning of 1970, in UTC. -/
  seconds : Int
  /-- The nanoseconds on top; a whole second and more of them in a leap second. -/
  nanoseconds : Nat
deriving DecidableEq, Repr

/-- A date of the Gregorian calendar. -/
structure Date where
  /-- The year; the year before the first is zero. -/
  year : Int
  /-- The month, from one. -/
  month : Nat
  /-- The day of the month, from one. -/
  day : Nat
deriving DecidableEq, Repr

namespace Date

/-- The years with a leap day. -/
def isLeapYear (year : Int) : Bool := year % 4 = 0 ∧ (year % 100 ≠ 0 ∨ year % 400 = 0)

/-- The number of days of a month. -/
def daysInMonth (year : Int) (month : Nat) : Nat :=
  if month = 2 then if isLeapYear year then 29 else 28
  else if month ∈ [4, 6, 9, 11] then 30 else 31

/-- The month and the day exist in the calendar. -/
def isValid (d : Date) : Bool :=
  1 ≤ d.month && d.month ≤ 12 && 1 ≤ d.day && d.day ≤ daysInMonth d.year d.month

/-- The number of days from the beginning of 1970 to a date.  A year is counted from March
on; four hundred years have 146097 days. -/
def toDays (d : Date) : Int :=
  let y : Int := if d.month ≤ 2 then d.year - 1 else d.year
  let era := y / 400
  let yearOfEra := y % 400
  let monthFromMarch : Int := if d.month ≤ 2 then (d.month : Int) + 9 else (d.month : Int) - 3
  let dayOfYear := (153 * monthFromMarch + 2) / 5 + ((d.day : Int) - 1)
  let dayOfEra := yearOfEra * 365 + yearOfEra / 4 - yearOfEra / 100 + dayOfYear
  era * 146097 + dayOfEra - 719468

/-- The date that many days after the beginning of 1970. -/
def ofDays (days : Int) : Date :=
  let z := days + 719468
  let era := z / 146097
  let dayOfEra := z % 146097
  let yearOfEra :=
    (dayOfEra - dayOfEra / 1460 + dayOfEra / 36524 - dayOfEra / 146096) / 365
  let dayOfYear := dayOfEra - (365 * yearOfEra + yearOfEra / 4 - yearOfEra / 100)
  let monthFromMarch := (5 * dayOfYear + 2) / 153
  let day := dayOfYear - (153 * monthFromMarch + 2) / 5 + 1
  let month := if monthFromMarch < 10 then monthFromMarch + 3 else monthFromMarch - 9
  let year := yearOfEra + era * 400 + (if month ≤ 2 then 1 else 0)
  ⟨year, month.toNat, day.toNat⟩

example : toDays ⟨1970, 1, 1⟩ = 0 ∧ toDays ⟨2000, 2, 29⟩ = 11016 := by decide
example : ofDays 11016 = ⟨2000, 2, 29⟩ ∧ ofDays (-1) = ⟨1969, 12, 31⟩ := by decide

end Date

namespace Instant

/-- The date of an instant, in UTC. -/
def date (t : Instant) : Date := Date.ofDays (t.seconds / 86400)

/-- The seconds since midnight, in UTC. -/
def secondOfDay (t : Instant) : Nat := (t.seconds % 86400).toNat

end Instant

end DiagramRegistry
