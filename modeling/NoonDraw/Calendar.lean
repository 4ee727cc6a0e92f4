import NoonDraw.Table

/-!
# Days, dates and weeks

The proleptic Gregorian calendar over all integers: a `Day` is a number of days since 1 January 1970,
a `Date` its year, month and day of the month, an `IsoWeek` its week by the rule of ISO 8601.

## Main definitions

* `Calendar.yearStart`: the day number of 1 January of a year, in closed form.
* `Calendar.yearOf`: the year a day falls in, estimated by the mean length of a year and corrected by
  at most one.
* `Date.ofDay`, `Date.toDay?`: a day as a date and back.
* `IsoWeek.ofDay`: a week belongs to the year that holds its Thursday, and is numbered by that day.

`yearStart_yearOf_le` and `lt_yearStart_yearOf_succ` pin the year of a day down.
-/

namespace NoonDraw

/-- A calendar day, counted from 1 January 1970. -/
structure Day where
  /-- Days since 1 January 1970. -/
  number : Int
  deriving DecidableEq, Inhabited

instance : Key Day := Key.onReading Day.number fun ⟨_⟩ ⟨_⟩ h => congrArg _ h

namespace Calendar

/-- Every fourth year is a leap year, except for centuries that four hundred does not divide. -/
def isLeap (year : Int) : Bool := year % 4 = 0 ∧ (year % 100 ≠ 0 ∨ year % 400 = 0)

/-- The day number of 1 January: 365 days a year and one for every leap year before. -/
def yearStart (year : Int) : Int :=
  365 * (year - 1970) + (year - 1) / 4 - (year - 1) / 100 + (year - 1) / 400 - 477

/-- The year that a day falls in. Four centuries have 146097 days; the estimate by that mean is off
by at most one. -/
def yearOf (day : Int) : Int :=
  let guess := 400 * day / 146097 + 1970
  if day < yearStart guess then guess - 1
  else if yearStart (guess + 1) ≤ day then guess + 1
  else guess

theorem yearStart_yearOf_le (day : Int) : yearStart (yearOf day) ≤ day := by
  unfold yearOf
  simp only
  split
  · unfold yearStart at *; omega
  · split
    · assumption
    · omega

theorem lt_yearStart_yearOf_succ (day : Int) : day < yearStart (yearOf day + 1) := by
  unfold yearOf
  simp only
  split
  · rwa [Int.sub_add_cancel]
  · split
    · unfold yearStart at *; omega
    · omega

theorem yearStart_succ (year : Int) :
    yearStart (year + 1) = yearStart year + if isLeap year then 366 else 365 := by
  unfold yearStart isLeap
  split <;> simp_all <;> omega

/-- The lengths of the months of a year. -/
def monthLengths (leap : Bool) : List Nat :=
  [31, if leap then 29 else 28, 31, 30, 31, 30, 31, 31, 30, 31, 30, 31]

/-- Splits a day of the year, counted from zero, by the month it falls in: the month after `before`
full months, and the day of that month from one. -/
def monthAndDay (before : Nat) : List Nat → Nat → Nat × Nat
  | [], n => (before + 1, n + 1)
  | length :: rest, n =>
    if n < length then (before + 1, n + 1) else monthAndDay (before + 1) rest (n - length)

end Calendar

/-- A date of the calendar. -/
structure Date where
  /-- The year; the year before 1 is 0. -/
  year : Int
  /-- The month, from 1. -/
  month : Nat
  /-- The day of the month, from 1. -/
  day : Nat
  deriving DecidableEq

namespace Date

open Calendar

/-- The date of a day. -/
def ofDay (d : Day) : Date :=
  let year := yearOf d.number
  let (month, day) := monthAndDay 0 (monthLengths (isLeap year)) (d.number - yearStart year).toNat
  ⟨year, month, day⟩

/-- Whether the month exists and has the day. -/
def isValid (d : Date) : Bool :=
  match (monthLengths (isLeap d.year))[d.month - 1]? with
  | some length => 1 ≤ d.month ∧ 1 ≤ d.day ∧ d.day ≤ length
  | none => false

/-- The day of a date that exists. -/
def toDay? (d : Date) : Option Day :=
  if d.isValid then
    let before : Nat := ((monthLengths (isLeap d.year)).take (d.month - 1)).foldl (· + ·) 0
    some ⟨yearStart d.year + before + (d.day - 1 : Nat)⟩
  else none

end Date

/-- A week of the calendar, as ISO 8601 numbers it. -/
structure IsoWeek where
  /-- The year that the week is counted in, which holds its Thursday. -/
  year : Int
  /-- The number of the week in that year, from 1. -/
  number : Int
  deriving DecidableEq

namespace IsoWeek

/-- The Thursday of the week from Monday to Sunday that holds a day. Day 0 is a Thursday. -/
def thursday (d : Day) : Int := d.number - (d.number + 3) % 7 + 3

/-- The week that holds a day. -/
def ofDay (d : Day) : IsoWeek :=
  let year := Calendar.yearOf (thursday d)
  ⟨year, (thursday d - Calendar.yearStart year) / 7 + 1⟩

end IsoWeek

end NoonDraw
