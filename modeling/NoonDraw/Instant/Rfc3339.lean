import NoonDraw.Instant
import NoonDraw.Text.Blank
import NoonDraw.Text.Digits

/-!
# Instants as text

Instants are written as RFC 3339 date-times in UTC. The fraction of the second has no digits, three,
six or nine, the fewest that are exact. A leap second is written as second 60. A year outside 0 to
9999 has a sign and at least four digits.

Reading is more generous. Fields may have fewer digits than written, a year with a sign may have
more, blanks may stand before a number and around the marks between numbers, `T` may be in lower case
or a space, digits of the fraction after the ninth are dropped, and any offset from UTC below a day is
taken into account. Years reach from -262143 to 262142, both at the offset and in UTC.

## Main definitions

* `Instant.toRfc3339`: such as `2021-09-06T09:00:00.500Z`.
* `Instant.toPlain`: the same parts as `2021-09-06 09:00:00.500 UTC`.
* `Instant.ofRfc3339?`: reads a date-time.
-/

namespace NoonDraw

open NoonDraw.Text

/-- A time of day, to the nanosecond. The nanoseconds of a leap second run on past its first. -/
structure ClockTime where
  /-- The hour, from 0. -/
  hour : Nat
  /-- The minute, from 0. -/
  minute : Nat
  /-- The second, from 0 to 59. -/
  second : Nat
  /-- Nanoseconds after the second. -/
  nanos : Nat
  deriving DecidableEq

namespace ClockTime

/-- Seconds since midnight. -/
def secondOfDay (c : ClockTime) : Nat := c.hour * 3600 + c.minute * 60 + c.second

/-- The digits of a fraction of a second: none, three, six or nine. -/
def fraction (nanos : Nat) : List Char :=
  if nanos = 0 then []
  else if nanos % 1000000 = 0 then '.' :: Digits.fixedWidth 10 3 (nanos / 1000000)
  else if nanos % 1000 = 0 then '.' :: Digits.fixedWidth 10 6 (nanos / 1000)
  else '.' :: Digits.fixedWidth 10 9 nanos

/-- Hours, minutes and seconds with the fewest exact digits, a leap second as second 60. -/
def toChars (c : ClockTime) : List Char :=
  let leap := 1000000000 ≤ c.nanos
  Digits.fixedWidth 10 2 c.hour ++ ':' :: Digits.fixedWidth 10 2 c.minute ++
    ':' :: Digits.fixedWidth 10 2 (if leap then c.second + 1 else c.second) ++
      fraction (if leap then c.nanos - 1000000000 else c.nanos)

end ClockTime

namespace Date

/-- The year has four digits, or a sign and at least four. -/
def yearChars (year : Int) : List Char :=
  if 0 ≤ year ∧ year ≤ 9999 then Digits.fixedWidth 10 4 year.toNat
  else (if year < 0 then '-' else '+') :: Digits.padded 4 year.natAbs

/-- Year, month and day, joined by hyphens. -/
def toChars (d : Date) : List Char :=
  yearChars d.year ++ '-' :: Digits.fixedWidth 10 2 d.month ++ '-' :: Digits.fixedWidth 10 2 d.day

end Date

namespace Instant

/-- The date of an instant in UTC. -/
def date (t : Instant) : Date := .ofDay (t.localDay .utc)

/-- The time of day of an instant in UTC. -/
def clockTime (t : Instant) : ClockTime :=
  let second := (t.seconds % 86400).toNat
  ⟨second / 3600, second / 60 % 60, second % 60, t.nanos⟩

/-- An instant as an RFC 3339 date-time in UTC. -/
def toRfc3339 (t : Instant) : String :=
  String.ofList (t.date.toChars ++ 'T' :: t.clockTime.toChars ++ ['Z'])

/-- An instant as date, time and the name of UTC, with spaces between. -/
def toPlain (t : Instant) : String :=
  String.ofList (t.date.toChars ++ ' ' :: t.clockTime.toChars ++ " UTC".toList)

end Instant

/-! ### Reading -/

namespace DateTimeReader

/-- Reads a part of a text from its front, and fails on a text that does not start with one. -/
abbrev Reader := StateT (List Char) Option

/-- Skips blanks. -/
def blanks : Reader Unit := modify dropBlanks

/-- Reads one given character. -/
def mark (c : Char) : Reader Unit := fun
  | [] => none
  | d :: rest => if d = c then some ((), rest) else none

/-- Reads a number of at least one digit and, with a width, of at most so many. -/
def number (width : Option Nat) : Reader Nat := fun cs =>
  let ds := (match width with | some w => cs.take w | none => cs).takeWhile Digits.isDecimal
  if ds.isEmpty then none else (Digits.value? 10 ds).map (·, cs.drop ds.length)

/-- Reads a number of one or two digits, at most `most`, after blanks. -/
def field (most : Nat) : Reader Nat := do
  blanks
  let n ← number (some 2)
  guard (n ≤ most)
  return n

/-- Reads a year: up to four digits, or any number of them after a sign. -/
def year : Reader Int := do
  blanks
  match (← get).head? with
  | some '-' => set ((← get).drop 1); return -(← number none)
  | some '+' => set ((← get).drop 1); return (← number none)
  | _ => return (← number (some 4))

/-- Reads a mark between two numbers, with blanks before it. -/
def separator (c : Char) : Reader Unit := do
  blanks
  mark c

/-- Reads year, month and day. -/
def date : Reader Date := do
  let y ← year
  separator '-'
  let m ← field 12
  separator '-'
  let d ← field 31
  return ⟨y, m, d⟩

/-- Reads the fraction of a second, if there is one, in nanoseconds. Digits after the ninth are
skipped. -/
def fraction : Reader Nat := fun
  | '.' :: cs => do
    let (n, rest) ← number (some 9) cs
    return (n * Nat.pow 10 (9 - (cs.length - rest.length)), rest.dropWhile Digits.isDecimal)
  | cs => some (0, cs)

/-- Reads hours, minutes and seconds. Second 60 is the leap second after second 59. -/
def clockTime : Reader ClockTime := do
  let h ← field 23
  separator ':'
  let m ← field 59
  separator ':'
  let s ← field 60
  let nanos ← fraction
  return if s = 60 then ⟨h, m, 59, nanos + 1000000000⟩ else ⟨h, m, s, nanos⟩

/-- Reads exactly two digits. -/
def twoDigits : Reader Nat := fun cs =>
  if cs.length < 2 then none else (Digits.value? 10 (cs.take 2)).map (·, cs.drop 2)

/-- Reads an offset from UTC in seconds: hours and minutes after a sign, or a name of UTC itself. -/
def offset : Reader Int := fun cs =>
  if cs.head? = some 'Z' ∨ cs.head? = some 'z' then some (0, cs.drop 1)
  else if (cs.take 3).map Char.toUpper = ['U', 'T', 'C'] then some (0, cs.drop 3)
  else do
    let sign : Int ← match cs.head? with
      | some '+' => some 1
      | some '-' | some '\u2212' => some (-1)
      | _ => none
    let (h, rest) ← twoDigits (cs.drop 1)
    let (m, rest) ← twoDigits (rest.dropWhile fun c => c = ':' ∨ isBlank c)
    if m < 60 then some (sign * (h * 3600 + m * 60 : Nat), rest) else none

/-- The mark between date and time: `T` in either case, or a space. -/
def dateEnd : Reader Unit := fun
  | [] => none
  | c :: rest => if c = 'T' ∨ c = 't' ∨ c = ' ' then some ((), rest) else none

/-- Reads a date-time up to its offset: a date, a time of day and the offset in seconds. -/
def dateTime : Reader (Date × ClockTime × Int) := do
  let d ← date
  dateEnd
  let c ← clockTime
  blanks
  return (d, c, ← offset)

end DateTimeReader

namespace Instant

/-- Whether a day lies in the years -262143 to 262142. -/
def inRange (d : Day) : Bool :=
  Calendar.yearStart (-262143) ≤ d.number ∧ d.number < Calendar.yearStart 262143

/-- The instant at which clocks at an offset show a date and a time, if all of them exist and are in
range. -/
def ofLocal? (d : Date) (c : ClockTime) (offset : Int) : Option Instant := do
  let day ← d.toDay?
  let _ ← UtcOffset.ofSeconds? offset
  let seconds := day.number * 86400 + c.secondOfDay - offset
  if inRange day ∧ inRange ⟨seconds / 86400⟩ then ofUnix? seconds c.nanos else none

/-- Reads a date-time, with blanks after it. -/
def ofRfc3339? (s : String) : Option Instant := do
  let ((d, c, offset), rest) ← DateTimeReader.dateTime s.toList
  if (dropBlanks rest).isEmpty then ofLocal? d c offset else none

end Instant

end NoonDraw
