import NoonDraw.Calendar

/-!
# Instants

An `Instant` is a count of seconds since the start of 1970 in UTC and a count of nanoseconds after
that second. Nanoseconds count forward also before 1970, and those of a leap second run on past the
first thousand million, so the last second of a minute may be two seconds long.

## Main definitions

* `Instant`, ordered by seconds and then by nanoseconds.
* `UtcOffset`: a fixed distance of local time from UTC, below a day.
* `Instant.localDay`, `Instant.isoWeek`: the day and the week that an instant falls in locally.
* `Instant.wholeDaysSince`: the number of full days from one instant to another, none if it is later.
* `checked?`: a whole number, unless it overflows.
* `Instant.unixNanos?`, `Instant.ofUnixNanos`: an instant as a signed 64-bit count of nanoseconds.
-/

namespace NoonDraw

/-- A whole number that fits so many bits, one of which is its sign. -/
def checked? (bits : Nat) (n : Int) : Option Int :=
  let bound : Int := Int.ofNat (1 <<< (bits - 1))
  if -bound ≤ n ∧ n < bound then some n else none

/-- A point in time. -/
structure Instant where
  /-- Whole seconds since the start of 1970. -/
  seconds : Int
  /-- Nanoseconds after that second. -/
  nanos : Nat
  /-- The second of an instant is at most two seconds long. -/
  nanos_lt : nanos < 2000000000 := by omega
  deriving DecidableEq

namespace Instant

/-- The place of an instant in the order of all instants. -/
def rank (t : Instant) : Int := t.seconds * 2000000000 + t.nanos

theorem rank_injective : ∀ a b : Instant, a.rank = b.rank → a = b := by
  intro ⟨a, m, hm⟩ ⟨b, n, hn⟩ h
  simp only [rank] at h
  obtain rfl : a = b := by omega
  obtain rfl : m = n := by omega
  rfl

instance : Key Instant := Key.onReading rank rank_injective

instance : LE Instant := ⟨fun a b => a.rank ≤ b.rank⟩
instance : LT Instant := ⟨fun a b => a.rank < b.rank⟩
instance (a b : Instant) : Decidable (a ≤ b) := inferInstanceAs (Decidable (a.rank ≤ b.rank))
instance (a b : Instant) : Decidable (a < b) := inferInstanceAs (Decidable (a.rank < b.rank))
instance : Max Instant := maxOfLe

theorem le_def {a b : Instant} : a ≤ b ↔ a.rank ≤ b.rank := .rfl
theorem lt_def {a b : Instant} : a < b ↔ a.rank < b.rank := .rfl

/-- The start of a second. -/
def ofSeconds (seconds : Int) : Instant := { seconds, nanos := 0 }

instance : Inhabited Instant := ⟨ofSeconds 0⟩

/-- A second and nanoseconds after it, if those are not too many. -/
def ofUnix? (seconds : Int) (nanos : Nat) : Option Instant :=
  if h : nanos < 2000000000 then some ⟨seconds, nanos, h⟩ else none

/-- Nanoseconds since the start of 1970. -/
def totalNanos (t : Instant) : Int := t.seconds * 1000000000 + t.nanos

/-- The second of the day in UTC. -/
def secondOfDay (t : Instant) : Int := t.seconds % 86400

/-- The leap seconds that count between two instants. Only one that an instant lies in itself counts,
and only if the time of day of that instant is the earlier one: it is one more second after that
instant, and one less before it. -/
def leapSecondsSince (t earlier : Instant) : Int :=
  if earlier.secondOfDay < t.secondOfDay ∧ 1000000000 ≤ earlier.nanos then 1
  else if t.secondOfDay < earlier.secondOfDay ∧ 1000000000 ≤ t.nanos then -1
  else 0

/-- The nanoseconds from `earlier` to `t`, less than none if `t` is the earlier one. -/
def nanosSince (t earlier : Instant) : Int :=
  (t.seconds - earlier.seconds + t.leapSecondsSince earlier) * 1000000000 + (t.nanos - earlier.nanos)

/-- The full days of 24 hours from `earlier` to `t`, counted by full hours; none if `t` is the earlier
one. -/
def wholeDaysSince (t earlier : Instant) : Nat :=
  let hours := (t.nanosSince earlier).tdiv (60 * 60 * 1000000000)
  (max 0 hours / 24).toNat

/-- The count of nanoseconds since the start of 1970, if it fits 64 bits with a sign. Neither the
product nor the sum may overflow. Before 1970 the seconds are rounded up and nanoseconds taken off, so
that the product is never farther from zero than the count. -/
def unixNanos? (t : Instant) : Option Int := do
  let (seconds, nanos) : Int × Int :=
    if t.seconds < 0 then (t.seconds + 1, t.nanos - 1000000000) else (t.seconds, t.nanos)
  let whole ← checked? 64 (seconds * 1000000000)
  checked? 64 (whole + nanos)

/-- The instant so many nanoseconds after the start of 1970. -/
def ofUnixNanos (n : Int) : Instant where
  seconds := n / 1000000000
  nanos := (n % 1000000000).toNat

theorem totalNanos_ofUnixNanos (n : Int) : (ofUnixNanos n).totalNanos = n := by
  simp only [totalNanos, ofUnixNanos]
  omega

/-- An instant outside leap seconds is determined by its nanoseconds. -/
theorem ofUnixNanos_totalNanos {t : Instant} (h : t.nanos < 1000000000) :
    ofUnixNanos t.totalNanos = t := by
  obtain ⟨s, n, hn⟩ := t
  simp only at h
  simp only [totalNanos, ofUnixNanos, Instant.mk.injEq]
  omega

end Instant

/-- How far east of UTC local time is, less than a day in either direction. -/
structure UtcOffset where
  /-- Seconds east of UTC. -/
  seconds : Int
  /-- The offset is below a day. -/
  bounded : -86400 < seconds ∧ seconds < 86400 := by decide
  deriving DecidableEq

namespace UtcOffset

/-- Local time that is UTC. -/
def utc : UtcOffset := { seconds := 0 }

/-- The offset of so many seconds, if it is below a day. -/
def ofSeconds? (seconds : Int) : Option UtcOffset :=
  if h : -86400 < seconds ∧ seconds < 86400 then some ⟨seconds, h⟩ else none

end UtcOffset

namespace Instant

/-- The local day that an instant falls on. -/
def localDay (offset : UtcOffset) (t : Instant) : Day := ⟨(t.seconds + offset.seconds) / 86400⟩

/-- The local week that an instant falls in. -/
def isoWeek (offset : UtcOffset) (t : Instant) : IsoWeek := .ofDay (t.localDay offset)

end Instant

end NoonDraw
