import Mathlib
import NoonDraw.Event.Row

/-!
# Events kept as rows

A row keeps the time of an event as one count of nanoseconds in 64 bits.  The count is put together
from seconds and nanoseconds by a product and a sum that may both overflow, and is taken apart again
by a division.  Outside leap seconds the product and the sum overflow only if the count itself does
(`Instant.unixNanos?_eq`), so there is a first and a last instant that a row can hold, and every
instant between the two has its own row (`Instant.isCountable_iff_le`).

So an event is either refused, because its time is out of reach, or comes back from its row as it was;
and a row that names a known kind comes back from its event, also with a count at either end of the 64
bits.  A row that names no kind is corrupt (`Row.round_trip`).

## Main statements

* `Instant.unixNanos?_eq`: the count of nanoseconds overflows only where it must.
* `Instant.isCountable_iff_le`: the first and the last instant that a row can hold.
* `Row.round_trip`: events to rows and back, and rows to events and back.
-/

namespace NoonDraw

/-! ### Overflow -/

section Overflow

variable {bits : Nat} {n m : Int}

/-- A sum of numbers on one side of zero overflows if the first of them does. -/
theorem checked?_bind_add (oneSide : 0 ≤ n ∧ 0 ≤ m ∨ n ≤ 0 ∧ m ≤ 0) :
    ((checked? bits n).bind fun n => checked? bits (n + m)) = checked? bits (n + m) := by
  have pos : 0 < 1 <<< (bits - 1) := by
    rw [Nat.one_shiftLeft]
    exact Nat.two_pow_pos _
  simp only [checked?, Int.ofNat_eq_natCast]
  generalize 1 <<< (bits - 1) = bound at pos
  by_cases fits : -(bound : Int) ≤ n ∧ n < bound
  · rw [if_pos fits, Option.bind_some]
  · rw [if_neg fits, Option.bind_none, if_neg (by omega)]

end Overflow

namespace Instant

variable {t : Instant}

/-- Neither the product nor the sum overflows unless the count of nanoseconds does. -/
theorem unixNanos?_eq (plain : t.nanos < 1000000000) : t.unixNanos? = checked? 64 t.totalNanos := by
  by_cases early : t.seconds < 0
  · -- what is multiplied is the next full second, which is not after the start of 1970
    have sum : (t.seconds + 1) * 1000000000 + (t.nanos - 1000000000) = t.totalNanos := by
      rw [totalNanos]
      omega
    rw [← sum, ← checked?_bind_add (by omega)]
    simp only [unixNanos?, early, if_true]
    rfl
  · rw [totalNanos, ← checked?_bind_add (by omega)]
    simp only [unixNanos?, early, if_false]
    rfl

/-- Whether the nanoseconds since the start of 1970 can be counted in 64 bits. -/
def IsCountable (t : Instant) : Prop :=
  Int64.minValue.toInt ≤ t.totalNanos ∧ t.totalNanos ≤ Int64.maxValue.toInt

instance (t : Instant) : Decidable t.IsCountable := inferInstanceAs (Decidable (_ ∧ _))

theorem isCountable_iff : t.IsCountable ↔ -2 ^ 63 ≤ t.totalNanos ∧ t.totalNanos < 2 ^ 63 := by
  have least : Int64.minValue.toInt = -2 ^ 63 := by decide
  have greatest : Int64.maxValue.toInt = 2 ^ 63 - 1 := by decide
  rw [IsCountable, least, greatest]
  omega

theorem unixNanos?_eq_ite (plain : t.nanos < 1000000000) :
    t.unixNanos? = if t.IsCountable then some t.totalNanos else none := by
  rw [unixNanos?_eq plain, checked?]
  simp only [isCountable_iff]
  rfl

/-- The first instant that can be counted. -/
def firstCountable : Instant := { seconds := -9223372037, nanos := 145224192 }

/-- The last instant that can be counted. -/
def lastCountable : Instant := { seconds := 9223372036, nanos := 854775807 }

/-- What can be counted is a span of time. -/
theorem isCountable_iff_le (plain : t.nanos < 1000000000) :
    t.IsCountable ↔ firstCountable ≤ t ∧ t ≤ lastCountable := by
  simp only [isCountable_iff, totalNanos, firstCountable, lastCountable, le_def, rank]
  omega

/-- The span is from 1677 to 2262. -/
example : (Date.ofDay (firstCountable.localDay .utc)).year = 1677 ∧
    (Date.ofDay (lastCountable.localDay .utc)).year = 2262 := by decide

theorem nanos_ofUnixNanos (n : Int) : (ofUnixNanos n).nanos < 1000000000 := by
  simp only [ofUnixNanos]
  omega

end Instant

/-! ### Rows -/

namespace Row

variable {t : Instant} {e : Event} {column : Int64}

/-- The report of a time that no row can hold. -/
def outOfRange (t : Instant) : StoreError := .corrupt ("timestamp out of range: " ++ t.toPlain)

/-- The report of a row that names no kind. -/
def unknownKind (r : Row) : StoreError :=
  .corrupt ("row " ++ toString r.number.toInt ++ ": " ++ EventKind.unknownMessage r.kind)

/-- The row of the fields of an event, the name of its kind and a column of time. -/
def ofColumns (number : Int64) (e : Event) (column : Int64) : Row where
  number
  id := e.id.id
  actor := e.actor.text
  room := e.room.id
  kind := e.kind.name
  nanos := column
  place := e.place.map PlaceId.id
  payload := e.payload

theorem ofEvent_eq (number : Int64) (e : Event) :
    ofEvent number e = (encodeTime e.time).map (ofColumns number e) := by
  simp only [ofEvent]
  cases encodeTime e.time <;> rfl

theorem encodeTime_eq (plain : t.nanos < 1000000000) :
    encodeTime t = if t.IsCountable then .ok (.ofInt t.totalNanos) else .error (outOfRange t) := by
  rw [encodeTime, Instant.unixNanos?_eq_ite plain]
  by_cases countable : t.IsCountable
  · rw [if_pos countable, if_pos countable]
  · rw [if_neg countable, if_neg countable, outOfRange]

/-- A column of time is the count of nanoseconds, where there is one. -/
theorem encodeTime_eq_ok_iff (plain : t.nanos < 1000000000) :
    encodeTime t = .ok column ↔ column.toInt = t.totalNanos := by
  rw [encodeTime_eq plain]
  constructor
  · intro encoded
    split at encoded
    · rename_i countable
      rw [← Except.ok.inj encoded]
      exact Int64.toInt_ofInt_of_le countable.1 (Int.lt_of_le_sub_one countable.2)
    · cases encoded
  · intro count
    have countable : t.IsCountable :=
      ⟨count ▸ Int64.minValue_le_toInt column, count ▸ Int64.toInt_le column⟩
    rw [if_pos countable, ← count, Int64.ofInt_toInt]

theorem encodeTime_eq_error_iff (plain : t.nanos < 1000000000) {failure : StoreError} :
    encodeTime t = .error failure ↔ ¬t.IsCountable ∧ failure = outOfRange t := by
  rw [encodeTime_eq plain]
  split <;> simp_all [eq_comm]

/-- The columns of an event are read as the event. -/
theorem toEvent_ofColumns (plain : e.time.nanos < 1000000000) (number : Int64)
    (count : column.toInt = e.time.totalNanos) : (ofColumns number e column).toEvent = .ok e := by
  simp [toEvent, ofColumns, count, Instant.ofUnixNanos_totalNanos plain, Function.comp_def]

/-- A row with a known kind is read as an event that has the columns of the row. -/
theorem exists_toEvent {r : Row} {kind : EventKind} (known : r.kind = kind.name) :
    ∃ e, r.toEvent = .ok e ∧ e.time = .ofUnixNanos r.nanos.toInt ∧
      ofColumns r.number e r.nanos = r := by
  rw [toEvent, known, EventKind.ofName?_name]
  refine ⟨_, rfl, rfl, ?_⟩
  simp [ofColumns, ← known, Function.comp_def]

/-- A row that names no kind is not read at all. -/
theorem toEvent_of_unknown {r : Row} (unknown : ∀ kind : EventKind, r.kind ≠ kind.name) :
    r.toEvent = .error r.unknownKind := by
  cases found : EventKind.ofName? r.kind with
  | none => rw [toEvent, found, unknownKind]
  | some kind => exact absurd (EventKind.name_of_ofName? found).symm (unknown kind)

/-- An event outside leap seconds has a row unless its nanoseconds since the start of 1970 overflow 64
bits, and it is what its row is read as.  A row that names a kind is read as an event whose row it is;
any other row is corrupt. -/
theorem round_trip :
    (∀ (number : Int64) (e : Event), e.time.nanos < 1000000000 →
      (∀ failure, encodeTime e.time = .error failure ↔
        ¬e.time.IsCountable ∧ failure = outOfRange e.time) ∧
      (e.time.IsCountable → ∃ column, encodeTime e.time = .ok column ∧
        column.toInt = e.time.totalNanos ∧
        ofEvent number e = .ok (ofColumns number e column) ∧
        (ofColumns number e column).toEvent = .ok e)) ∧
    ∀ r : Row,
      (∀ kind : EventKind, r.kind = kind.name → ∃ e, r.toEvent = .ok e ∧
        encodeTime e.time = .ok r.nanos ∧ ofColumns r.number e r.nanos = r ∧
        ofEvent r.number e = .ok r) ∧
      ((∀ kind : EventKind, r.kind ≠ kind.name) → r.toEvent = .error r.unknownKind) := by
  refine ⟨fun number e plain => ⟨fun failure => encodeTime_eq_error_iff plain, fun countable => ?_⟩,
    fun r => ⟨fun kind known => ?_, toEvent_of_unknown⟩⟩
  · have encoded := encodeTime_eq (t := e.time) plain
    rw [if_pos countable] at encoded
    have count := (encodeTime_eq_ok_iff plain).1 encoded
    refine ⟨_, encoded, count, ?_, toEvent_ofColumns plain number count⟩
    rw [ofEvent_eq, encoded, Except.map]
  · obtain ⟨e, read, time, columns⟩ := exists_toEvent known
    have encoded : encodeTime e.time = .ok r.nanos := by
      rw [time, encodeTime_eq_ok_iff (Instant.nanos_ofUnixNanos _), Instant.totalNanos_ofUnixNanos]
    refine ⟨e, read, encoded, columns, ?_⟩
    rw [ofEvent_eq, encoded, Except.map, columns]

/-- An event without a place at an instant. -/
def roomOpenedAt (t : Instant) : Event where
  id := ⟨.ofNat 1⟩
  actor := ⟨"é"⟩
  room := ⟨.ofNat 2⟩
  kind := .roomCreated
  time := t
  payload := "two\nlines"

/-- The last nanosecond before the first instant that can be counted. -/
def tooEarly : Instant := { seconds := -9223372037, nanos := 145224191 }

/-- The first instant that can be counted comes back, the nanosecond before it is refused, and so is
the row that names no kind. -/
theorem round_trip_firstCountable :
    encodeTime tooEarly = .error (outOfRange tooEarly) ∧
      (∃ column, encodeTime Instant.firstCountable = .ok column ∧ column = Int64.minValue ∧
        (ofColumns 7 (roomOpenedAt Instant.firstCountable) column).toEvent =
          .ok (roomOpenedAt Instant.firstCountable)) ∧
      (∃ e, (ofColumns 7 (roomOpenedAt default) Int64.maxValue).toEvent = .ok e ∧
        ofEvent 7 e = .ok (ofColumns 7 (roomOpenedAt default) Int64.maxValue)) ∧
      let misnamed := { ofColumns 7 (roomOpenedAt default) 0 with kind := "rooms/renamed" }
      misnamed.toEvent = .error misnamed.unknownKind := by
  have first := (round_trip.1 7 (roomOpenedAt Instant.firstCountable) (by decide)).2 (by decide)
  have early := (round_trip.1 7 (roomOpenedAt tooEarly) (by decide)).1 (outOfRange tooEarly)
  refine ⟨early.2 ⟨by decide, rfl⟩, ?_, ?_, ?_⟩
  · obtain ⟨column, encoded, count, -, read⟩ := first
    exact ⟨column, encoded, Int64.toInt_inj.1 (count.trans (by decide)), read⟩
  · have last := round_trip.2 (ofColumns 7 (roomOpenedAt default) Int64.maxValue)
    obtain ⟨e, read, -, -, written⟩ := last.1 .roomCreated rfl
    exact ⟨e, read, written⟩
  · refine (round_trip.2 _).2 fun kind => ?_
    cases kind <;> decide

end Row

end NoonDraw
