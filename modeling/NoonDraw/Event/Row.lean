import NoonDraw.Event
import NoonDraw.Failure
import NoonDraw.Instant.Rfc3339

/-!
# Events as rows

A row of a database table holds an event in columns: identifiers, texts, and the time as a signed
64-bit count of nanoseconds since the start of 1970, which reaches from 1677 to 2262. A row also has a
number that says when it was written.

## Main definitions

* `Row.encodeTime`: the column of a time; a time out of its reach is refused.
* `Row.ofEvent`, `Row.toEvent`: an event as a row and back. A row with an unknown kind is corrupt.
-/

namespace NoonDraw

/-- A row of the table of events. -/
structure Row where
  /-- The number of the row; rows are numbered as they are written. -/
  number : Int64
  /-- Identifies the event. -/
  id : Identifier
  /-- The user who caused it. -/
  actor : String
  /-- The room it belongs to. -/
  room : Identifier
  /-- The name of its kind. -/
  kind : String
  /-- Nanoseconds since the start of 1970. -/
  nanos : Int64
  /-- The place it is about, if any. -/
  place : Option Identifier
  /-- A name given at creation. -/
  payload : String
  deriving DecidableEq

namespace Row

/-- The column of a time. -/
def encodeTime (t : Instant) : Except StoreError Int64 :=
  match t.unixNanos? with
  | some n => .ok (Int64.ofInt n)
  | none => .error (.corrupt ("timestamp out of range: " ++ t.toPlain))

/-- The row of an event. -/
def ofEvent (number : Int64) (e : Event) : Except StoreError Row := do
  return {
    number
    id := e.id.id
    actor := e.actor.text
    room := e.room.id
    kind := e.kind.name
    nanos := ← encodeTime e.time
    place := e.place.map PlaceId.id
    payload := e.payload }

/-- The event of a row. -/
def toEvent (r : Row) : Except StoreError Event :=
  match EventKind.ofName? r.kind with
  | some kind => .ok {
      id := ⟨r.id⟩
      actor := ⟨r.actor⟩
      room := ⟨r.room⟩
      kind
      time := .ofUnixNanos r.nanos.toInt
      place := r.place.map PlaceId.mk
      payload := r.payload }
  | none =>
    .error (.corrupt ("row " ++ toString r.number.toInt ++ ": " ++ EventKind.unknownMessage r.kind))

end Row

end NoonDraw
