import NoonDraw.Identifier
import NoonDraw.Instant

/-!
# Events

An event is an immutable fact about a room: who did what, when, and to which place. Events are all
that is ever stored; every room, place, roll and boost is worked out from them.

## Main definitions

* `EventKind`: the closed set of things that happen, each with its name.
* `Event`: one fact.
* `Event.sortByTime`: the order of replay. It is stable, so events of one instant keep their order.
* `Event.matchesKinds`: the filter of log reads, for which an empty list of kinds lets all pass.
-/

namespace NoonDraw

/-- What can happen in a room. -/
inductive EventKind where
  /-- A place was added. -/
  | placeCreated
  /-- A place was taken off the list. -/
  | placeDeleted
  /-- A place was put back on the list. -/
  | placeRestored
  /-- A draw picked a place. -/
  | rollCreated
  /-- A user made a place more likely until the next draw. -/
  | boostCreated
  /-- The room was opened; its creator is its first member. -/
  | roomCreated
  /-- A user joined. -/
  | roomJoined
  /-- A user left. -/
  | roomLeft
  deriving DecidableEq

namespace EventKind

/-- Every kind, once. -/
def all : List EventKind :=
  [placeCreated, placeDeleted, placeRestored, rollCreated, boostCreated, roomCreated, roomJoined,
    roomLeft]

/-- The name under which a kind is stored. -/
def name : EventKind → String
  | placeCreated => "places/created"
  | placeDeleted => "places/deleted"
  | placeRestored => "places/restored"
  | rollCreated => "rolls/created"
  | boostCreated => "boosts/created"
  | roomCreated => "rooms/created"
  | roomJoined => "rooms/joined"
  | roomLeft => "rooms/left"

/-- The kind with a name. -/
def ofName? (s : String) : Option EventKind := all.find? fun k => k.name = s

/-- The position of a kind among all kinds. -/
def index (k : EventKind) : Nat := all.idxOf k

/-- What is said of a name that no kind has. -/
def unknownMessage (name : String) : String := s!"unknown event kind: {name}"

@[simp] theorem ofName?_name (k : EventKind) : ofName? k.name = some k := by cases k <;> decide

theorem name_of_ofName? {s : String} {k : EventKind} (h : ofName? s = some k) : k.name = s := by
  simpa using List.find?_some h

end EventKind

/-- An immutable fact about a room. -/
structure Event where
  /-- Identifies the event. -/
  id : EventId
  /-- The user who caused it. -/
  actor : UserId
  /-- The room it belongs to. -/
  room : RoomId
  /-- What happened. -/
  kind : EventKind
  /-- When it happened. -/
  time : Instant
  /-- The place it is about, if any. -/
  place : Option PlaceId := none
  /-- A name given at creation. -/
  payload : String := ""
  deriving DecidableEq

namespace Event

/-- Whether an event has one of some kinds; no kinds at all stand for every kind. -/
def matchesKinds (e : Event) (kinds : List EventKind) : Bool :=
  kinds.isEmpty || kinds.contains e.kind

/-- Events in replay order: by time, and those of one instant in the order given. -/
def sortByTime (events : List Event) : List Event :=
  events.mergeSort fun a b => decide (a.time ≤ b.time)

end Event

/-- The newest time of some events, if there are any. -/
def Event.newest? (events : List Event) : Option Instant := (events.map time).max?

end NoonDraw
