import NoonDraw.Entity

/-!
# Views and notifications

What callers see of an entity: the entity itself, the record of the user behind it as far as the
directory knows one, and for a place its chance in the next draw.

A notification carries the view of what has just been written. Its kind decides which handlers hear of
it.
-/

namespace NoonDraw

/-- A place with its creator and its chance to be drawn. -/
structure PlaceView where
  /-- The place. -/
  place : Place
  /-- Its creator, if known. -/
  user : Option User
  /-- The chance that the next draw picks it. -/
  chance : Float

/-- A roll with the user who asked for it and the place it picked. -/
structure RollView where
  /-- The roll. -/
  roll : Roll
  /-- Who asked for it, if known. -/
  user : Option User
  /-- The place picked, if the room has it. -/
  place : Option Place

/-- A boost with the user who spent the point and the place boosted. -/
structure BoostView where
  /-- The boost. -/
  boost : Boost
  /-- Who spent the point, if known. -/
  user : Option User
  /-- The place boosted, if the room has it. -/
  place : Option Place

/-- A room with its owner and those of its members that are known, in the order of their names. -/
structure RoomView where
  /-- The room. -/
  room : Room
  /-- Its owner, if known. -/
  user : Option User
  /-- Its members, as far as known. -/
  members : List User

/-- What a notification is about. -/
inductive NotificationKind where
  /-- A place was added. -/
  | placeCreated
  /-- A place was taken off the list or put back. -/
  | placeUpdated
  /-- A place was drawn. -/
  | rollCreated
  /-- A point was spent. -/
  | boostCreated
  /-- A room was opened. -/
  | roomCreated
  /-- A room gained or lost a member. -/
  | roomUpdated
  deriving DecidableEq

namespace NotificationKind

/-- Every kind, once. -/
def all : List NotificationKind :=
  [placeCreated, placeUpdated, rollCreated, boostCreated, roomCreated, roomUpdated]

/-- The name of a kind. -/
def name : NotificationKind → String
  | placeCreated => "place_created"
  | placeUpdated => "place_updated"
  | rollCreated => "roll_created"
  | boostCreated => "boost_created"
  | roomCreated => "room_created"
  | roomUpdated => "room_updated"

/-- The kind with a name. -/
def ofName? (s : String) : Option NotificationKind := all.find? fun k => k.name = s

end NotificationKind

/-- Tells those who listen of something that has been written. -/
inductive Notification where
  /-- A place was added. -/
  | placeCreated (view : PlaceView)
  /-- A place was taken off the list or put back. -/
  | placeUpdated (view : PlaceView)
  /-- A place was drawn. -/
  | rollCreated (view : RollView)
  /-- A point was spent. -/
  | boostCreated (view : BoostView)
  /-- A room was opened. -/
  | roomCreated (view : RoomView)
  /-- A room gained or lost a member. -/
  | roomUpdated (view : RoomView)

namespace Notification

/-- What a notification is about. -/
def kind : Notification → NotificationKind
  | placeCreated _ => .placeCreated
  | placeUpdated _ => .placeUpdated
  | rollCreated _ => .rollCreated
  | boostCreated _ => .boostCreated
  | roomCreated _ => .roomCreated
  | roomUpdated _ => .roomUpdated

/-- The room that a notification belongs to. -/
def room : Notification → RoomId
  | placeCreated view | placeUpdated view => view.place.room
  | rollCreated view => view.roll.room
  | boostCreated view => view.boost.room
  | roomCreated view | roomUpdated view => view.room.id

end Notification

end NoonDraw
