import NoonDraw.Identifier
import NoonDraw.Instant

/-!
# What rooms hold

The things that events add up to, and the records of the people who take part. None of them is
stored: places, rolls, boosts, rooms and memberships follow from the events, and users are looked up
in a directory.
-/

namespace NoonDraw

/-- A place to eat. -/
structure Place where
  /-- Identifies the place. -/
  id : PlaceId
  /-- Its name. -/
  name : String
  /-- Who added it. -/
  creator : UserId
  /-- When it was added. -/
  createdAt : Instant
  /-- The room it was added to. -/
  room : RoomId
  /-- Whether it is off the list. -/
  isDeleted : Bool
  deriving DecidableEq

/-- A draw and the place it picked. -/
structure Roll where
  /-- Identifies the roll, by the event that recorded it. -/
  id : EventId
  /-- Who asked for the draw. -/
  user : UserId
  /-- The place picked. -/
  place : PlaceId
  /-- The room that drew. -/
  room : RoomId
  /-- When. -/
  time : Instant
  deriving DecidableEq

/-- A point spent on making a place more likely. -/
structure Boost where
  /-- Identifies the boost, by the event that recorded it. -/
  id : EventId
  /-- Who spent the point. -/
  user : UserId
  /-- The place boosted. -/
  place : PlaceId
  /-- The room of the place. -/
  room : RoomId
  /-- When. -/
  time : Instant
  deriving DecidableEq

/-- A group that draws together. -/
structure Room where
  /-- Identifies the room. -/
  id : RoomId
  /-- Its name. -/
  name : String
  /-- Who opened it. -/
  owner : UserId
  /-- When it was opened. -/
  createdAt : Instant
  /-- Who belongs to it. -/
  members : KeySet UserId
  deriving DecidableEq

/-- One user's belonging to a room. -/
structure Membership where
  /-- The room. -/
  room : RoomId
  /-- When the user last opened or joined it. -/
  since : Instant
  deriving DecidableEq

/-- What the directory knows of a user. -/
structure User where
  /-- Identifies the user. -/
  id : UserId
  /-- The name to show. -/
  name : String
  deriving DecidableEq

/-- Whether a user belongs to a room. -/
def Room.hasMember (r : Room) (u : UserId) : Bool := r.members.contains u

end NoonDraw
