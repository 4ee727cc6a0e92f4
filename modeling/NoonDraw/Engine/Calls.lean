import NoonDraw.Engine.Reads
import NoonDraw.History
import NoonDraw.Text.Blank

/-!
# The calls of the engine

What users can do: open, join and leave rooms, add places and take them off the list, spend points on
places, and have a place drawn. Each call that writes checks first what the log says so far, then
appends one event, and then tells others with the view it answers.

Rolls and boosts of a room hold its lock from before their checks until their event is in the caches,
so no other roll or boost of the room comes between. They look up the user before they wait for the
lock, and tell others after they have let go of it.

## Main definitions

* Rooms: `createRoom`, `joinRoom`, `leaveRoom`, `room`, `listRooms`.
* Places: `createPlace`, `deletePlace`, `restorePlace`, `listPlaces`.
* Draws: `boost`, `roll`, `listRolls`, `listBoosts`.
-/

namespace NoonDraw.Engine

/-- A name without the blanks at its ends; a blank name is refused. -/
def checkName (subject : Subject) (name : String) : Op String :=
  let trimmed := Text.trim name
  if trimmed.isEmpty then throw (.blankName subject) else return trimmed

/-! ### Rooms -/

/-- A room that has been opened. -/
def existingRoom (room : RoomId) : Op Room := do
  match ← room? room with
  | some r => return r
  | none => throw (.notFound .room room.id.toText)

/-- A room with what the directory knows of its people. -/
def roomView (room : Room) (users : Table UserId User) : RoomView where
  room
  user := users.get? room.owner
  members := room.members.keys.filterMap users.get?

/-- A room. -/
def room (room : RoomId) : Op RoomView := do
  let r ← existingRoom room
  return roomView r (← users)

/-- Opens a room; its owner is its first member. -/
def createRoom (user : UserId) (name : String) (now : Instant) : Op RoomView := do
  let name ← checkName .room name
  let id : RoomId := ⟨← drawId⟩
  store (← newEvent .roomCreated user id now none name)
  let view ← room id
  tell (.roomCreated view)
  return view

/-- Adds a user to a room or removes one, as the kind of event says. -/
def changeMembership (kind : EventKind) (user : UserId) (id : RoomId) (now : Instant) :
    Op RoomView := do
  let _ ← existingRoom id
  store (← newEvent kind user id now none "")
  let view ← room id
  tell (.roomUpdated view)
  return view

/-- Adds a user to a room. -/
def joinRoom (user : UserId) (id : RoomId) (now : Instant) : Op RoomView :=
  changeMembership .roomJoined user id now

/-- Removes a user from a room. -/
def leaveRoom (user : UserId) (id : RoomId) (now : Instant) : Op RoomView :=
  changeMembership .roomLeft user id now

/-- The views of those of some rooms that have been opened. -/
def viewsOf (users : Table UserId User) : List Membership → Op (List RoomView)
  | [] => return []
  | m :: rest => do
    match ← room? m.room with
    | some r => return roomView r users :: (← viewsOf users rest)
    | none => viewsOf users rest

/-- The rooms that a user belongs to, oldest membership first. -/
def listRooms (user : UserId) : Op (List RoomView) := do
  let memberships ← membershipsOf user
  if memberships.isEmpty then return []
  viewsOf (← users) memberships

/-! ### Places -/

/-- The places of a room that are on the list. -/
def livePlaces (room : RoomId) : Op (Table PlaceId Place) := do
  return (← placesOf room).filter fun _ place => !place.isDeleted

/-- What the rolls and boosts of a room mean at an instant. -/
def history (room : RoomId) (now : Instant) : Op (History Float) := do
  let rolls ← rollsOf room
  let boosts ← boostsOf room
  let rules ← Op.instant fun e => (e.rules, e)
  return History.build rolls boosts now rules

/-- The chance of each of some places to be drawn. -/
def chancesOf (h : History Float) (places : Table PlaceId Place) (now : Instant) :
    Table PlaceId Float :=
  Lottery.chances (h.weights places.keys now)

/-- The chance of a place; a place without one has none. -/
def chanceOf (chances : Table PlaceId Float) (place : PlaceId) : Float :=
  (chances.get? place).getD 0.0

/-- A place of a room with its chance; a place off the list has none. -/
def placeView (room : RoomId) (id : PlaceId) (now : Instant) : Op PlaceView := do
  match ← place? room id with
  | none => throw (.notFound .place id.id.toText)
  | some place =>
    let chance ←
      if place.isDeleted then pure 0.0
      else do
        let places ← livePlaces room
        let h ← history room now
        pure (chanceOf (chancesOf h places now) id)
    return { place, user := ← user? place.creator, chance }

/-- Adds a place to a room. -/
def createPlace (user : UserId) (room : RoomId) (name : String) (now : Instant) : Op PlaceView := do
  let name ← checkName .place name
  let _ ← existingRoom room
  let id : PlaceId := ⟨← drawId⟩
  store (← newEvent .placeCreated user room now (some id) name)
  let view ← placeView room id now
  tell (.placeCreated view)
  return view

/-- Takes a place off the list or puts it back, as the kind of event says. -/
def togglePlace (kind : EventKind) (user : UserId) (room : RoomId) (id : PlaceId) (now : Instant) :
    Op PlaceView := do
  if (← place? room id).isNone then throw (.notFound .place id.id.toText)
  store (← newEvent kind user room now (some id) "")
  let view ← placeView room id now
  tell (.placeUpdated view)
  return view

/-- Takes a place off the list. -/
def deletePlace (user : UserId) (room : RoomId) (id : PlaceId) (now : Instant) : Op PlaceView :=
  togglePlace .placeDeleted user room id now

/-- Puts a place back on the list. -/
def restorePlace (user : UserId) (room : RoomId) (id : PlaceId) (now : Instant) : Op PlaceView :=
  togglePlace .placeRestored user room id now

/-- The places of a room that are on the list, oldest first, each with its chance. -/
def listPlaces (room : RoomId) (now : Instant) : Op (List PlaceView) := do
  let places ← livePlaces room
  if places.isEmpty then return []
  let h ← history room now
  let chances := chancesOf h places now
  let users ← users
  let views := places.values.map fun place : Place =>
    ({ place, user := users.get? place.creator, chance := chanceOf chances place.id } : PlaceView)
  return views.mergeSort fun a b => decide (a.place.createdAt ≤ b.place.createdAt)

/-! ### Draws -/

/-- A call that holds the lock of a room. The lock is let go of however the call ends; a call that is
dropped while it waits gives its handle back. -/
def withRoom {α : Type} (room : RoomId) (body : Op α) : Op α := ExceptT.mk do
  let number ← Process.instant fun e =>
    let (number, locks) := e.locks.register room
    (number, { e with locks })
  Process.suspend (fun e => e.locks.isFree number)
    (fun e => ((), { e with locks := e.locks.acquire number }))
    [fun e => { e with locks := e.locks.withdraw number }]
  Process.guarded
    [fun e => { e with locks := e.locks.letGo number },
      fun e => { e with locks := e.locks.forget room }]
    (ExceptT.run body)

/-- Spends a point on a place, which then weighs more until the next roll. -/
def boost (user : UserId) (room : RoomId) (id : PlaceId) (now : Instant) : Op BoostView := do
  let record ← user? user
  let (event, place) ← withRoom room do
    match (← place? room id).filter fun place => !place.isDeleted with
    | none => throw (.notFound .place id.id.toText)
    | some place =>
      let h ← history room now
      if !h.mayBoost user then throw .noPoints
      let event ← newEvent .boostCreated user room now (some id) ""
      store event
      return (event, place)
  let view : BoostView := {
    boost := { id := event.id, user, place := id, room, time := now }
    user := record
    place := some place }
  tell (.boostCreated view)
  return view

/-- Picks a place by weight. -/
def pick (weights : Table PlaceId Float) : Op (Option PlaceId) :=
  .instant fun e => let (picked, lottery) := e.lottery.pick weights; (picked, { e with lottery })

/-- Draws a place of a room. That there is no place to draw is found before that there is no point
left to pay with. -/
def roll (user : UserId) (room : RoomId) (now : Instant) : Op RollView := do
  let record ← user? user
  let (event, picked, places) ← withRoom room do
    let places ← livePlaces room
    if places.isEmpty then throw .noPlaces
    let h ← history room now
    if !h.mayRoll user now then throw .noPoints
    match ← pick (h.weights places.keys now) with
    | none => throw .noPlaces
    | some picked =>
      let event ← newEvent .rollCreated user room now (some picked) ""
      store event
      return (event, picked, places)
  let view : RollView := {
    roll := { id := event.id, user, place := picked, room, time := now }
    user := record
    place := places.get? picked }
  tell (.rollCreated view)
  return view

/-- Every roll of a room, oldest first. -/
def listRolls (room : RoomId) : Op (List RollView) := do
  let rolls ← rollsOf room
  if rolls.isEmpty then return []
  let places ← placesOf room
  let users ← users
  return rolls.map fun roll : Roll =>
    { roll, user := users.get? roll.user, place := places.get? roll.place }

/-- Every boost of a room, oldest first. -/
def listBoosts (room : RoomId) : Op (List BoostView) := do
  let boosts ← boostsOf room
  if boosts.isEmpty then return []
  let places ← placesOf room
  let users ← users
  return boosts.map fun boost : Boost =>
    { boost, user := users.get? boost.user, place := places.get? boost.place }

end NoonDraw.Engine
