import NoonDraw.Entity
import NoonDraw.Projection

/-!
# The five projections

What the events of a room, or of a user, add up to:

* `Projection.places`: the places of a room, those off the list included.
* `Projection.rolls` and `Projection.boosts`: the draws of a room and the points spent in it.
* `Projection.rooms`: the room itself and its members.
* `Projection.memberships`: the rooms that a user belongs to.

An event about a thing not there yet changes nothing. Next to each projection stands the transition
it makes of a single entry, with the proof that the projection does nothing else.
-/

namespace NoonDraw

namespace Projection

/-! ### Places -/

/-- The place that a creation adds. -/
def newPlace (e : Event) (id : PlaceId) : Place :=
  { id, name := e.payload, creator := e.actor, createdAt := e.time, room := e.room,
    isDeleted := false }

/-- The places of a room, by identifier. -/
def places : Projection PlaceId Place where
  name := "place"
  kinds := [.placeCreated, .placeDeleted, .placeRestored]
  scope e := .room e.room
  key e := e.place
  apply state e :=
    match e.place with
    | none => state
    | some id =>
      match e.kind with
      | .placeCreated => state.insert id (newPlace e id)
      | .placeDeleted => state.modify id fun place => { place with isDeleted := true }
      | .placeRestored => state.modify id fun place => { place with isDeleted := false }
      | _ => state

/-- What an event does to the entry of its place. -/
def placeTransition (e : Event) (entry : Option Place) : Option Place :=
  match e.kind with
  | .placeCreated => e.place.map (newPlace e)
  | .placeDeleted => entry.map fun place => { place with isDeleted := true }
  | .placeRestored => entry.map fun place => { place with isDeleted := false }
  | _ => entry

/-! ### Rolls and boosts -/

/-- The draws of a room, by the event of each. -/
def rolls : Projection EventId Roll where
  name := "roll"
  kinds := [.rollCreated]
  scope e := .room e.room
  key e := some e.id
  apply state e :=
    match e.kind, e.place with
    | .rollCreated, some place =>
      state.insert e.id { id := e.id, user := e.actor, place, room := e.room, time := e.time }
    | _, _ => state

/-- What an event does to the entry of its roll. -/
def rollTransition (e : Event) (entry : Option Roll) : Option Roll :=
  match e.kind, e.place with
  | .rollCreated, some place =>
    some { id := e.id, user := e.actor, place, room := e.room, time := e.time }
  | _, _ => entry

/-- The points spent in a room, by the event of each. -/
def boosts : Projection EventId Boost where
  name := "boost"
  kinds := [.boostCreated]
  scope e := .room e.room
  key e := some e.id
  apply state e :=
    match e.kind, e.place with
    | .boostCreated, some place =>
      state.insert e.id { id := e.id, user := e.actor, place, room := e.room, time := e.time }
    | _, _ => state

/-- What an event does to the entry of its boost. -/
def boostTransition (e : Event) (entry : Option Boost) : Option Boost :=
  match e.kind, e.place with
  | .boostCreated, some place =>
    some { id := e.id, user := e.actor, place, room := e.room, time := e.time }
  | _, _ => entry

/-! ### Rooms and memberships -/

/-- The kinds of event about rooms and their members. -/
def roomKinds : List EventKind := [.roomCreated, .roomJoined, .roomLeft]

/-- The room that a creation opens, its creator the only member. -/
def newRoom (e : Event) : Room :=
  { id := e.room, name := e.payload, owner := e.actor, createdAt := e.time,
    members := KeySet.ofList [e.actor] }

/-- A room, as the only entry of its own scope. -/
def rooms : Projection RoomId Room where
  name := "room"
  kinds := roomKinds
  scope e := .room e.room
  key e := some e.room
  apply state e :=
    match e.kind with
    | .roomCreated => state.insert e.room (newRoom e)
    | .roomJoined => state.modify e.room fun room =>
      { room with members := room.members.add e.actor }
    | .roomLeft => state.modify e.room fun room =>
      { room with members := room.members.erase e.actor }
    | _ => state

/-- What an event does to the entry of its room. -/
def roomTransition (e : Event) (entry : Option Room) : Option Room :=
  match e.kind with
  | .roomCreated => some (newRoom e)
  | .roomJoined => entry.map fun room => { room with members := room.members.add e.actor }
  | .roomLeft => entry.map fun room => { room with members := room.members.erase e.actor }
  | _ => entry

/-- The rooms a user belongs to. -/
def memberships : Projection RoomId Membership where
  name := "membership"
  kinds := roomKinds
  scope e := .user e.actor
  key e := some e.room
  apply state e :=
    match e.kind with
    | .roomCreated | .roomJoined => state.insert e.room { room := e.room, since := e.time }
    | .roomLeft => state.erase e.room
    | _ => state

/-- What an event of a user does to the membership of its room. -/
def membershipTransition (e : Event) (entry : Option Membership) : Option Membership :=
  match e.kind with
  | .roomCreated | .roomJoined => some { room := e.room, since := e.time }
  | .roomLeft => none
  | _ => entry

/-! ### Each changes one entry -/

theorem places_lawful : places.Lawful placeTransition where
  get?_apply state e k := by
    obtain ⟨id, actor, room, kind, time, place, payload⟩ := e
    cases place with
    | none => cases kind <;> simp [places]
    | some p =>
      by_cases h : k = p
      · subst h
        cases kind <;> simp [places, placeTransition, Table.get?_modify]
      · have h' : p ≠ k := Ne.symm h
        cases kind <;> simp [places, Table.get?_insert, Table.get?_modify, h, h']

theorem rolls_lawful : rolls.Lawful rollTransition where
  get?_apply state e k := by
    obtain ⟨id, actor, room, kind, time, place, payload⟩ := e
    by_cases h : k = id
    · subst h
      cases kind <;> cases place <;> simp [rolls, rollTransition]
    · have h' : id ≠ k := Ne.symm h
      cases kind <;> cases place <;> simp [rolls, Table.get?_insert, h, h']

theorem boosts_lawful : boosts.Lawful boostTransition where
  get?_apply state e k := by
    obtain ⟨id, actor, room, kind, time, place, payload⟩ := e
    by_cases h : k = id
    · subst h
      cases kind <;> cases place <;> simp [boosts, boostTransition]
    · have h' : id ≠ k := Ne.symm h
      cases kind <;> cases place <;> simp [boosts, Table.get?_insert, h, h']

theorem rooms_lawful : rooms.Lawful roomTransition where
  get?_apply state e k := by
    obtain ⟨id, actor, room, kind, time, place, payload⟩ := e
    by_cases h : k = room
    · subst h
      cases kind <;> simp [rooms, roomTransition, Table.get?_modify]
    · have h' : room ≠ k := Ne.symm h
      cases kind <;> simp [rooms, Table.get?_insert, Table.get?_modify, h, h']

theorem memberships_lawful : memberships.Lawful membershipTransition where
  get?_apply state e k := by
    obtain ⟨id, actor, room, kind, time, place, payload⟩ := e
    by_cases h : k = room
    · subst h
      cases kind <;> simp [memberships, membershipTransition]
    · have h' : room ≠ k := Ne.symm h
      cases kind <;> simp [memberships, Table.get?_insert, Table.get?_erase, h, h']

end Projection

end NoonDraw
