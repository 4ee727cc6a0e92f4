import NoonDraw.Proofs.Memberships

/-!
# What a world shows

The views that an engine answers with are functions of the world it serves: the view of a place
(`World.placeViewAt`), the places on the list of a room (`World.placeViews`), the rooms of a user.  So
an engine that serves a world, and whose stores do not fail (`Speaks`), answers with exactly these.  A
place is on the list if the events of its room make it and leave it undeleted (`mem_placeViews_iff`),
and a room is among those of a user if the user belongs to it and it has been opened
(`exists_roomsIn_iff`).
-/

namespace NoonDraw

namespace Projection

/-- A place goes by the identifier it is found under. -/
theorem place_id {events : List Event} {room : RoomId} {id : PlaceId} {place : Place}
    (found : (places.materialize (places.eventsIn (.room room) events)).get? id = some place) :
    place.id = id := by
  rw [materialize, places_lawful.get?_fold] at found
  refine forall_replay (P := fun place => place.id = id) ?_ (by simp) found
  intro e he entry before x made
  have isPlace : e.place = some id :=
    of_decide_eq_true (Bool.and_eq_true_iff.1 (List.mem_filter.1 he).2).2
  cases kind : e.kind <;> simp only [placeTransition, kind, isPlace, Option.map_some,
    Option.some.injEq, Option.map_eq_some_iff] at made
  case placeCreated =>
    rw [← made]
    rfl
  case placeDeleted | placeRestored =>
    obtain ⟨old, there, rfl⟩ := made
    exact before old there
  all_goals exact before x made

end Projection

namespace World

/-- The view of a place: its chance is that among the places on the list, and none if it is off the
list. -/
def placeViewAt (w : World) (room : RoomId) (now : Instant) (place : Place) : PlaceView where
  place
  user := w.users.get? place.creator
  chance := if place.isDeleted then 0.0 else
    Engine.chanceOf (Engine.chancesOf (w.historyAt room now) (w.livePlacesIn room) now) place.id

/-- The views of the places on the list of a room, oldest first. -/
def placeViews (w : World) (room : RoomId) (now : Instant) : List PlaceView :=
  ((w.livePlacesIn room).values.map (w.placeViewAt room now)).mergeSort fun a b =>
    decide (a.place.createdAt ≤ b.place.createdAt)

variable {w : World} {room : RoomId}

/-- The places on the list of a room are those that its events make and leave undeleted. -/
theorem mem_livePlacesIn {place : Place} :
    place ∈ (w.livePlacesIn room).values ↔
      (w.state Projection.places (.room room)).get? place.id = some place ∧
        place.isDeleted = false := by
  rw [Table.values, List.mem_map]
  constructor
  · rintro ⟨⟨id, place⟩, entry, rfl⟩
    have live := Table.get?_eq_some_iff.2 entry
    rw [livePlacesIn, Table.get?_filter, Option.filter_eq_some_iff] at live
    obtain ⟨found, undeleted⟩ := live
    obtain rfl : place.id = id := Projection.place_id found
    exact ⟨found, by simpa using undeleted⟩
  · rintro ⟨found, undeleted⟩
    refine ⟨(place.id, place), Table.get?_eq_some_iff.1 ?_, rfl⟩
    rw [livePlacesIn, Table.get?_filter, found]
    simp [Option.filter, undeleted]

theorem mem_placeViews_iff {now : Instant} {place : Place} :
    place ∈ (w.placeViews room now).map PlaceView.place ↔
      (w.state Projection.places (.room room)).get? place.id = some place ∧
        place.isDeleted = false := by
  rw [← mem_livePlacesIn, placeViews, List.mem_map]
  simp [placeViewAt]

end World

namespace Engine

variable {w : World} {room : RoomId}

/-! ### Places -/

theorem placeView_settles {id : PlaceId} {place : Place} (now : Instant)
    (found : (w.state Projection.places (.room room)).get? id = some place) :
    (placeView room id now).Settles w (.ok (w.placeViewAt room now place)) := by
  obtain rfl : place.id = id := Projection.place_id found
  have shown (chance : Float) : (user? place.creator >>= fun user =>
      (pure { place, user, chance } : Op PlaceView)).Settles w
        (.ok { place, user := w.users.get? place.creator, chance }) :=
    (user?_settles place.creator).bind (.pure ⟨rfl, rfl⟩)
  refine (place?_settles room place.id).bind ?_
  rw [found, World.placeViewAt]
  dsimp only
  split
  · exact (Op.Settles.pure _).bind (shown _)
  · exact (livePlaces_settles room).bind
      ((history_settles room now).bind ((Op.Settles.pure _).bind (shown _)))

theorem listPlaces_settles (room : RoomId) (now : Instant) :
    (listPlaces room now).Settles w (.ok (w.placeViews room now)) := by
  refine (livePlaces_settles room).bind ?_
  split
  next none =>
    have views : w.placeViews room now = [] := by
      have noValues : (w.livePlacesIn room).values = [] := by
        simpa [Table.isEmpty, Table.values] using none
      rw [World.placeViews, noValues, List.map_nil, List.mergeSort_nil]
    exact .pure ⟨by rw [views], rfl⟩
  next some =>
    have views : w.placeViews room now = ((w.livePlacesIn room).values.map fun place : Place =>
        ({ place, user := w.users.get? place.creator, chance :=
          chanceOf (chancesOf (w.historyAt room now) (w.livePlacesIn room) now) place.id } :
            PlaceView)).mergeSort fun a b => decide (a.place.createdAt ≤ b.place.createdAt) := by
      rw [World.placeViews]
      congr 1
      apply List.map_congr_left
      intro place live
      have undeleted := (World.mem_livePlacesIn.1 live).2
      rw [World.placeViewAt, undeleted]
      rfl
    exact (history_settles room now).bind (users_settles.bind (.pure ⟨by rw [views], rfl⟩))

/-! ### Rooms -/

theorem room_settles {r : Room} (found : roomIn room w.events = some r) :
    (Engine.room room).Settles w (.ok (roomView r w.users)) :=
  (existingRoom_settles found).bind (users_settles.bind (.pure ⟨rfl, rfl⟩))

/-- A room is among those of a user if the user belongs to it and it has been opened. -/
theorem exists_roomsIn_iff {events : List Event} {user : UserId} :
    (∃ r ∈ roomsIn user events, r.id = room) ↔
      ((Projection.memberships.materialize
        (Projection.memberships.eventsIn (.user user) events)).get? room).isSome ∧
          (roomIn room events).isSome := by
  simp only [roomsIn, List.mem_filterMap, Option.isSome_iff_exists]
  constructor
  · rintro ⟨r, ⟨m, standing, found⟩, rfl⟩
    have sameRoom : r.id = m.room := Projection.room_id found
    rw [sameRoom]
    exact ⟨⟨m, mem_membershipsIn.1 standing⟩, r, found⟩
  · rintro ⟨⟨m, standing⟩, r, found⟩
    obtain rfl : m.room = room := (Projection.membership_room standing).1
    exact ⟨r, ⟨m, mem_membershipsIn.2 standing, found⟩, Projection.room_id found⟩

/-! ### Engines that answer -/

/-- An engine that serves a world, and whose stores do not fail. -/
structure Speaks (w : World) (supply : Nat) (e : Engine) : Prop where
  /-- It serves the world. -/
  serves : e.Serves w supply
  /-- Its stores do not fail. -/
  reliable : e.Reliable

/-- Whether a call is answered so. -/
def Op.Gives {α : Type} (op : Op α) (e : Engine) (a : α) : Prop := (op.run e).1 = some (.ok a)

variable {α : Type} {op : Op α} {supply : Nat} {e : Engine}

theorem Op.Gives.unique {a b : α} (gives : op.Gives e a) (gives' : op.Gives e b) : a = b := by
  simpa using (Eq.symm gives).trans gives'

theorem Op.Gives.isSome_iff {op : Op (Option α)} {found : Option α}
    (gives : op.Gives e found) : found.isSome ↔ ∃ a, op.Gives e (some a) := by
  rw [Option.isSome_iff_exists]
  constructor
  · rintro ⟨a, rfl⟩
    exact ⟨a, gives⟩
  · rintro ⟨a, there⟩
    exact ⟨a, gives.unique there⟩

/-- What a call ensures it does on an engine whose stores do not fail. -/
theorem Op.Ensures.speaks {n : Nat} {post : Except Failure α → List Event → Prop}
    (ensures : op.Ensures w n post) (speaks : e.Speaks w (supply + n)) :
    ∃ r e' events, op.run e = (some r, e') ∧ e'.Speaks { w with events } supply ∧ post r events := by
  obtain ⟨r, e', events, ran, serves, reliable, outcome⟩ := ensures supply e speaks.serves
  refine ⟨r, e', events, ran, ⟨serves, reliable speaks.reliable⟩, ?_⟩
  exact outcome.resolve_right fun failed => failed.1 speaks.reliable

theorem Op.Settles.gives {a : α} (settles : op.Settles w (.ok a)) (speaks : e.Speaks w supply) :
    op.Gives e a := by
  obtain ⟨r, e', events, ran, -, rfl, -⟩ := Op.Ensures.speaks settles speaks
  rw [Op.Gives, ran]

theorem listRooms_gives (user : UserId) (speaks : e.Speaks w supply) :
    (listRooms user).Gives e ((roomsIn user w.events).map (roomView · w.users)) := by
  obtain ⟨r, e', ran, -, -, outcome⟩ := listRooms_lists user e speaks.serves.shows
  rw [Op.Gives, ran, outcome.resolve_right fun failed => failed.1 speaks.reliable]

end Engine

end NoonDraw
