import NoonDraw.Proofs.AcceptedDraws
import NoonDraw.Proofs.SlotCoverage
import NoonDraw.Proofs.Views

/-!
# Effects of changes

To take a place off the list or to put it back, to join a room or to leave it: a call of these that
is not earlier than any event in the log is accepted if the place or the room is there, and has its
effect at once, whatever had happened before.  Its event is replayed last, so it has the last word on
its place, or on its member (`Projection.IsCached.get?_materialize_concat`).  All other places and
memberships are as they were, and to repeat the call changes nothing (`Engine.changes_take_effect`).
-/

namespace NoonDraw

/-- Whether an event of a kind takes its place off the list or puts it back. -/
def EventKind.deletes? : EventKind → Option Bool
  | .placeDeleted => some true
  | .placeRestored => some false
  | _ => none

/-- Whether an event of a kind makes its actor join a room or leave it. -/
def EventKind.joins? : EventKind → Option Bool
  | .roomJoined => some true
  | .roomLeft => some false
  | _ => none

/-! ### The last word -/

namespace Projection

section

variable {κ ε : Type} [Key κ] {p : Projection κ ε} {scope : Scope} {events : List Event} {e : Event}

/-- An event whose kind does not matter is not read. -/
theorem IsCached.eventsIn_unread (cached : p.IsCached) (isScope : p.IsScope scope)
    (unread : p.reads e.kind = false) :
    p.eventsIn scope (events ++ [e]) = p.eventsIn scope events := by
  rw [eventsIn_append, cached.eventsIn_singleton isScope, isIn, unread, Bool.false_and,
    if_neg Bool.false_ne_true, List.append_nil]

/-- An event that is not earlier than any other has the last word on its entry. -/
theorem IsCached.get?_materialize_concat [DecidableEq κ]
    {transition : Event → Option ε → Option ε} (cached : p.IsCached) (lawful : p.Lawful transition)
    (isScope : p.IsScope scope) (newest : ∀ a ∈ events, a.time ≤ e.time) (k : κ) :
    (p.materialize (p.eventsIn scope (events ++ [e]))).get? k =
      if p.isIn scope e ∧ p.key e = some k then
        transition e ((p.materialize (p.eventsIn scope events)).get? k)
      else (p.materialize (p.eventsIn scope events)).get? k := by
  rw [eventsIn_append, cached.eventsIn_singleton isScope]
  split
  next inScope =>
    have newest' : ∀ a ∈ p.eventsIn scope events, a.time ≤ e.time := fun a ha =>
      newest a (List.mem_filter.1 ha).1
    rw [materialize_concat newest', fold_append, List.foldl_cons, List.foldl_nil, lawful.get?_step]
    simp [inScope, reads_of_isIn inScope, materialize]
  next outside => simp [outside]

end

end Projection

namespace World

/-- A world with one more event. -/
def after (w : World) (e : Event) : World := { w with events := w.events ++ [e] }

variable {w : World} {e : Event} {deleted member : Bool}

/-- An event that is not earlier than any other is the newest once it is in the log. -/
theorem newest_after (newest : ∀ a ∈ w.events, a.time ≤ e.time) :
    ∀ a ∈ (w.after e).events, a.time ≤ e.time := by
  intro a ha
  rcases List.mem_append.1 ha with known | new
  · exact newest a known
  · rw [List.mem_singleton.1 new]
    exact Instant.le_refl _

section Toggles

variable (toggles : e.kind.deletes? = some deleted)

include toggles

theorem kind_of_deletes : e.kind = .placeDeleted ∧ deleted = true ∨
    e.kind = .placeRestored ∧ deleted = false := by
  revert toggles
  cases e.kind <;> simp [EventKind.deletes?, eq_comm]

/-- One place is marked, and no other. -/
theorem get?_places_after {id : PlaceId} (isPlace : e.place = some id)
    (newest : ∀ a ∈ w.events, a.time ≤ e.time) (room : RoomId) (place : PlaceId) :
    ((w.after e).state Projection.places (.room room)).get? place =
      if (room, place) = (e.room, id) then
        ((w.state Projection.places (.room room)).get? place).map fun found =>
          { found with isDeleted := deleted }
      else (w.state Projection.places (.room room)).get? place := by
  have touched : Projection.places.isIn (.room room) e ∧ Projection.places.key e = some place ↔
      (room, place) = (e.room, id) := by
    rcases kind_of_deletes toggles with ⟨kind, -⟩ | ⟨kind, -⟩ <;>
      simp [Projection.isIn, Projection.reads, Projection.places, kind, isPlace, eq_comm]
  have marks (entry : Option Place) : Projection.placeTransition e entry =
      entry.map fun found => { found with isDeleted := deleted } := by
    rcases kind_of_deletes toggles with ⟨kind, rfl⟩ | ⟨kind, rfl⟩ <;>
      simp only [Projection.placeTransition, kind]
  have last := Projection.IsCached.places.get?_materialize_concat Projection.places_lawful
    (Engine.isScope_room room).1 newest place
  simp only [touched, marks] at last
  exact last

theorem roomIn_of_deletes (room : RoomId) :
    Engine.roomIn room (w.after e).events = Engine.roomIn room w.events := by
  have unread : Projection.rooms.reads e.kind = false := by
    rcases kind_of_deletes toggles with ⟨kind, -⟩ | ⟨kind, -⟩ <;> rw [kind] <;> rfl
  rw [Engine.roomIn, Engine.roomIn, after, Projection.IsCached.rooms.eventsIn_unread
    (Engine.isScope_room room).2.2.2 unread]

theorem memberships_of_deletes (user : UserId) :
    (w.after e).state Projection.memberships (.user user) =
      w.state Projection.memberships (.user user) := by
  have unread : Projection.memberships.reads e.kind = false := by
    rcases kind_of_deletes toggles with ⟨kind, -⟩ | ⟨kind, -⟩ <;> rw [kind] <;> rfl
  rw [state, state, after, Projection.IsCached.memberships.eventsIn_unread
    (Engine.isScope_user user) unread]

end Toggles

section Changes

variable (changes : e.kind.joins? = some member)

include changes

theorem kind_of_joins : e.kind = .roomJoined ∧ member = true ∨
    e.kind = .roomLeft ∧ member = false := by
  revert changes
  cases e.kind <;> simp [EventKind.joins?, eq_comm]

theorem places_of_joins (room : RoomId) :
    (w.after e).state Projection.places (.room room) = w.state Projection.places (.room room) := by
  have unread : Projection.places.reads e.kind = false := by
    rcases kind_of_joins changes with ⟨kind, -⟩ | ⟨kind, -⟩ <;> rw [kind] <;> rfl
  rw [state, state, after, Projection.IsCached.places.eventsIn_unread
    (Engine.isScope_room room).1 unread]

/-- One room has its members changed. -/
theorem roomIn_after (newest : ∀ a ∈ w.events, a.time ≤ e.time) (room : RoomId) :
    Engine.roomIn room (w.after e).events =
      if room = e.room then (Engine.roomIn room w.events).map fun r =>
        { r with members := Projection.memberStep e r.members }
      else Engine.roomIn room w.events := by
  have touched : Projection.rooms.isIn (.room room) e ∧ Projection.rooms.key e = some room ↔
      room = e.room := by
    rcases kind_of_joins changes with ⟨kind, -⟩ | ⟨kind, -⟩ <;>
      simp [Projection.isIn, Projection.reads, Projection.rooms, Projection.roomKinds, kind, eq_comm]
  have notOpening : e.kind ≠ .roomCreated := by
    rcases kind_of_joins changes with ⟨kind, -⟩ | ⟨kind, -⟩ <;> simp [kind]
  have last := Projection.IsCached.rooms.get?_materialize_concat Projection.rooms_lawful
    (Engine.isScope_room room).2.2.2 newest room
  simp only [touched, Projection.roomTransition_eq, if_neg notOpening] at last
  exact last

/-- One user is a member of it or is not. -/
theorem hasMember_memberStep (r : Room) (user : UserId) :
    ({ r with members := Projection.memberStep e r.members } : Room).hasMember user =
      if user = e.actor then member else r.hasMember user := by
  rw [Room.hasMember, Table.contains, Projection.get?_memberStep]
  rcases kind_of_joins changes with ⟨kind, rfl⟩ | ⟨kind, rfl⟩ <;>
    by_cases own : user = e.actor <;> simp [kind, own, Room.hasMember, Table.contains]

/-- One user belongs to one room or does not. -/
theorem isSome_membership_after (newest : ∀ a ∈ w.events, a.time ≤ e.time) (user : UserId)
    (room : RoomId) :
    (((w.after e).state Projection.memberships (.user user)).get? room).isSome =
      if (room, user) = (e.room, e.actor) then member
      else ((w.state Projection.memberships (.user user)).get? room).isSome := by
  have touched : Projection.memberships.isIn (.user user) e ∧
      Projection.memberships.key e = some room ↔ (room, user) = (e.room, e.actor) := by
    rcases kind_of_joins changes with ⟨kind, -⟩ | ⟨kind, -⟩ <;>
      simp [Projection.isIn, Projection.reads, Projection.memberships, Projection.roomKinds, kind,
        eq_comm, and_comm]
  have decides (entry : Option Membership) :
      (Projection.membershipTransition e entry).isSome = member := by
    rcases kind_of_joins changes with ⟨kind, rfl⟩ | ⟨kind, rfl⟩ <;>
      simp [Projection.membershipTransition, kind]
  have last := Projection.IsCached.memberships.get?_materialize_concat
    Projection.memberships_lawful (Engine.isScope_user user) newest room
  simp only [touched] at last
  have last' := congrArg Option.isSome last
  rw [apply_ite Option.isSome, decides] at last'
  exact last'

end Changes

end World

namespace Engine

variable {w w' : World} {e e' : Engine} {supply supply' : Nat}

/-! ### What is seen of a change -/

/-- Whether a place is listed, whenever it is asked for. -/
def IsListed (e : Engine) (room : RoomId) (place : PlaceId) (listed : Bool) : Prop :=
  ∀ t, ∃ views, (listPlaces room t).Gives e views ∧
    (views.any fun view => view.place.id = place) = listed

/-- Whether a user is a member of a room, by the room as well as by the rooms of the user. -/
def IsMember (e : Engine) (room : RoomId) (user : UserId) (member : Bool) : Prop :=
  (∃ view, (Engine.room room).Gives e view ∧ view.room.hasMember user = member) ∧
    ∃ views, (listRooms user).Gives e views ∧ (views.any fun view => view.room.id = room) = member

/-- A place is as it was, and listed as it was. -/
def SamePlace (room : RoomId) (place : PlaceId) (e e' : Engine) : Prop :=
  (∃ found, (place? room place).Gives e found ∧ (place? room place).Gives e' found) ∧
    ∀ t, ∃ views views', (listPlaces room t).Gives e views ∧ (listPlaces room t).Gives e' views' ∧
      ∀ found : Place, found.id = place →
        (found ∈ views.map PlaceView.place ↔ found ∈ views'.map PlaceView.place)

/-- A user is a member of a room as before, by the room as well as by the rooms of the user. -/
def SameMembership (room : RoomId) (user : UserId) (e e' : Engine) : Prop :=
  (∃ found found', (room? room).Gives e found ∧ (room? room).Gives e' found' ∧
      found.map (·.hasMember user) = found'.map (·.hasMember user)) ∧
    ∃ views views', (listRooms user).Gives e views ∧ (listRooms user).Gives e' views' ∧
      (views.any fun view => view.room.id = room) = views'.any fun view => view.room.id = room

/-- All places and all memberships are as before, but for a place or a membership at most. -/
structure Keeps (place : Option (RoomId × PlaceId)) (member : Option (RoomId × UserId))
    (e e' : Engine) : Prop where
  /-- The other places are as before. -/
  places : ∀ room other, place ≠ some (room, other) → SamePlace room other e e'
  /-- The other memberships are as before. -/
  memberships : ∀ room user, member ≠ some (room, user) → SameMembership room user e e'

/-- A call that is accepted exactly if what it is about is there.  It has its effect then, and keeps
what it should.  If it is repeated, it is accepted again, and nothing changes. -/
def TakesEffect {α : Type} (call : Instant → Op α) (there : Prop) (effect : α → Engine → Prop)
    (keeps : Engine → Engine → Prop) (e : Engine) (now : Instant) : Prop :=
  ((∃ view e', (call now).run e = (some (.ok view), e')) ↔ there) ∧
    ∀ view e', (call now).run e = (some (.ok view), e') → effect view e' ∧ keeps e e' ∧
      ∀ now', now ≤ now' → ∃ view' e'', (call now').run e' = (some (.ok view'), e'') ∧
        effect view' e'' ∧ Keeps none none e' e''

/-- A call that is refused for what is missing has no effect to take. -/
theorem TakesEffect.of_refused {α : Type} {call : Instant → Op α} {there : Prop}
    {effect : α → Engine → Prop} {keeps : Engine → Engine → Prop} {now : Instant} {f : Failure}
    (refused : (call now).Settles w (.error f)) (speaks : e.Speaks w supply) (missing : ¬ there) :
    TakesEffect call there effect keeps e now := by
  obtain ⟨answer, e₁, _, ran, -, rfl, -⟩ := Op.Ensures.speaks refused speaks
  have notAccepted (view : α) (e' : Engine) : (call now).run e ≠ (some (.ok view), e') := by
    rw [ran]
    simp
  constructor
  · refine iff_of_false ?_ missing
    rintro ⟨view, e', accepted⟩
    exact notAccepted view e' accepted
  · intro view e' accepted
    exact absurd accepted (notAccepted view e')

theorem TakesEffect.imp {α : Type} {call : Instant → Op α} {there : Prop}
    {effect effect' : α → Engine → Prop} {keeps : Engine → Engine → Prop} {now : Instant}
    (takes : TakesEffect call there effect keeps e now)
    (implies : ∀ view e, effect view e → effect' view e) :
    TakesEffect call there effect' keeps e now := by
  refine ⟨takes.1, fun view e' ran => ?_⟩
  obtain ⟨seen, kept, again⟩ := takes.2 view e' ran
  refine ⟨implies view e' seen, kept, fun now' later => ?_⟩
  obtain ⟨view', e'', ran', seen', same⟩ := again now' later
  exact ⟨view', e'', ran', implies view' e'' seen', same⟩

theorem Speaks.isListed (speaks : e.Speaks w supply) {room : RoomId} {id : PlaceId} {place : Place}
    (found : (w.state Projection.places (.room room)).get? id = some place) :
    IsListed e room id (!place.isDeleted) := by
  obtain rfl : place.id = id := Projection.place_id found
  intro t
  refine ⟨_, (listPlaces_settles room t).gives speaks, ?_⟩
  rw [Bool.eq_iff_iff, List.any_eq_true, Bool.not_eq_true']
  have listed_iff (other : Place) : other ∈ (w.placeViews room t).map PlaceView.place ↔
      (w.state Projection.places (.room room)).get? other.id = some other ∧
        other.isDeleted = false := World.mem_placeViews_iff
  constructor
  · rintro ⟨view, isView, sameId⟩
    have sameId : view.place.id = place.id := of_decide_eq_true sameId
    obtain ⟨found', live⟩ := (listed_iff view.place).1 (List.mem_map_of_mem isView)
    rw [sameId, found] at found'
    rwa [Option.some.inj found']
  · intro live
    obtain ⟨view, isView, same⟩ := List.mem_map.1 ((listed_iff place).2 ⟨found, live⟩)
    exact ⟨view, isView, decide_eq_true (congrArg Place.id same)⟩

theorem Speaks.samePlace (speaks : e.Speaks w supply) (speaks' : e'.Speaks w' supply')
    {room : RoomId} {place : PlaceId}
    (same : (w'.state Projection.places (.room room)).get? place =
      (w.state Projection.places (.room room)).get? place) : SamePlace room place e e' := by
  refine ⟨⟨_, (place?_settles room place).gives speaks,
    same ▸ (place?_settles room place).gives speaks'⟩, fun t => ?_⟩
  refine ⟨_, _, (listPlaces_settles room t).gives speaks, (listPlaces_settles room t).gives speaks',
    ?_⟩
  rintro found rfl
  rw [World.mem_placeViews_iff, World.mem_placeViews_iff, same]

/-- Whether a room is listed for a user. -/
theorem any_roomsIn {events : List Event} {users : Table UserId User} {room : RoomId}
    {user : UserId} :
    (((roomsIn user events).map (roomView · users)).any fun view => view.room.id = room) =
      (((Projection.memberships.materialize
        (Projection.memberships.eventsIn (.user user) events)).get? room).isSome &&
          (roomIn room events).isSome) := by
  rw [Bool.eq_iff_iff, Bool.and_eq_true_iff, ← exists_roomsIn_iff]
  simp [roomView]

theorem Speaks.isMember (speaks : e.Speaks w supply) {room : RoomId} {user : UserId} {r : Room}
    (found : roomIn room w.events = some r)
    (agrees : ((w.state Projection.memberships (.user user)).get? room).isSome = r.hasMember user) :
    IsMember e room user (r.hasMember user) := by
  refine ⟨⟨_, (room_settles found).gives speaks, rfl⟩, _, listRooms_gives user speaks, ?_⟩
  rw [any_roomsIn, found, ← agrees]
  exact Bool.and_true _

theorem Speaks.sameMembership (speaks : e.Speaks w supply) (speaks' : e'.Speaks w' supply')
    {room : RoomId} {user : UserId}
    (sameMember : (roomIn room w'.events).map (·.hasMember user) =
      (roomIn room w.events).map (·.hasMember user))
    (sameStanding : ((w'.state Projection.memberships (.user user)).get? room).isSome =
      ((w.state Projection.memberships (.user user)).get? room).isSome) :
    SameMembership room user e e' := by
  refine ⟨⟨_, _, (room?_settles room).gives speaks, (room?_settles room).gives speaks',
    sameMember.symm⟩, _, _, listRooms_gives user speaks, listRooms_gives user speaks', ?_⟩
  have opened : (roomIn room w'.events).isSome = (roomIn room w.events).isSome := by
    simpa using congrArg Option.isSome sameMember
  rw [any_roomsIn, any_roomsIn, opened]
  exact congrArg (· && _) sameStanding.symm

/-! ### Places taken off the list and put back -/

section Toggles

variable {kind : EventKind} {deleted : Bool} (user : UserId) {room : RoomId} {id : PlaceId}
  {now : Instant} {place : Place}

/-- The call marks the place, and answers with its view. -/
theorem togglePlace_ensures (toggles : kind.deletes? = some deleted)
    (newest : ∀ a ∈ w.events, a.time ≤ now)
    (found : (w.state Projection.places (.room room)).get? id = some place) :
    (togglePlace kind user room id now).Ensures w 1 fun r events =>
      ∃ ev : Event, ev.kind = kind ∧ ev.room = room ∧ ev.place = some id ∧ ev.time = now ∧
        events = (w.after ev).events ∧
        r = .ok ((w.after ev).placeViewAt room now { place with isDeleted := deleted }) := by
  refine (place?_settles room id).bind ?_
  rw [found]
  apply write_ensures
  intro eventId
  let ev : Event :=
    { id := eventId, actor := user, room, kind, time := now, place := some id, payload := "" }
  have marked : ((w.after ev).state Projection.places (.room room)).get? id =
      some { place with isDeleted := deleted } := by
    rw [World.get?_places_after (e := ev) toggles rfl newest, if_pos rfl, found, Option.map_some]
  refine Op.Settles.bind (placeView_settles now marked) ((tell_ensures _).bind (.pure ?_))
  exact ⟨ev, rfl, rfl, rfl, rfl, rfl, rfl⟩

theorem togglePlace_missing
    (missing : (w.state Projection.places (.room room)).get? id = none) :
    (togglePlace kind user room id now).Settles w (.error (.notFound .place id.id.toText)) := by
  refine (place?_settles room id).bind ?_
  rw [missing]
  exact (Op.Settles.throw _).bind_error

/-- What is seen of a place that has been marked. -/
def Marked (deleted : Bool) (room : RoomId) (id : PlaceId) (view : PlaceView) (e : Engine) : Prop :=
  view.place.id = id ∧ view.place.isDeleted = deleted ∧ (deleted → view.chance = 0.0) ∧
    IsListed e room id (!deleted)

/-- A place is marked, and nothing else changes; nor does the place if it was marked before. -/
theorem togglePlace_marks (toggles : kind.deletes? = some deleted)
    (speaks : e.Speaks w (supply + 1)) (newest : ∀ a ∈ w.events, a.time ≤ now)
    (found : (w.state Projection.places (.room room)).get? id = some place) :
    ∃ view e' w', (togglePlace kind user room id now).run e = (some (.ok view), e') ∧
      e'.Speaks w' supply ∧ (∀ a ∈ w'.events, a.time ≤ now) ∧
      (w'.state Projection.places (.room room)).get? id = some { place with isDeleted := deleted } ∧
      Marked deleted room id view e' ∧ Keeps (some (room, id)) none e e' ∧
      (place.isDeleted = deleted → Keeps none none e e') := by
  obtain ⟨r, e', events, ran, speaks', ev, isKind, inRoom, isPlace, isNow, rfl, rfl⟩ :=
    (togglePlace_ensures user toggles newest found).speaks speaks
  subst isKind inRoom isNow
  have speaks' : e'.Speaks (w.after ev) supply := speaks'
  have places := World.get?_places_after (w := w) toggles isPlace newest
  have marked := places ev.room id
  rw [if_pos rfl, found, Option.map_some] at marked
  have sameMember (other : RoomId) (member : UserId) : SameMembership other member e e' :=
    speaks.sameMembership speaks' (congrArg _ (World.roomIn_of_deletes toggles other))
      (congrArg (fun state => (Table.get? state other).isSome)
        (World.memberships_of_deletes toggles member))
  have samePlace (other : RoomId) (p : PlaceId) (apart : (other, p) ≠ (ev.room, id)) :
      SamePlace other p e e' :=
    speaks.samePlace speaks' ((places other p).trans (if_neg apart))
  refine ⟨_, e', w.after ev, ran, speaks', World.newest_after newest, marked, ?_, ?_, ?_⟩
  · refine ⟨Projection.place_id marked, rfl, ?_, speaks'.isListed marked⟩
    rintro rfl
    rfl
  · exact ⟨fun other p apart => samePlace other p fun same => apart (congrArg some same.symm),
      fun other member _ => sameMember other member⟩
  · intro before
    refine ⟨fun other p _ => ?_, fun other member _ => sameMember other member⟩
    by_cases same : (other, p) = (ev.room, id)
    · obtain ⟨rfl, rfl⟩ := Prod.mk.inj same
      refine speaks.samePlace speaks' (marked.trans ?_)
      rw [found, ← before]
    · exact samePlace other p same

theorem togglePlace_takesEffect (toggles : kind.deletes? = some deleted)
    (speaks : e.Speaks w 2) (newest : ∀ a ∈ w.events, a.time ≤ now) :
    TakesEffect (togglePlace kind user room id) (∃ place, (place? room id).Gives e (some place))
      (Marked deleted room id) (Keeps (some (room, id)) none) e now := by
  have given := (place?_settles room id).gives speaks
  cases found : (w.state Projection.places (.room room)).get? id with
  | none =>
    rw [found] at given
    refine .of_refused (togglePlace_missing user found) speaks ?_
    rintro ⟨place, there⟩
    cases given.unique there
  | some place =>
    rw [found] at given
    obtain ⟨view, e', w', ran, speaks', newest', marked, seen, keeps, -⟩ :=
      togglePlace_marks user toggles speaks newest found
    refine ⟨iff_of_true ⟨view, e', ran⟩ ⟨place, given⟩, fun view₁ e₁ ran₁ => ?_⟩
    obtain ⟨rfl, rfl⟩ : view = view₁ ∧ e' = e₁ := by simpa using ran.symm.trans ran₁
    refine ⟨seen, keeps, fun now' later => ?_⟩
    -- the place is marked by now, so to mark it again leaves it as it is
    obtain ⟨view'', e'', _, ran'', -, -, -, seen'', -, again⟩ :=
      togglePlace_marks user toggles speaks'
        (fun a ha => Instant.le_trans (newest' a ha) later) marked
    exact ⟨view'', e'', ran'', seen'', again rfl⟩

end Toggles

/-! ### Rooms joined and left -/

section Changes

variable {kind : EventKind} {member : Bool} (user : UserId) {room : RoomId} {now : Instant} {r : Room}

/-- The call changes the members of the room, and answers with its view. -/
theorem changeMembership_ensures (changes : kind.joins? = some member)
    (newest : ∀ a ∈ w.events, a.time ≤ now) (found : roomIn room w.events = some r) :
    (changeMembership kind user room now).Ensures w 1 fun answer events =>
      ∃ ev : Event, ev.kind = kind ∧ ev.actor = user ∧ ev.room = room ∧ ev.time = now ∧
        events = (w.after ev).events ∧ answer = .ok
          (roomView { r with members := Projection.memberStep ev r.members } w.users) := by
  refine (existingRoom_settles found).bind ?_
  apply write_ensures
  intro eventId
  let ev : Event :=
    { id := eventId, actor := user, room, kind, time := now, place := none, payload := "" }
  have changed : roomIn room (w.after ev).events =
      some { r with members := Projection.memberStep ev r.members } := by
    rw [World.roomIn_after (e := ev) changes newest, if_pos rfl, found, Option.map_some]
  refine Op.Settles.bind (w := w.after ev) (room_settles changed) ((tell_ensures _).bind (.pure ?_))
  exact ⟨ev, rfl, rfl, rfl, rfl, rfl, rfl⟩

/-- A user joins a room or leaves it, and nothing else changes; nor does the membership if it was so
before. -/
theorem changeMembership_changes (changes : kind.joins? = some member)
    (speaks : e.Speaks w (supply + 1)) (newest : ∀ a ∈ w.events, a.time ≤ now)
    (found : roomIn room w.events = some r) :
    ∃ view e' w', (changeMembership kind user room now).run e = (some (.ok view), e') ∧
      e'.Speaks w' supply ∧ (∀ a ∈ w'.events, a.time ≤ now) ∧
      roomIn room w'.events = some view.room ∧ view.room.hasMember user = member ∧
      ((w'.state Projection.memberships (.user user)).get? room).isSome = member ∧
      IsMember e' room user member ∧ Keeps none (some (room, user)) e e' ∧
      (r.hasMember user = member →
        ((w.state Projection.memberships (.user user)).get? room).isSome = member →
        Keeps none none e e') := by
  obtain ⟨answer, e', events, ran, speaks', ev, isKind, isActor, inRoom, isNow, rfl, rfl⟩ :=
    (changeMembership_ensures user changes newest found).speaks speaks
  subst isKind isActor inRoom isNow
  have speaks' : e'.Speaks (w.after ev) supply := speaks'
  have rooms := World.roomIn_after (w := w) changes newest
  have standings := World.isSome_membership_after (w := w) changes newest
  have changed := rooms ev.room
  rw [if_pos rfl, found, Option.map_some] at changed
  have own : ({ r with members := Projection.memberStep ev r.members } : Room).hasMember ev.actor =
      member := (World.hasMember_memberStep changes r ev.actor).trans (if_pos rfl)
  have standing := (standings ev.actor ev.room).trans (if_pos rfl)
  have samePlace (other : RoomId) (place : PlaceId) : SamePlace other place e e' :=
    speaks.samePlace speaks' (congrArg (Table.get? · place) (World.places_of_joins changes other))
  have sameMember (other : RoomId) (u : UserId) (apart : (other, u) ≠ (ev.room, ev.actor)) :
      SameMembership other u e e' := by
    refine speaks.sameMembership speaks' ?_ ((standings u other).trans (if_neg apart))
    rw [rooms other]
    split
    next same =>
      subst same
      have others : u ≠ ev.actor := fun same => apart (by rw [same])
      rw [found]
      exact congrArg some ((World.hasMember_memberStep changes r u).trans (if_neg others))
    next => rfl
  refine ⟨_, e', w.after ev, ran, speaks', World.newest_after newest, changed, own, standing, ?_, ?_,
    ?_⟩
  · exact own ▸ speaks'.isMember changed (standing.trans own.symm)
  · exact ⟨fun other place _ => samePlace other place,
      fun other u apart => sameMember other u fun same => apart (congrArg some same.symm)⟩
  · intro before before'
    refine ⟨fun other place _ => samePlace other place, fun other u _ => ?_⟩
    by_cases same : (other, u) = (ev.room, ev.actor)
    · obtain ⟨rfl, rfl⟩ := Prod.mk.inj same
      refine speaks.sameMembership speaks' ?_ (standing.trans before'.symm)
      rw [changed, found, Option.map_some, Option.map_some, own, before]
    · exact sameMember other u same

/-- What is seen of a user who has joined a room or left it. -/
def Moved (member : Bool) (room : RoomId) (user : UserId) (view : RoomView) (e : Engine) : Prop :=
  view.room.id = room ∧ view.room.hasMember user = member ∧ IsMember e room user member

theorem changeMembership_missing (missing : roomIn room w.events = none) :
    (changeMembership kind user room now).Settles w (.error (.notFound .room room.id.toText)) :=
  (existingRoom_missing missing).bind_error

theorem changeMembership_takesEffect (changes : kind.joins? = some member)
    (speaks : e.Speaks w 2) (newest : ∀ a ∈ w.events, a.time ≤ now) :
    TakesEffect (changeMembership kind user room) (∃ r, (room? room).Gives e (some r))
      (Moved member room user) (Keeps none (some (room, user))) e now := by
  have given : (room? room).Gives e (roomIn room w.events) := (room?_settles room).gives speaks
  cases found : roomIn room w.events with
  | none =>
    rw [found] at given
    refine .of_refused (changeMembership_missing user found) speaks ?_
    rintro ⟨r, there⟩
    cases given.unique there
  | some r =>
    rw [found] at given
    obtain ⟨view, e', w', ran, speaks', newest', found', member', standing', seen, keeps, -⟩ :=
      changeMembership_changes user changes speaks newest found
    refine ⟨iff_of_true ⟨view, e', ran⟩ ⟨r, given⟩, fun view₁ e₁ ran₁ => ?_⟩
    obtain ⟨rfl, rfl⟩ : view = view₁ ∧ e' = e₁ := by simpa using ran.symm.trans ran₁
    refine ⟨⟨Projection.room_id found', member', seen⟩, keeps, fun now' later => ?_⟩
    -- the user has moved by now, so to move again leaves the membership as it is
    obtain ⟨view'', e'', _, ran'', -, -, found'', member'', -, seen'', -, again⟩ :=
      changeMembership_changes user changes speaks'
        (fun a ha => Instant.le_trans (newest' a ha) later) found'
    exact ⟨view'', e'', ran'', ⟨Projection.room_id found'', member'', seen''⟩,
      again member' standing'⟩

end Changes

/-- After any commands, a change that is no earlier than any event in the log, and that meets no
outage, is accepted exactly if its place or its room is there, and takes effect.  A place taken off the
list is answered as deleted and without a chance, and is not listed; a place put back is answered as
live, and is listed.  A user who has joined a room is one of its members, and the room is among those
of the user; after leaving it, neither.  All other places, and the memberships of all others, are as
before.  The same call, at the same instant or later, is accepted again, has the same effect, and
changes nothing. -/
theorem changes_take_effect (settings : Settings) (entropy : UInt64) (log : EventLog)
    (directory : Directory) (ids : IdSupply) (commands : List Command) (user : UserId)
    (room : RoomId) (now : Instant) (ungated : log.gated = false)
    (distinct : (Loaded.ids log.events).Nodup)
    (fresh : ids.FreshFor log.events (2 + 2 * commands.length))
    (causal : ∀ a ∈ (runAll commands (start settings entropy log directory ids)).log.events,
      a.time ≤ now) :
    let e := (runAll commands (start settings entropy log directory ids)).recovered
    (∀ place, TakesEffect (deletePlace user room place)
      (∃ found, (place? room place).Gives e (some found))
      (fun view e' => view.place.id = place ∧ view.place.isDeleted = true ∧ view.chance = 0.0 ∧
        IsListed e' room place false)
      (Keeps (some (room, place)) none) e now) ∧
    (∀ place, TakesEffect (restorePlace user room place)
      (∃ found, (place? room place).Gives e (some found))
      (fun view e' => view.place.id = place ∧ view.place.isDeleted = false ∧
        IsListed e' room place true)
      (Keeps (some (room, place)) none) e now) ∧
    TakesEffect (joinRoom user room) (∃ found, (room? room).Gives e (some found))
      (fun view e' => view.room.id = room ∧ view.room.hasMember user = true ∧
        IsMember e' room user true)
      (Keeps none (some (room, user))) e now ∧
    TakesEffect (leaveRoom user room) (∃ found, (room? room).Gives e (some found))
      (fun view e' => view.room.id = room ∧ view.room.hasMember user = false ∧
        IsMember e' room user false)
      (Keeps none (some (room, user))) e now := by
  intro e
  obtain ⟨w, serves⟩ := runAll_start_serves settings entropy directory ungated distinct fresh
  have speaks : e.Speaks { w with locks := AllFree } 2 := ⟨serves.recovered, recovered_reliable _⟩
  have newest : ∀ a ∈ w.events, a.time ≤ now := fun a ha => causal a (by rwa [serves.events])
  refine ⟨fun place => ?_, fun place => ?_, ?_, ?_⟩
  · have toggles : EventKind.placeDeleted.deletes? = some true := rfl
    refine (togglePlace_takesEffect user toggles speaks newest).imp ?_
    rintro view e' ⟨isPlace, isDeleted, chance, listed⟩
    exact ⟨isPlace, isDeleted, chance rfl, listed⟩
  · have toggles : EventKind.placeRestored.deletes? = some false := rfl
    refine (togglePlace_takesEffect user toggles speaks newest).imp ?_
    rintro view e' ⟨isPlace, isDeleted, -, listed⟩
    exact ⟨isPlace, isDeleted, listed⟩
  · exact changeMembership_takesEffect user rfl speaks newest
  · exact changeMembership_takesEffect user rfl speaks newest

/-- In a room where all has happened at one instant, a place is taken off the list, and a user
joins. -/
theorem changes_take_effect_openedPlace :
    let e := (runAll openedPlace (start {} 0 {} {} (numbered 0))).recovered
    (∀ a ∈ e.log.events, a.time ≤ default) ∧
      (∃ view e', (deletePlace ⟨"bert"⟩ ⟨.ofNat 1⟩ ⟨.ofNat 3⟩ default).run e =
          (some (.ok view), e') ∧ view.place.isDeleted = true ∧
          IsListed e' ⟨.ofNat 1⟩ ⟨.ofNat 3⟩ false) ∧
      ∃ view e', (joinRoom ⟨"bert"⟩ ⟨.ofNat 1⟩ default).run e = (some (.ok view), e') ∧
        IsMember e' ⟨.ofNat 1⟩ ⟨"bert"⟩ true ∧ SamePlace ⟨.ofNat 1⟩ ⟨.ofNat 3⟩ e e' := by
  intro e
  have causal : ∀ a ∈ e.log.events, a.time ≤ default := by decide +kernel
  obtain ⟨deletes, -, joins, -⟩ := changes_take_effect {} 0 {} {} (numbered 0) openedPlace ⟨"bert"⟩
    ⟨.ofNat 1⟩ default rfl .nil ⟨by decide, by simp⟩ causal
  have mayDelete : ((deletePlace ⟨"bert"⟩ ⟨.ofNat 1⟩ ⟨.ofNat 3⟩ default).run e).1.map Except.toBool =
      some true := by decide +kernel
  have mayJoin : ((joinRoom ⟨"bert"⟩ ⟨.ofNat 1⟩ default).run e).1.map Except.toBool = some true := by
    decide +kernel
  obtain ⟨view, deleted⟩ := Op.exists_accepted mayDelete
  obtain ⟨view', joined⟩ := Op.exists_accepted mayJoin
  obtain ⟨⟨-, isDeleted, -, listed⟩, -⟩ := (deletes ⟨.ofNat 3⟩).2 view _ deleted
  obtain ⟨⟨-, -, isMember⟩, kept, -⟩ := joins.2 view' _ joined
  exact ⟨causal, ⟨view, _, deleted, isDeleted, listed⟩, view', _, joined, isMember,
    kept.places _ _ nofun⟩

end Engine

end NoonDraw
