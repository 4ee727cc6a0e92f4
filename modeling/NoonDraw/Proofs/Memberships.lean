import Mathlib.Data.List.Induction
import NoonDraw.Proofs.Restart

/-!
# The two views of membership

Who belongs to a room follows from the events of the room, and the rooms of a user follow from the
events of the user.  The two agree on every log whose rooms are each opened once, before anybody joins
or leaves and at no later time (`OpenedFirst`): in both, the last word of the user on the room in the
order of replay counts (`isSome_membership_iff`).  Hence the rooms listed for a user are those that
have the user as a member, each once, by the time of the user's last opening or joining and then by
identifier (`Engine.listRooms_memberships`).
-/

namespace NoonDraw

/-! ### Rooms that are opened first -/

/-- Whether the first of the events of a room opens it, and no other, and none is earlier. -/
def OpensFirst : List Event → Prop
  | [] => True
  | opening :: later =>
    opening.kind = .roomCreated ∧ ∀ e ∈ later, e.kind ≠ .roomCreated ∧ opening.time ≤ e.time

instance : DecidablePred OpensFirst
  | [] => isTrue trivial
  | _ :: _ => inferInstanceAs (Decidable (_ ∧ _))

/-- Whether each room in a log is opened by one event, appended before anybody joins or leaves the
room, and nobody joins or leaves it at an earlier time. -/
def OpenedFirst (events : List Event) : Prop :=
  ∀ room, OpensFirst (Projection.rooms.eventsIn (.room room) events)

instance (events : List Event) : Decidable (OpenedFirst events) :=
  decidable_of_iff (∀ e ∈ events, OpensFirst (Projection.rooms.eventsIn (.room e.room) events)) <| by
    refine ⟨fun each room => ?_, fun opened e _ => opened e.room⟩
    by_cases found : ∃ e ∈ events, e.room = room
    · obtain ⟨e, he, rfl⟩ := found
      exact each e he
    · have none : Projection.rooms.eventsIn (.room room) events = [] :=
        List.filter_eq_nil_iff.2 fun e he => by
          have elsewhere : e.room ≠ room := fun same => found ⟨e, he, same⟩
          simp [Scope.holds, elsewhere]
      rw [none]
      trivial

/-- Whether an event makes its actor a member. -/
def Event.isEntry (e : Event) : Bool := e.kind = .roomCreated || e.kind = .roomJoined

/-- The time of the last event in the order of replay by which a user opened or joined a room. -/
def joinedAt? (events : List Event) (user : UserId) (room : RoomId) : Option Instant :=
  ((Event.sortByTime events).filter fun e =>
    e.isEntry && decide (e.actor = user) && decide (e.room = room)).getLast?.map Event.time

namespace Projection

variable {events : List Event} {user : UserId} {room : RoomId}

/-- The events of a room in the order of replay. -/
def roomReplay (events : List Event) (room : RoomId) : List Event :=
  Event.sortByTime (rooms.eventsIn (.room room) events)

theorem mem_roomReplay {e : Event} :
    e ∈ roomReplay events room ↔ e ∈ events ∧ e.room = room ∧ roomKinds.contains e.kind := by
  simp [roomReplay, eventsIn, EventLog.select, Scope.holds, Event.matchesKinds, rooms, roomKinds]

theorem room_eq_replay (events : List Event) (room : RoomId) :
    (rooms.materialize (rooms.eventsIn (.room room) events)).get? room =
      replay roomTransition (roomReplay events room) none := by
  rw [materialize, rooms_lawful.get?_fold, replay]
  congr 1
  refine List.filter_eq_self.2 fun e he => ?_
  obtain ⟨-, inRoom, isKind⟩ := mem_roomReplay.1 he
  simp [reads, rooms, inRoom] at isKind ⊢
  exact isKind

/-- The membership of a user in a room follows from the events of the room by that user. -/
theorem membership_eq_replay (events : List Event) (user : UserId) (room : RoomId) :
    (memberships.materialize (memberships.eventsIn (.user user) events)).get? room =
      replay membershipTransition ((roomReplay events room).filter fun e => e.actor = user) none := by
  rw [materialize, memberships_lawful.get?_fold, replay, roomReplay, eventsIn, eventsIn,
    EventLog.select, EventLog.select, ← Event.filter_sortByTime, ← Event.filter_sortByTime,
    List.filter_filter, List.filter_filter]
  congr 1
  refine List.filter_congr fun e _ => ?_
  have some : roomKinds.isEmpty = false := rfl
  rw [Bool.eq_iff_iff]
  simp only [Scope.holds, reads, memberships, rooms, Event.matchesKinds, some, Bool.and_eq_true,
    Bool.false_or, decide_eq_true_eq, Option.some.injEq]
  tauto

/-! ### The last word of a user -/

theorem hasMember_newRoom (e : Event) (user : UserId) :
    (newRoom e).hasMember user = decide (e.actor = user) := by
  have nobody : (∅ : KeySet UserId).contains user = false := rfl
  rw [newRoom, Room.hasMember, KeySet.ofList, List.foldl_cons, List.foldl_nil, KeySet.contains_add,
    nobody, Bool.or_false, Bool.eq_iff_iff, beq_iff_eq, decide_eq_true_eq, Std.compare_eq_iff_eq, eq_comm]

/-- From the same standing on, a room and a membership take the same course. -/
theorem hasMember_replay (user : UserId) {later : List Event}
    (opened : ∀ e ∈ later, e.kind ≠ .roomCreated) {r : Room} {m : Option Membership}
    (same : r.hasMember user = m.isSome) :
    ∃ r', replay roomTransition later (some r) = some r' ∧ r'.hasMember user =
      (replay membershipTransition (later.filter fun e => e.actor = user) m).isSome := by
  induction later generalizing r m with
  | nil => exact ⟨r, rfl, same⟩
  | cons e later ih =>
    have rest := fun a ha => opened a (List.mem_cons_of_mem e ha)
    have notOpening := opened e List.mem_cons_self
    have stepped : roomTransition e (some r) = some { r with members := memberStep e r.members } := by
      rw [roomTransition_eq, if_neg notOpening, Option.map_some]
    have member : ({ r with members := memberStep e r.members } : Room).hasMember user =
        if e.actor = user then (membershipTransition e m).isSome else r.hasMember user := by
      simp only [Room.hasMember, Table.contains, get?_memberStep] at same ⊢
      by_cases mine : e.actor = user
      · cases kind : e.kind <;> simp_all [membershipTransition]
      · simp [mine, Ne.symm mine]
    rw [replay_cons, stepped]
    by_cases mine : e.actor = user
    · rw [if_pos mine] at member
      simpa [mine, replay_cons] using ih rest member
    · rw [if_neg mine, same] at member
      simpa [mine] using ih rest member

/-- A membership dates from the last entry. -/
theorem since_replay {own : List Event} (inRoom : ∀ e ∈ own, e.room = room) {m : Membership}
    (standing : replay membershipTransition own none = some m) :
    m.room = room ∧ (own.filter Event.isEntry).getLast?.map Event.time = some m.since := by
  induction own using List.reverseRecOn generalizing m with
  | nil => cases standing
  | append_singleton own e ih =>
    rw [replay_concat] at standing
    have before := @ih fun a ha => inRoom a (List.mem_append_left _ ha)
    have here := inRoom e (by simp)
    rw [List.filter_append]
    cases kind : e.kind with
    | roomCreated | roomJoined =>
      simp only [membershipTransition, kind, Option.some.injEq] at standing
      subst standing
      simp [Event.isEntry, kind, here]
    | roomLeft => simp [membershipTransition, kind] at standing
    | placeCreated | placeDeleted | placeRestored | rollCreated | boostCreated =>
      simp only [membershipTransition, kind] at standing
      simpa [Event.isEntry, kind] using before standing

/-- A room goes by the identifier in its events. -/
theorem room_id {r : Room}
    (found : (rooms.materialize (rooms.eventsIn (.room room) events)).get? room = some r) :
    r.id = room := by
  rw [room_eq_replay] at found
  refine forall_replay (P := fun r => r.id = room) ?_ (by simp) found
  intro e he entry before r' made
  rw [roomTransition_eq] at made
  split at made
  · obtain rfl := Option.some.inj made
    exact (mem_roomReplay.1 he).2.1
  · obtain ⟨old, there, rfl⟩ := Option.map_eq_some_iff.1 made
    exact before old there

theorem membership_room {m : Membership}
    (found : (memberships.materialize (memberships.eventsIn (.user user) events)).get? room = some m) :
    m.room = room ∧ joinedAt? events user room = some m.since := by
  rw [membership_eq_replay] at found
  obtain ⟨inRoom, since⟩ := since_replay
    (fun e he => (mem_roomReplay.1 (List.mem_filter.1 he).1).2.1) found
  refine ⟨inRoom, ?_⟩
  rw [← since, joinedAt?, roomReplay, eventsIn, EventLog.select, ← Event.filter_sortByTime,
    List.filter_filter, List.filter_filter]
  congr 2
  refine List.filter_congr fun e _ => ?_
  cases kind : e.kind <;> simp [Event.isEntry, kind, Scope.holds, rooms, roomKinds, Event.matchesKinds]

/-- A user belongs to a room as the events of the user have it if and only if the user is one of the
members that the room has by its own events. -/
theorem isSome_membership_iff (opened : OpenedFirst events) (user : UserId) (room : RoomId) :
    ((memberships.materialize (memberships.eventsIn (.user user) events)).get? room).isSome ↔
      ∃ r, (rooms.materialize (rooms.eventsIn (.room room) events)).get? room = some r ∧
        r.hasMember user := by
  have first := opened room
  rw [room_eq_replay, membership_eq_replay, roomReplay]
  cases found : rooms.eventsIn (.room room) events with
  | nil => simp [Event.sortByTime, replay]
  | cons opening later =>
    rw [found] at first
    obtain ⟨opens, rest⟩ := first
    -- the opening event is replayed first
    have sorted : Event.sortByTime (opening :: later) = opening :: Event.sortByTime later := by
      rw [← List.singleton_append, Event.sortByTime_append (by simpa using fun e he => (rest e he).2),
        Event.sortByTime_of_inOrder (List.pairwise_singleton _ _), List.singleton_append]
    have made : roomTransition opening none = some (newRoom opening) := by
      simp [roomTransition, opens]
    have same : (newRoom opening).hasMember user =
        (if opening.actor = user then membershipTransition opening none else none).isSome := by
      by_cases mine : opening.actor = user <;>
        simp [hasMember_newRoom, mine, membershipTransition, opens]
    obtain ⟨r, replayed, member⟩ := hasMember_replay user
      (fun e he => (rest e (Event.mem_sortByTime.1 he)).1) same
    have word : replay membershipTransition
          ((opening :: Event.sortByTime later).filter fun e => e.actor = user) none =
        replay membershipTransition ((Event.sortByTime later).filter fun e => e.actor = user)
          (if opening.actor = user then membershipTransition opening none else none) := by
      by_cases mine : opening.actor = user <;> simp [mine, replay_cons]
    rw [sorted, word, ← member, replay_cons, made, replayed]
    simp

end Projection

namespace Engine

/-! ### Listing the rooms of a user -/

/-- An engine that the rooms of its users can be listed from. -/
structure Shows (w : World) (e : Engine) : Prop where
  /-- The log has the events. -/
  events : e.log.events = w.events
  /-- Reads of the log are not held. -/
  ungated : e.log.gated = false
  /-- The directory has the users. -/
  users : e.directory.users = w.users
  /-- The cache of rooms agrees with the log. -/
  rooms : e.rooms.Agrees w.events
  /-- So does that of memberships. -/
  memberships : e.memberships.Agrees w.events

variable {w : World} {α β : Type}

theorem Serves.shows {supply : Nat} {e : Engine} (serves : e.Serves w supply) : e.Shows w :=
  ⟨serves.events, serves.ungated, serves.users, serves.rooms, serves.memberships⟩

/-- An engine that was just started shows its log, whatever that is. -/
theorem start_shows (settings : Settings) (entropy : UInt64) {log : EventLog} (directory : Directory)
    (ids : IdSupply) (ungated : log.gated = false) (locks : RoomLocks → Prop) :
    (start settings entropy log directory ids).Shows
      ⟨log.events, directory.users, settings.rules, locks⟩ :=
  ⟨rfl, ungated, rfl, Cache.agrees_empty _, Cache.agrees_empty _⟩

theorem Shows.sameLog {e : Engine} {log : EventLog} (shows : e.Shows w) (same : SameLog e.log log) :
    Shows w { e with log } :=
  { shows with
    events := same.events.trans shows.events
    ungated := same.gated.trans shows.ungated }

theorem roomCache_shows : roomCache.ReadUnder w.events (Shows w) :=
  ⟨Shows.events, Shows.ungated, Shows.rooms, fun shows agrees => { shows with rooms := agrees },
    Shows.sameLog⟩

theorem membershipCache_shows : membershipCache.ReadUnder w.events (Shows w) :=
  ⟨Shows.events, Shows.ungated, Shows.memberships,
    fun shows agrees => { shows with memberships := agrees }, Shows.sameLog⟩

/-- A process that answers from what an engine shows, unless a store fails. -/
def Lists (process : Process Engine (Except StoreError α)) (w : World) (answer : α) : Prop :=
  ∀ e : Engine, e.Shows w → ∃ r e', process.run e = (some r, e') ∧ e'.Shows w ∧
    (e.Reliable → e'.Reliable) ∧ (r = .ok answer ∨ ¬ e.Reliable ∧ ∃ cause, r = .error cause)

/-- A call that does. -/
def Op.Lists (op : Op α) (w : World) (answer : α) : Prop :=
  ∀ e : Engine, e.Shows w → ∃ r e', op.run e = (some r, e') ∧ e'.Shows w ∧
    (e.Reliable → e'.Reliable) ∧ (r = .ok answer ∨ ¬ e.Reliable ∧ IsStoreFailure r)

namespace Op.Lists

theorem pure (a : α) : Lists (Pure.pure a : Op α) w a :=
  fun e shows => ⟨_, e, rfl, shows, id, Or.inl rfl⟩

theorem bind {op : Op α} {g : α → Op β} {a : α} {b : β} (first : op.Lists w a)
    (rest : (g a).Lists w b) : (op >>= g).Lists w b := by
  intro e shows
  obtain ⟨r, e', ran, shows', reliable, answered | ⟨unreliable, operation, cause, rfl⟩⟩ :=
    first e shows
  · obtain ⟨r', e'', ran', shows'', reliable', outcome⟩ := rest e' shows'
    rw [Op.run_bind, ran, answered]
    exact ⟨r', e'', ran', shows'', reliable' ∘ reliable,
      outcome.imp_right fun ⟨unreliable, failed⟩ => ⟨unreliable ∘ reliable, failed⟩⟩
  · rw [Op.run_bind, ran]
    exact ⟨_, e', rfl, shows', reliable, Or.inr ⟨unreliable, operation, cause, rfl⟩⟩

theorem fromStore {operation : Operation} {process : Process Engine (Except StoreError α)} {a : α}
    (lists : Engine.Lists process w a) : Lists (Op.fromStore operation process) w a := by
  intro e shows
  obtain ⟨r, e', ran, shows', reliable, answered | ⟨unreliable, cause, rfl⟩⟩ := lists e shows
  · rw [Op.run_fromStore, ran, answered]
    exact ⟨_, e', rfl, shows', reliable, Or.inl rfl⟩
  · rw [Op.run_fromStore, ran]
    exact ⟨_, e', rfl, shows', reliable, Or.inr ⟨unreliable, operation, cause, rfl⟩⟩

end Op.Lists

theorem users_lists : users.Lists w w.users := by
  refine .fromStore fun e shows => ?_
  obtain ⟨r, ran, outcome⟩ := run_reach e id
  rw [shows.users] at outcome
  exact ⟨r, _, ran, { shows with }, fun reliable => { reliable with }, outcome⟩

/-- The room with an identifier, if it has been opened, as the events say. -/
def roomIn (room : RoomId) (events : List Event) : Option Room :=
  (Projection.rooms.materialize (Projection.rooms.eventsIn (.room room) events)).get? room

/-- The rooms of a user, oldest membership first. -/
def roomsIn (user : UserId) (events : List Event) : List Room :=
  (membershipsIn user events).filterMap fun m => roomIn m.room events

theorem membershipsOf_lists (user : UserId) :
    (membershipsOf user).Lists w (membershipsIn user w.events) :=
  (Op.Lists.fromStore fun _ shows => readLoaded_under membershipCache_proper (isScope_user user)
    membershipCache_shows Loaded.state shows).bind (.pure _)

theorem room?_lists (room : RoomId) : (room? room).Lists w (roomIn room w.events) :=
  .fromStore fun _ shows => readEntry_under roomCache_proper (isScope_room room).2.2.2
    roomCache_shows room shows

theorem viewsOf_lists (users : Table UserId User) (memberships : List Membership) :
    (viewsOf users memberships).Lists w
      ((memberships.filterMap fun m => roomIn m.room w.events).map (roomView · users)) := by
  induction memberships with
  | nil => exact .pure _
  | cons m rest ih =>
    refine (room?_lists m.room).bind ?_
    cases found : roomIn m.room w.events with
    | none => simpa only [List.filterMap_cons, found] using ih
    | some r =>
      simp only [List.filterMap_cons, found, List.map_cons]
      exact ih.bind (.pure _)

theorem listRooms_lists (user : UserId) :
    (listRooms user).Lists w ((roomsIn user w.events).map (roomView · w.users)) := by
  refine (membershipsOf_lists user).bind ?_
  split
  next none => rw [roomsIn, List.isEmpty_iff.1 none]; exact .pure _
  next => exact users_lists.bind (viewsOf_lists w.users _)

/-! ### The order of the list -/

variable {events : List Event}

theorem mem_membershipsIn {user : UserId} {m : Membership} :
    m ∈ membershipsIn user events ↔
      (Projection.memberships.materialize
        (Projection.memberships.eventsIn (.user user) events)).get? m.room = some m := by
  rw [membershipsIn, List.mem_mergeSort, Table.values, List.mem_map]
  constructor
  · rintro ⟨⟨room, m⟩, entry, rfl⟩
    have found := Table.get?_eq_some_iff.2 entry
    rwa [(Projection.membership_room found).1]
  · exact fun found => ⟨(m.room, m), Table.get?_eq_some_iff.1 found, rfl⟩

theorem membershipsIn_ordered (user : UserId) :
    (membershipsIn user events).Pairwise fun m m' =>
      m.since < m'.since ∨ m.since = m'.since ∧ compare m.room m'.room = .lt := by
  have trans : ∀ a b c : Membership, decide (a.since ≤ b.since) → decide (b.since ≤ c.since) →
      decide (a.since ≤ c.since) := fun a b c hab hbc => by
    simp only [decide_eq_true_eq] at *
    exact Instant.le_trans hab hbc
  have total : ∀ a b : Membership, (decide (a.since ≤ b.since) || decide (b.since ≤ a.since)) := by
    intro a b
    simp only [Bool.or_eq_true, decide_eq_true_eq, Instant.le_def]
    omega
  let values := (Projection.memberships.materialize
    (Projection.memberships.eventsIn (.user user) events)).values
  have byRoom : values.Pairwise fun m m' => compare m.room m'.room = .lt := by
    refine List.pairwise_map.2 ((Table.ascending _).imp_of_mem fun ha hb lt => ?_)
    rwa [(Projection.membership_room (Table.get?_eq_some_iff.2 ha)).1,
      (Projection.membership_room (Table.get?_eq_some_iff.2 hb)).1]
  have sorted := List.pairwise_mergeSort trans total values
  refine List.pairwise_iff_forall_sublist.2 fun {m m'} sub => ?_
  have le : m.since ≤ m'.since := by simpa using sorted.forall_sublist sub
  by_cases same : m.since = m'.since
  · -- sorting has left the memberships of one instant in the order of their rooms
    have tied := filter_mergeSort trans total
      (q := fun a : Membership => decide (a.since = m'.since)) (fun a b ha hb => by
        simp only [decide_eq_true_eq] at *
        rw [ha, hb]
        exact Instant.le_refl _) values
    have kept := sub.filter fun a : Membership => decide (a.since = m'.since)
    rw [membershipsIn, tied] at kept
    have among : [m, m'].Sublist values := by
      simpa [same] using kept.trans List.filter_sublist
    exact Or.inr ⟨same, byRoom.forall_sublist among⟩
  · refine Or.inl (Instant.not_le.1 fun ge => same (Instant.le_antisymm le ge))

/-- Whether a user came to one room before another: at an earlier time, or at the same time if the
identifier of the one is smaller. -/
def CameBefore (events : List Event) (user : UserId) (room room' : RoomId) : Prop :=
  ∃ t t', joinedAt? events user room = some t ∧ joinedAt? events user room' = some t' ∧
    (t < t' ∨ t = t' ∧ compare room room' = .lt)

theorem roomsIn_ordered (user : UserId) :
    (roomsIn user events).Pairwise fun r r' => CameBefore events user r.id r'.id := by
  refine List.Pairwise.filterMap _ (fun m m' before r found r' found' => ?_)
    ((membershipsIn_ordered user).imp_of_mem fun hm hm' before =>
      And.intro hm (And.intro hm' before))
  obtain ⟨hm, hm', before⟩ := before
  rw [Projection.room_id found, Projection.room_id found']
  exact ⟨m.since, m'.since, (Projection.membership_room (mem_membershipsIn.1 hm)).2,
    (Projection.membership_room (mem_membershipsIn.1 hm')).2, before⟩

theorem mem_roomsIn (opened : OpenedFirst events) {user : UserId} {r : Room} :
    r ∈ roomsIn user events ↔ roomIn r.id events = some r ∧ r.hasMember user := by
  have agree := Projection.isSome_membership_iff opened user
  rw [roomsIn, List.mem_filterMap]
  constructor
  · rintro ⟨m, hm, found⟩
    obtain ⟨r', found', member⟩ :=
      (agree m.room).1 (Option.isSome_iff_exists.2 ⟨m, mem_membershipsIn.1 hm⟩)
    obtain rfl : r' = r := Option.some.inj (found'.symm.trans found)
    rw [Projection.room_id found]
    exact ⟨found, member⟩
  · rintro ⟨found, member⟩
    obtain ⟨m, standing⟩ := Option.isSome_iff_exists.1 ((agree r.id).2 ⟨r, found, member⟩)
    have inRoom := (Projection.membership_room standing).1
    exact ⟨m, mem_membershipsIn.2 (inRoom.symm ▸ standing), inRoom.symm ▸ found⟩

/-- If the rooms of a log are opened first, the events of any user make the user belong to a room if
and only if the events of the room do.  Then an engine lists for a user exactly the rooms that have
the user as a member, each once, by the time at which the user last opened or joined them in the order
of replay and, at one time, by identifier; it fails to do so only where a store fails.  The engine may
have carried out any commands or may just have been started; in this case events may share an
identifier. -/
theorem listRooms_memberships (settings : Settings) (entropy : UInt64) (log : EventLog)
    (directory : Directory) (ids : IdSupply) (commands : List Command)
    (ungated : log.gated = false)
    (known : commands = [] ∨
      (Loaded.ids log.events).Nodup ∧ ids.FreshFor log.events (2 * commands.length))
    (opened : OpenedFirst (runAll commands (start settings entropy log directory ids)).log.events) :
    let e := runAll commands (start settings entropy log directory ids)
    let room? (room : RoomId) := (Projection.rooms.materialize
      (Projection.rooms.eventsIn (.room room) e.log.events)).get? room
    (∀ user room, ((Projection.memberships.materialize
        (Projection.memberships.eventsIn (.user user) e.log.events)).get? room).isSome ↔
      ∃ r, room? room = some r ∧ r.hasMember user) ∧
    ∀ user, ∃ answer, ((listRooms user).run e).1 = some answer ∧
      ((¬ e.Reliable ∧ IsStoreFailure answer) ∨ ∃ rooms : List Room,
        answer = .ok (rooms.map (roomView · e.directory.users)) ∧
        (∀ r, r ∈ rooms ↔ room? r.id = some r ∧ r.hasMember user) ∧
        rooms.Pairwise fun r r' => CameBefore e.log.events user r.id r'.id) := by
  intro e room?
  have shows : ∃ w : World, e.Shows w := by
    rcases known with rfl | ⟨distinct, fresh⟩
    · exact ⟨_, start_shows settings entropy directory ids ungated AllFree⟩
    · obtain ⟨events, serves⟩ : ∃ events, e.Serves ⟨events, directory.users, settings.rules, AllFree⟩
          0 :=
        runAll_serves (w := ⟨log.events, directory.users, settings.rules, AllFree⟩) commands
          (start_serves settings entropy log directory ungated distinct (by rwa [Nat.zero_add]))
      exact ⟨_, serves.shows⟩
  obtain ⟨w, shows⟩ := shows
  have inWorld : OpenedFirst w.events := shows.events ▸ opened
  refine ⟨Projection.isSome_membership_iff opened, fun user => ?_⟩
  obtain ⟨answer, e', ran, -, -, outcome⟩ := listRooms_lists user e shows
  refine ⟨answer, by rw [ran], outcome.symm.imp_right fun answered =>
    ⟨roomsIn user w.events, ?_, fun r => ?_, ?_⟩⟩
  · rw [answered, shows.users]
  · rw [mem_roomsIn inWorld]
    simp only [room?, shows.events]
    rfl
  · rw [shows.events]
    exact roomsIn_ordered user

/-- Two rooms are opened at one time; the user who opened the one joins the other and then leaves the
own one. -/
def movedOut : List Command :=
  [.listRooms ⟨"anna"⟩, .createRoom ⟨"anna"⟩ "one" (.ofSeconds 5),
    .createRoom ⟨"bert"⟩ "two" (.ofSeconds 5), .joinRoom ⟨"anna"⟩ ⟨.ofNat 3⟩ (.ofSeconds 5),
    .leaveRoom ⟨"anna"⟩ ⟨.ofNat 1⟩ (.ofSeconds 9)]

theorem listRooms_memberships_movedOut :
    let e := runAll movedOut (start {} 0 {} {} (numbered 0))
    e.log.events.length = 4 ∧ OpenedFirst e.log.events ∧
      ∃ answer, ((listRooms ⟨"anna"⟩).run e).1 = some answer ∧
        ((¬ e.Reliable ∧ IsStoreFailure answer) ∨ ∃ rooms : List Room,
          answer = .ok (rooms.map (roomView · e.directory.users)) ∧
          (∀ r, r ∈ rooms ↔ (Projection.rooms.materialize
              (Projection.rooms.eventsIn (.room r.id) e.log.events)).get? r.id = some r ∧
            r.hasMember ⟨"anna"⟩) ∧
          rooms.Pairwise fun r r' => CameBefore e.log.events ⟨"anna"⟩ r.id r'.id) := by
  have opened : OpenedFirst (runAll movedOut (start {} 0 {} {} (numbered 0))).log.events := by
    decide +kernel
  exact ⟨by decide +kernel, opened, (listRooms_memberships {} 0 {} {} (numbered 0) movedOut rfl
    (Or.inr ⟨.nil, by decide, by simp⟩) opened).2 ⟨"anna"⟩⟩

/-- The user is left with the other's room. -/
example :
    ((listRooms ⟨"anna"⟩).run (runAll movedOut (start {} 0 {} {} (numbered 0)))).1.map
      (Except.map fun views => views.map fun view => view.room.id) = some (.ok [⟨.ofNat 3⟩]) := by
  decide +kernel

end Engine

end NoonDraw
