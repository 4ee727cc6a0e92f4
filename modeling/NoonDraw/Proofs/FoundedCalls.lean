import NoonDraw.Proofs.FoundedReads
import NoonDraw.Proofs.RoomTurns

/-!
# The log stays well-formed

Calls of an engine check what they write against what they have read, and what they have read may be
long out of date.  That is enough for the log to stay well-formed, whatever else goes on meanwhile
(`log_wellFormed`): what they have read of is still in the log, and an identifier that has been drawn is
nobody else's.

A call may write an event if it has a warrant for it (`Warrant`): the event fits the log by the evidence
that the call has.  Each call that writes has one by the time it does (`written_yields`).
-/

namespace NoonDraw

namespace Engine

open Event

variable {α : Type} {own others : Multiset Evidence} {logged : List Event} {event : Event}
  {actor : UserId} {room : RoomId} {place : PlaceId} {kind : EventKind} {name : String}
  {time : Instant}

/-! ### Warrants -/

/-- What allows a call to write an event: it fits the log by the evidence that there is, and names
nothing but by an identifier that has been drawn. -/
structure Warrant (own : Multiset Evidence) (event : Event) : Prop where
  /-- The event fits the log. -/
  fits : ∀ {more : Nat} {e : Engine} {others : Multiset Evidence}, e.Founded more (own + others) →
    event.Fits e.log.events
  /-- What it names is named by an identifier that has been drawn. -/
  names : ∀ id, event.named? = some id → .drawn id ∈ own

/-- What has been seen in the log is there. -/
theorem Founded.seen_own {more : Nat} {e : Engine} (founded : e.Founded more (own + others))
    (seen : .logged logged ∈ own) : logged ⊆ e.log.events :=
  founded.seen logged (Multiset.mem_add.2 (Or.inl seen))

/-- An identifier that has been drawn has not been used. -/
theorem Founded.unused_own {more : Nat} {e : Engine} {id : Identifier}
    (founded : e.Founded more (own + others)) (drawn : .drawn id ∈ own) :
    id ∉ e.log.events.filterMap named? :=
  founded.names.unused id ((Multiset.mem_filterMap _ _).2 ⟨_, Multiset.mem_add.2 (Or.inl drawn), rfl⟩)

namespace Warrant

/-- A room is opened under a new identifier. -/
theorem roomCreated {id : EventId} (isName : IsName name) (drawn : .drawn room.id ∈ own) :
    Warrant own { id, actor, room, kind := .roomCreated, time, payload := name } where
  fits founded := ⟨rfl, isName, fun opened => founded.unused_own drawn opened.named⟩
  names
    | _, rfl => drawn

/-- Members come and go in rooms that have been opened. -/
theorem membership {id : EventId} (isMembership : kind = .roomJoined ∨ kind = .roomLeft)
    (seen : .logged logged ∈ own) (opened : Opened room logged) :
    Warrant own { id, actor, room, kind, time } := by
  have there {more : Nat} {e : Engine} {others : Multiset Evidence}
      (founded : e.Founded more (own + others)) : Opened room e.log.events :=
    opened.subset (founded.seen_own seen)
  rcases isMembership with rfl | rfl
  · exact ⟨fun founded => ⟨rfl, rfl, there founded⟩, fun _ => nofun⟩
  · exact ⟨fun founded => ⟨rfl, rfl, there founded⟩, fun _ => nofun⟩

/-- A place is added under a new identifier to a room that has been opened. -/
theorem placeCreated {id : EventId} (isName : IsName name) (drawn : .drawn place.id ∈ own)
    (seen : .logged logged ∈ own) (opened : Opened room logged) :
    Warrant own { id, actor, room, kind := .placeCreated, time, place, payload := name } where
  fits founded := ⟨place, rfl, isName, opened.subset (founded.seen_own seen),
    fun _ added => founded.unused_own drawn added.named⟩
  names
    | _, rfl => drawn

/-- What happens to a place happens in the room to which it has been added. -/
theorem ofPlace {id : EventId}
    (isOfPlace : kind ∈ [.placeDeleted, .placeRestored, .rollCreated, .boostCreated])
    (seen : .logged logged ∈ own) (added : Added room place logged) :
    Warrant own { id, actor, room, kind, time, place } := by
  have there {more : Nat} {e : Engine} {others : Multiset Evidence}
      (founded : e.Founded more (own + others)) : Added room place e.log.events :=
    added.subset (founded.seen_own seen)
  simp only [List.mem_cons, List.not_mem_nil, or_false] at isOfPlace
  rcases isOfPlace with rfl | rfl | rfl | rfl
  all_goals exact ⟨fun founded => ⟨place, rfl, rfl, there founded⟩, fun _ => nofun⟩

end Warrant

/-! ### Writes -/

/-- An event that is in the log is shown to the caches. -/
theorem observers_steps (event : Event) :
    founding.Steps (fun held => held = {.logged [event]}) (observers event) {.logged [event]} := by
  refine Protocol.steps_of_sound fun act hact more e others founded => ?_
  have founded : e.Founded more ({.logged [event]} + others) := founded
  have there : event ∈ e.log.events :=
    founded.seen_own (Multiset.mem_singleton_self _) (List.mem_singleton_self _)
  simp only [observers, List.mem_cons, List.not_mem_nil, or_false] at hact
  rcases hact with rfl | rfl | rfl | rfl | rfl
  · exact placeCache_goesBack.founded_set founded
      (founded.places.observe .places Projection.places_hasOrigins there)
  · exact founded.congr ⟨rfl, rfl, rfl, rfl⟩
  · exact founded.congr ⟨rfl, rfl, rfl, rfl⟩
  · exact roomCache_goesBack.founded_set founded
      (founded.rooms.observe .rooms Projection.rooms_hasOrigins there)
  · exact founded.congr ⟨rfl, rfl, rfl, rfl⟩

/-- An event is written for which there is a warrant. -/
theorem store_yields (warrant : Warrant own event) :
    (store event).Yields founding own fun _ _ => True := by
  have left : founding.Steps (fun _ => True) [] own := .nil trivial
  refine .bind (m := fun _ held => held = {.logged [event]}) (.fromStore
    (m := fun r held => r = .ok () → held = {.logged [event]}) (.suspend left ?_)
      (fun _ _ shown => shown rfl) fun _ _ _ => trivial) ?_
  · intro more e others _ founded
    have founded := Founded.fewer founded
    cases met : e.log.append event with
    | mk r log =>
      simp only [met]
      cases r with
      | ok =>
        have fits := warrant.fits founded
        refine ⟨{.logged [event]}, ?_, fun _ => rfl⟩
        rw [Multiset.singleton_add]
        exact founded.append (EventLog.append_ok met) fits warrant.names
      | error cause =>
        exact ⟨own, founded.congr ⟨EventLog.append_error met, rfl, rfl, rfl⟩, nofun⟩
  · rintro _ _ rfl
    exact .steps ((observers_steps event).mono fun _ _ => trivial)

theorem drawId_yields (own : Multiset Evidence) :
    drawId.Yields founding own fun id held => held = .drawn id ::ₘ own := by
  refine .instant fun more e others _ founded => ⟨.drawn e.ids.next.1 ::ₘ own, ?_, rfl⟩
  rw [Multiset.cons_add]
  exact Founded.draw founded

theorem newEvent_yields (kind : EventKind) (actor : UserId) (room : RoomId) (time : Instant)
    (place : Option PlaceId) (payload : String) (own : Multiset Evidence) :
    (newEvent kind actor room time place payload).Yields founding own fun event held =>
      (∃ id, event = { id, actor, room, kind, time, place, payload }) ∧ held = own := by
  refine (drawId_yields own).bind ?_
  rintro id _ rfl
  -- nothing is named by the identifier of an event
  exact .shift (.pure ⟨⟨⟨id⟩, rfl⟩, rfl⟩) (founding_shift (Multiset.le_cons_self own _))

/-- An event is made for which there is a warrant, and written, and then something else is done. -/
theorem written_yields {place : Option PlaceId} {payload : String} {rest : Event → Op α}
    (warrant : ∀ id, Warrant own { id, actor, room, kind, time, place, payload })
    (goesOn : ∀ event, (rest event).Idle founding) :
    (newEvent kind actor room time place payload >>= fun event =>
      store event >>= fun _ => rest event).Yields founding own fun _ _ => True := by
  refine (newEvent_yields kind actor room time place payload own).bind ?_
  rintro _ _ ⟨⟨id, rfl⟩, rfl⟩
  exact (store_yields (warrant id)).bind fun _ _ _ => .of_idle (goesOn _) (fun _ => trivial) trivial

/-! ### Rooms and places -/

theorem tell_founding (notification : Notification) : (tell notification).Idle founding :=
  .instant (harmless_of_same fun _ => ⟨rfl, rfl, rfl, rfl⟩)

/-- A name that is accepted is one. -/
theorem checkName_yields (subject : Subject) (text : String) (own : Multiset Evidence) :
    (checkName subject text).Yields founding own fun name held => held = own ∧ IsName name := by
  simp only [checkName]
  split
  · exact .throw trivial
  next notEmpty => exact .pure ⟨rfl, fun isEmpty => notEmpty (by simp [isEmpty]), Text.trim_trim text⟩

theorem createRoom_yields (user : UserId) (text : String) (now : Instant) :
    (createRoom user text now).Yields founding 0 fun _ _ => True := by
  refine (checkName_yields .room text 0).bind ?_
  rintro name _ ⟨rfl, isName⟩
  refine (drawId_yields 0).bind ?_
  rintro id _ rfl
  exact written_yields (fun _ => .roomCreated isName (Multiset.mem_cons_self _ _)) fun _ =>
    (founding_allowsReads.room _).bind fun view => told_idle tell_founding _ view

theorem changeMembership_yields (isMembership : kind = .roomJoined ∨ kind = .roomLeft)
    (user : UserId) (id : RoomId) (now : Instant) :
    (changeMembership kind user id now).Yields founding 0 fun _ _ => True := by
  refine (existingRoom_yields id 0).bind ?_
  rintro _ _ ⟨logged, rfl, opened⟩
  exact written_yields (fun _ => .membership isMembership (Multiset.mem_cons_self _ _) opened) fun _ =>
    (founding_allowsReads.room _).bind fun view => told_idle tell_founding _ view

theorem createPlace_yields (user : UserId) (room : RoomId) (text : String) (now : Instant) :
    (createPlace user room text now).Yields founding 0 fun _ _ => True := by
  refine (checkName_yields .place text 0).bind ?_
  rintro name _ ⟨rfl, isName⟩
  refine (existingRoom_yields room 0).bind ?_
  rintro _ _ ⟨logged, rfl, opened⟩
  refine (drawId_yields _).bind ?_
  rintro id _ rfl
  exact written_yields (fun _ => .placeCreated isName (Multiset.mem_cons_self _ _)
    (Multiset.mem_cons_of_mem (Multiset.mem_cons_self _ _)) opened) fun _ =>
      (founding_allowsReads.placeView room _ now).bind fun view => told_idle tell_founding _ view

theorem togglePlace_yields (isToggle : kind = .placeDeleted ∨ kind = .placeRestored)
    (user : UserId) (room : RoomId) (id : PlaceId) (now : Instant) :
    (togglePlace kind user room id now).Yields founding 0 fun _ _ => True := by
  refine (place?_yields room id 0).bind ?_
  rintro found _ ⟨logged, rfl, added⟩
  split
  · exact .throw_bind trivial
  next isFound =>
    have isAdded : Added room id logged := added (Option.isSome_iff_ne_none.2 (by simpa using isFound))
    refine written_yields (fun _ => .ofPlace ?_ (Multiset.mem_cons_self _ _) isAdded) fun _ =>
      (founding_allowsReads.placeView room id now).bind fun view => told_idle tell_founding _ view
    rcases isToggle with rfl | rfl <;> decide

/-! ### Draws -/

/-- A call that takes the lock of a room keeps the engine founded if what it does under the lock
does. -/
theorem withRoom_yields {body : Op α} (yields : body.Yields founding 0 fun _ _ => True) :
    (withRoom room body).Yields founding 0 fun _ _ => True := by
  have harmless (f : Engine → RoomLocks) : founding.Harmless fun e => { e with locks := f e } :=
    harmless_of_same fun _ => ⟨rfl, rfl, rfl, rfl⟩
  have cleaned (number : Nat) (held : Multiset Evidence) : founding.Steps (fun _ => True)
      [fun e => { e with locks := e.locks.letGo number },
        fun e => { e with locks := e.locks.forget room }] held := by
    refine (Protocol.harmless_steps (fun act hact => ?_) held).mono fun _ _ => trivial
    simp only [List.mem_cons, List.not_mem_nil, or_false] at hact
    rcases hact with rfl | rfl <;> exact harmless _
  refine ⟨Process.Keeps.bind (m := fun _ held => held = 0) (.instant (harmless _).step) ?_⟩
  rintro number _ rfl
  refine .bind (m := fun _ held => held = 0) (.suspend ?_ (harmless _).step) ?_
  · exact (Protocol.harmless_steps (List.forall_mem_singleton.2 (harmless _)) 0).mono fun _ _ => trivial
  · rintro _ _ rfl
    refine yields.run.guarded (fun r held _ => ?_) fun held _ => cleaned number held
    exact (cleaned number held).mono fun _ _ => by cases r <;> trivial

theorem pick_yields (weights : Table PlaceId Float) (own : Multiset Evidence) :
    (pick weights).Yields founding own fun picked held =>
      held = own ∧ ∀ id, picked = some id → id ∈ weights.keys := by
  refine .instant fun more e others _ founded => ⟨own, ?_, rfl, fun id => Lottery.mem_keys_of_pick⟩
  exact Founded.congr (Founded.fewer founded) ⟨rfl, rfl, rfl, rfl⟩

theorem boost_yields (user : UserId) (room : RoomId) (id : PlaceId) (now : Instant) :
    (boost user room id now).Yields founding 0 fun _ _ => True := by
  have isOfPlace : EventKind.boostCreated ∈
    [EventKind.placeDeleted, .placeRestored, .rollCreated, .boostCreated] := by decide
  rw [boost_eq]
  refine .idle_bind (founding_allowsReads.user? user) trivial fun record => .bind (withRoom_yields ?_)
    fun _ _ _ => .of_idle (told_idle tell_founding _ _) (fun _ => trivial) trivial
  refine (place?_yields room id 0).bind ?_
  rintro found _ ⟨logged, rfl, added⟩
  split
  · exact .throw trivial
  next place isLive =>
    have isAdded : Added room id logged := added ((Option.filter_eq_some_iff.1 isLive).1 ▸ rfl)
    refine .idle_bind (founding_allowsReads.history room now) trivial fun h => ?_
    dsimp only
    split
    · exact .throw_bind trivial
    · exact written_yields (fun _ => .ofPlace isOfPlace (Multiset.mem_cons_self _ _) isAdded)
        fun _ => .pure _

theorem roll_yields (user : UserId) (room : RoomId) (now : Instant) :
    (roll user room now).Yields founding 0 fun _ _ => True := by
  have isOfPlace : EventKind.rollCreated ∈
    [EventKind.placeDeleted, .placeRestored, .rollCreated, .boostCreated] := by decide
  rw [roll_eq]
  refine .idle_bind (founding_allowsReads.user? user) trivial fun record => .bind (withRoom_yields ?_)
    fun _ _ _ => .of_idle (told_idle tell_founding _ _) (fun _ => trivial) trivial
  refine (livePlaces_yields room 0).bind ?_
  rintro places _ ⟨logged, rfl, added⟩
  dsimp only
  split
  · exact .throw_bind trivial
  refine .idle_bind (founding_allowsReads.history room now) trivial fun h => ?_
  split
  · exact .throw_bind trivial
  refine (pick_yields _ _).bind ?_
  rintro (_ | picked) _ ⟨rfl, weighed⟩
  · exact .throw trivial
  · have isAdded : Added room picked logged :=
      added picked (History.mem_of_mem_weights (weighed picked rfl))
    exact written_yields (fun _ => .ofPlace isOfPlace (Multiset.mem_cons_self _ _) isAdded)
      fun _ => .pure _

/-! ### Runs -/

/-- Every command keeps the engine founded. -/
theorem Command.yields (c : Command) : c.perform.Yields founding 0 fun _ _ => True := by
  have replied {γ : Type} {op : Op γ} {reply : γ → Reply} (yields : op.Yields founding 0 fun _ _ => True) :
      (op >>= fun a => pure (reply a)).Yields founding 0 fun _ _ => True :=
    yields.bind fun _ _ _ => .pure trivial
  have read {γ : Type} {op : Op γ} {reply : γ → Reply} (idle : op.Idle founding) :
      (op >>= fun a => pure (reply a)).Yields founding 0 fun _ _ => True :=
    replied (.of_idle idle (fun _ => trivial) trivial)
  cases c with
  | createRoom user name now => exact replied (createRoom_yields user name now)
  | joinRoom user id now => exact replied (changeMembership_yields (.inl rfl) user id now)
  | leaveRoom user id now => exact replied (changeMembership_yields (.inr rfl) user id now)
  | room id => exact read (founding_allowsReads.room id)
  | listRooms user => exact read (founding_allowsReads.listRooms user)
  | createPlace user room name now => exact replied (createPlace_yields user room name now)
  | deletePlace user room id now => exact replied (togglePlace_yields (.inl rfl) user room id now)
  | restorePlace user room id now => exact replied (togglePlace_yields (.inr rfl) user room id now)
  | listPlaces room now => exact read (founding_allowsReads.listPlaces room now)
  | boost user room id now => exact replied (boost_yields user room id now)
  | roll user room now => exact replied (roll_yields user room now)
  | listRolls room => exact read (founding_allowsReads.listRolls room)
  | listBoosts room => exact read (founding_allowsReads.listBoosts room)

/-- Whatever goes on keeps the engine founded. -/
theorem Activity.founded (a : Activity) : founding.Member a.process 0 := by
  cases a with
  | command c =>
    have free (held : Multiset Evidence) : founding.Shift held 0 :=
      founding_shift (Multiset.zero_le held)
    have keeps : founding.Member (ExceptT.run c.perform).discard 0 :=
      (c.yields.run.giveUp free).bind fun _ _ none => .done none
    exact keeps
  | notifier change =>
    have harmless : founding.Harmless fun e => { e with notifier := change e.notifier } :=
      harmless_of_same fun _ => ⟨rfl, rfl, rfl, rfl⟩
    exact .instant harmless.step

/-- An engine that was started over an empty log is founded. -/
theorem founded_start (settings : Settings) (entropy : UInt64) {log : EventLog}
    (directory : Directory) {ids : IdSupply} {more : Nat} (empty : log.events = [])
    (fresh : ids.FreshFor [] more) :
    Founded more (start settings entropy log directory ids) 0 where
  log := by
    show WellFormed log.events
    rw [empty]
    exact .nil
  names := by
    show NamesSound ids (log.events.filterMap named?) _ more
    rw [empty]
    exact ⟨fresh.once, Multiset.nodup_zero, fun _ => nofun, fun _ _ => ⟨nofun, nofun⟩⟩
  seen := fun _ => nofun
  places := Cache.grounded_empty _
  rooms := Cache.grounded_empty _

/-- Whatever goes on in an engine that was started over an empty log, in whatever order: every event
fits those before it in the log. -/
theorem log_wellFormed (settings : Settings) (entropy : UInt64) (log : EventLog)
    (directory : Directory) (ids : IdSupply) (moves : List (Move Activity))
    (empty : log.events = []) (fresh : ids.FreshFor [] moves.length) :
    WellFormed (Crowd.run Activity.process
      ⟨start settings entropy log directory ids, []⟩ moves).state.log.events := by
  have started : Founded (0 + moves.length) (start settings entropy log directory ids) 0 :=
    founded_start settings entropy directory empty (by rwa [Nat.zero_add])
  obtain ⟨holdings, -, -, founded⟩ := Crowd.run_sound Activity.founded moves started
  exact Founded.log founded

theorem log_wellFormed_racing :
    let e := (Crowd.run Activity.process ⟨start {} 0 {} {} (numbered 0), []⟩ racing).state
    e.log.events.map Event.kind = [.roomCreated, .placeCreated, .rollCreated, .boostCreated] ∧
      WellFormed e.log.events :=
  ⟨by decide +kernel, log_wellFormed {} 0 {} {} (numbered 0) racing rfl
    (numbered_freshFor (by decide))⟩

end Engine

end NoonDraw
