import NoonDraw.Engine.Calls
import NoonDraw.Proofs.Draws
import NoonDraw.Proofs.EngineSpec

/-!
# Verdicts

Whether a call of the engine is accepted, and if not why, is settled by the world it works on: by the
events in the log, the users and the rules, whatever is cached (`Op.Judged`).  For a call that only
reads, so is its answer (`Op.Settled`).  The verdicts on draws are functions of what the room holds
(`boostVerdict`, `rollVerdict`).
-/

namespace NoonDraw

namespace World

/-- The history of a room as seen at an instant. -/
def historyAt (w : World) (room : RoomId) (t : Instant) : History Float :=
  .build (Projection.rolls.listed room w.events) (Projection.boosts.listed room w.events) t w.rules

/-- The places of a room that are not deleted. -/
def livePlacesIn (w : World) (room : RoomId) : Table PlaceId Place :=
  (w.state Projection.places (.room room)).filter fun _ place => !place.isDeleted

end World

/-! ### What is drawn -/

namespace Lottery

variable {W : Type} [Weight W] {id : PlaceId}

theorem mem_of_landing? {number : W} {entries : List (PlaceId × W)}
    (landed : landing? number entries = some id) : id ∈ entries.map Prod.fst := by
  induction entries generalizing number with
  | nil => cases landed
  | cons entry rest ih =>
    rw [landing?] at landed
    split at landed
    · rw [← Option.some.inj landed]
      exact List.mem_cons_self
    · exact List.mem_cons_of_mem _ (ih landed)

theorem mem_keys_of_place? {weights : Table PlaceId W} {number : W}
    (found : place? weights number = some id) : id ∈ weights.keys := by
  unfold place? at found
  cases landed : landing? number weights.entries with
  | some landing =>
    rw [landed] at found
    exact Option.some.inj found ▸ mem_of_landing? landed
  | none =>
    rw [landed] at found
    exact List.mem_of_getLast? found

/-- Only places that have weights are picked. -/
theorem mem_keys_of_pick {lottery : Lottery} {weights : Table PlaceId Float}
    (picked : (lottery.pick weights).1 = some id) : id ∈ weights.keys := by
  unfold pick at picked
  dsimp only at picked
  split at picked
  · exact mem_keys_of_place? picked
  · cases picked

end Lottery

/-- Only places that are given have weights. -/
theorem History.mem_of_mem_weights {h : History Float} {places : List PlaceId} {now : Instant}
    {id : PlaceId} (weighed : id ∈ (h.weights places now).keys) : id ∈ places := by
  obtain ⟨entry, isEntry, rfl⟩ := List.mem_map.1 weighed
  rcases Table.mem_entries_insertAll isEntry with none | given
  · cases none
  · obtain ⟨id, isGiven, rfl⟩ := List.mem_map.1 given
    exact isGiven

namespace Engine

variable {w : World}

/-! ### Rules -/

namespace Op

variable {α β : Type}

/-- A call that goes through. -/
def Accepted (op : Op α) (w : World) (n : Nat) : Prop :=
  op.Ensures w n fun r _ => ∃ a, r = .ok a

/-- A call whose verdict is that of the world.  No call draws more than two identifiers. -/
def Judged (op : Op α) (w : World) : Prop :=
  ∃ verdict : Except Failure Unit, op.Ensures w 2 fun r _ => r.map (fun _ => ()) = verdict

variable {op : Op α} {g : α → Op β} {n m : Nat}

theorem Settles.pure (a : α) : Settles (Pure.pure a : Op α) w (.ok a) := Ensures.pure ⟨rfl, rfl⟩

theorem Settles.throw (f : Failure) :
    Settles (MonadExcept.throw f : Op α) w (.error f) := Ensures.throw ⟨rfl, rfl⟩

theorem Settles.accepted {a : α} (settles : op.Settles w (.ok a)) : op.Accepted w 0 :=
  settles.mono fun _ _ ⟨same, _⟩ => ⟨a, same⟩

theorem Accepted.bind (first : op.Accepted w n)
    (rest : ∀ a events, (g a).Accepted { w with events } m) :
    (op >>= g).Accepted w (m + n) :=
  Ensures.bind first (fun _ _ holds => nomatch holds) fun a events _ => rest a events

theorem Accepted.judged (accepted : op.Accepted w n) (le : n ≤ 2) : op.Judged w :=
  ⟨.ok (), (accepted.mono fun _ _ ⟨_, same⟩ => by rw [same]; rfl).le le⟩

theorem Settled.judged (settled : op.Settled w) : op.Judged w := by
  obtain ⟨answer, settles⟩ := settled
  exact ⟨answer.map fun _ => (),
    (settles.mono fun _ _ ⟨same, _⟩ => by rw [same]).le (Nat.zero_le 2)⟩

theorem Settled.bind_judged (first : op.Settled w) (rest : ∀ a, (g a).Judged w) :
    (op >>= g).Judged w := by
  obtain ⟨f | a, settles⟩ := first
  · exact settles.bind_error.settled.judged
  · obtain ⟨verdict, ensures⟩ := rest a
    exact ⟨verdict, settles.bind ensures⟩

/-- What follows a call and goes through does not change its verdict. -/
theorem Judged.bind_accepted (first : op.Judged w)
    (rest : ∀ a events, (g a).Accepted { w with events } 0) : (op >>= g).Judged w := by
  obtain ⟨verdict, ensures⟩ := first
  refine ⟨verdict, Ensures.bind (m := 0) ensures (fun f events holds => holds)
    fun a events holds => ?_⟩
  exact (rest a events).mono fun r _ ⟨b, same⟩ => by rw [same]; exact holds

end Op

/-! ### What rooms hold -/

section Existence

/-- An entry is there once an event has made it, if nothing takes it away. -/
theorem isSome_replay {ε : Type} {transition : Event → Option ε → Option ε} (makes : Event → Prop)
    (events : List Event)
    (keeps : ∀ e ∈ events, ∀ x, (transition e x).isSome ↔ x.isSome ∨ makes e) (entry : Option ε) :
    (Projection.replay transition events entry).isSome ↔
      entry.isSome ∨ ∃ e ∈ events, makes e := by
  induction events generalizing entry with
  | nil => simp [Projection.replay]
  | cons e events ih =>
    have rest := ih (fun a ha => keeps a (List.mem_cons_of_mem e ha)) (transition e entry)
    rw [keeps e List.mem_cons_self, or_assoc] at rest
    simpa [Projection.replay] using rest

/-- An entry is there iff one of the events that touch it has made it. -/
theorem isSome_state_iff {κ ε : Type} [Key κ] [DecidableEq κ] {p : Projection κ ε}
    {transition : Event → Option ε → Option ε} (lawful : p.Lawful transition)
    (makes : Event → Prop) {scope : Scope} {k : κ}
    (keeps : ∀ e, p.key e = some k → p.reads e.kind → ∀ x,
      (transition e x).isSome ↔ x.isSome ∨ makes e) :
    ((w.state p scope).get? k).isSome ↔
      ∃ e ∈ p.eventsIn scope w.events, p.reads e.kind ∧ p.key e = some k ∧ makes e := by
  rw [World.state, Projection.materialize, lawful.get?_fold]
  refine (isSome_replay makes _ (fun e he => ?_) none).trans ?_
  · have touches := (List.mem_filter.1 he).2
    simp only [Bool.and_eq_true, decide_eq_true_eq] at touches
    exact keeps e touches.2 touches.1
  · simp [and_assoc]

theorem isSome_place_iff {room : RoomId} {place : PlaceId} :
    ((w.state Projection.places (.room room)).get? place).isSome ↔
      ∃ e ∈ w.events, e.room = room ∧ e.place = some place ∧ e.kind = .placeCreated := by
  rw [isSome_state_iff (by convert Projection.places_lawful)
    (fun e => e.kind = .placeCreated), Projection.IsCached.places.eventsIn_eq
      (isScope_room room).1]
  · apply exists_congr
    intro e
    simp only [List.mem_filter, Projection.isIn, Bool.and_eq_true, decide_eq_true_eq]
    constructor
    · rintro ⟨⟨he, -, scope⟩, -, key, created⟩
      exact ⟨he, Scope.room.inj scope, key, created⟩
    · rintro ⟨he, rfl, key, created⟩
      have reads : Projection.places.reads e.kind := by rw [created]; rfl
      exact ⟨⟨he, reads, rfl⟩, reads, key, created⟩
  · intro e key _ x
    have isPlace : e.place = some place := key
    cases h : e.kind <;> simp [Projection.placeTransition, h, isPlace]

theorem isSome_room_iff {room : RoomId} :
    ((w.state Projection.rooms (.room room)).get? room).isSome ↔
      ∃ e ∈ w.events, e.room = room ∧ e.kind = .roomCreated := by
  rw [isSome_state_iff (by convert Projection.rooms_lawful)
    (fun e => e.kind = .roomCreated), Projection.IsCached.rooms.eventsIn_eq
      (isScope_room room).2.2.2]
  · apply exists_congr
    intro e
    simp only [List.mem_filter, Projection.isIn, Bool.and_eq_true, decide_eq_true_eq]
    constructor
    · rintro ⟨⟨he, -, scope⟩, -, -, created⟩
      exact ⟨he, Scope.room.inj scope, created⟩
    · rintro ⟨he, rfl, created⟩
      have reads : Projection.rooms.reads e.kind := by rw [created]; rfl
      exact ⟨⟨he, reads, rfl⟩, reads, rfl, created⟩
  · intro e _ _ x
    cases h : e.kind <;> simp [Projection.roomTransition, h]

end Existence

/-! ### Rooms -/

theorem checkName_settled (subject : Subject) (name : String) :
    (checkName subject name).Settled w := by
  simp only [checkName]
  split
  · exact .throw _
  · exact .pure _

theorem existingRoom_settles {id : RoomId} {room : Room}
    (found : (w.state Projection.rooms (.room id)).get? id = some room) :
    (existingRoom id).Settles w (.ok room) := by
  refine (room?_settles id).bind ?_
  rw [found]
  exact .pure ⟨rfl, rfl⟩

theorem existingRoom_missing {id : RoomId}
    (missing : (w.state Projection.rooms (.room id)).get? id = none) :
    (existingRoom id).Settles w (.error (.notFound .room id.id.toText)) := by
  refine (room?_settles id).bind ?_
  rw [missing]
  exact .throw ⟨rfl, rfl⟩

theorem existingRoom_settled (id : RoomId) : (existingRoom id).Settled w := by
  cases found : (w.state Projection.rooms (.room id)).get? id with
  | none => exact (existingRoom_missing found).settled
  | some room => exact (existingRoom_settles found).settled

theorem room_settled (id : RoomId) : (room id).Settled w :=
  (existingRoom_settled id).bind fun _ => users_settles.settled.bind fun _ => .pure _

/-- A room that has been opened is shown. -/
theorem room_accepted {id : RoomId} {e : Event} (logged : e ∈ w.events) (inRoom : e.room = id)
    (created : e.kind = .roomCreated) : (room id).Accepted w 0 := by
  have exists' := isSome_room_iff.2 ⟨e, logged, inRoom, created⟩
  obtain ⟨r, found⟩ := Option.isSome_iff_exists.1 exists'
  exact (existingRoom_settles found).bind (users_settles.bind (.pure ⟨_, rfl⟩))

theorem drawId_accepted : drawId.Accepted w 1 := drawId_ensures.mono fun _ _ holds => holds.1

/-- A view is told and answered. -/
theorem told_accepted {β : Type} (notification : Notification) (view : β) :
    (tell notification >>= fun _ => (pure view : Op β)).Accepted w 0 :=
  (tell_ensures notification).bind (.pure ⟨_, rfl⟩)

theorem createRoom_judged (user : UserId) (name : String) (now : Instant) :
    (createRoom user name now).Judged w := by
  refine (checkName_settled .room name).bind_judged fun name =>
    Op.Accepted.judged (n := 2) ?_ le_rfl
  refine drawId_accepted.bind (m := 1) ?_
  intro i events
  apply write_ensures
  intro id
  refine Op.Accepted.bind (n := 0) (m := 0) ?_ fun view _ => told_accepted _ view
  exact room_accepted List.mem_concat_self rfl rfl

theorem changeMembership_judged (kind : EventKind) (user : UserId) (id : RoomId) (now : Instant) :
    (changeMembership kind user id now).Judged w := by
  cases found : (w.state Projection.rooms (.room id)).get? id with
  | none => exact (existingRoom_missing found).bind_error.settled.judged
  | some room =>
    obtain ⟨e, logged, inRoom, created⟩ :=
      isSome_room_iff.1 (Option.isSome_iff_exists.2 ⟨room, found⟩)
    refine Op.Accepted.judged (n := 1)
      ((existingRoom_settles found).bind (write_ensures fun _ => ?_)) (by decide)
    refine Op.Accepted.bind (n := 0) (m := 0) ?_ fun view _ => told_accepted _ view
    exact room_accepted (List.mem_append_left _ logged) inRoom created

theorem viewsOf_settled (users : Table UserId User) (memberships : List Membership) :
    (viewsOf users memberships).Settled w := by
  induction memberships with
  | nil => exact .pure _
  | cons m rest ih =>
    refine (room?_settles m.room).settled.bind fun found => ?_
    cases found with
    | none => exact ih
    | some r => exact ih.bind fun _ => .pure _

theorem listRooms_settled (user : UserId) : (listRooms user).Settled w := by
  refine (membershipsOf_settles user).settled.bind ?_
  intro memberships
  split
  · exact .pure _
  · exact users_settles.settled.bind fun users => viewsOf_settled users memberships

/-! ### Places -/

theorem livePlaces_settles (room : RoomId) :
    (livePlaces room).Settles w (.ok (w.livePlacesIn room)) :=
  (placesOf_settles room).bind (.pure ⟨rfl, rfl⟩)

theorem rules_settles : (Op.instant fun e => (e.rules, e)).Settles w (.ok w.rules) :=
  .instant fun _ _ serves => ⟨serves, id, congrArg _ serves.rules, rfl⟩

/-- The history by which draws are allowed is that of the log. -/
theorem history_settles (room : RoomId) (now : Instant) :
    (history room now).Settles w (.ok (w.historyAt room now)) :=
  (rollsOf_settles room).bind ((boostsOf_settles room).bind (rules_settles.bind (.pure ⟨rfl, rfl⟩)))

/-- A place that the room has is shown. -/
theorem placeView_accepted {room : RoomId} {id : PlaceId} (now : Instant) {e : Event}
    (logged : e ∈ w.events) (inRoom : e.room = room) (isPlace : e.place = some id)
    (created : e.kind = .placeCreated) : (placeView room id now).Accepted w 0 := by
  have exists' := isSome_place_iff.2 ⟨e, logged, inRoom, isPlace, created⟩
  obtain ⟨place, found⟩ := Option.isSome_iff_exists.1 exists'
  refine (place?_settles room id).bind ?_
  rw [found]
  have shown (chance : Float) : (user? place.creator >>= fun user =>
      (pure { place, user, chance } : Op PlaceView)).Accepted w 0 :=
    (user?_settles place.creator).bind (.pure ⟨_, rfl⟩)
  dsimp only
  split
  · exact (Op.Settles.pure _).bind (shown _)
  · exact (livePlaces_settles room).bind
      ((history_settles room now).bind ((Op.Settles.pure _).bind (shown _)))

theorem createPlace_judged (user : UserId) (room : RoomId) (name : String) (now : Instant) :
    (createPlace user room name now).Judged w := by
  refine (checkName_settled .place name).bind_judged ?_
  intro name
  refine (existingRoom_settled room).bind_judged fun _ =>
    Op.Accepted.judged (n := 2) ?_ le_rfl
  refine drawId_accepted.bind (m := 1) ?_
  intro i events
  apply write_ensures
  intro id
  refine Op.Accepted.bind (n := 0) (m := 0) ?_ fun view _ => told_accepted _ view
  exact placeView_accepted now List.mem_concat_self rfl rfl rfl

theorem togglePlace_judged (kind : EventKind) (user : UserId) (room : RoomId) (id : PlaceId)
    (now : Instant) : (togglePlace kind user room id now).Judged w := by
  cases found : (w.state Projection.places (.room room)).get? id with
  | none =>
    refine Op.Settled.judged ⟨.error (.notFound .place id.id.toText),
      (place?_settles room id).bind ?_⟩
    rw [found]
    exact (Op.Settles.throw _).bind_error
  | some place =>
    obtain ⟨e, logged, inRoom, isPlace, created⟩ :=
      isSome_place_iff.1 (Option.isSome_iff_exists.2 ⟨place, found⟩)
    refine Op.Accepted.judged (n := 1) ((place?_settles room id).bind ?_) (by decide)
    rw [found]
    apply write_ensures
    intro _
    refine Op.Accepted.bind (n := 0) (m := 0) ?_ fun view _ => told_accepted _ view
    exact placeView_accepted now (List.mem_append_left _ logged) inRoom isPlace created

theorem listPlaces_settled (room : RoomId) (now : Instant) : (listPlaces room now).Settled w := by
  refine (livePlaces_settles room).settled.bind ?_
  intro places
  split
  · exact .pure _
  · exact (history_settles room now).settled.bind fun h =>
      users_settles.settled.bind fun users => .pure _

/-! ### Draws -/

theorem listRolls_settled (room : RoomId) : (listRolls room).Settled w := by
  refine (rollsOf_settles room).settled.bind ?_
  intro rolls
  split
  · exact .pure _
  · exact (placesOf_settles room).settled.bind fun places =>
      users_settles.settled.bind fun users => .pure _

theorem listBoosts_settled (room : RoomId) : (listBoosts room).Settled w := by
  refine (boostsOf_settles room).settled.bind ?_
  intro boosts
  split
  · exact .pure _
  · exact (placesOf_settles room).settled.bind fun places =>
      users_settles.settled.bind fun users => .pure _

/-- No call holds a lock. -/
def AllFree (l : RoomLocks) : Prop := ∀ number, l.isFree number

theorem isFree_setLock (l : RoomLocks) (number other : Nat) (f : RoomLock → RoomLock) :
    (l.setLock number f).isFree other =
      if other = number then !(f (l.lock number)).isHeld else l.isFree other := by
  by_cases same : other = number
  · simp [RoomLocks.isFree, RoomLocks.lock, RoomLocks.setLock, same]
  · simp [RoomLocks.isFree, RoomLocks.lock, RoomLocks.setLock, Table.get?_insert_of_ne _ _ same, same]

theorem isFree_register (l : RoomLocks) (room : RoomId) (other : Nat) :
    (l.register room).2.isFree other = l.isFree other := by
  simp only [RoomLocks.register]
  split <;> rw [isFree_setLock] <;> split <;> simp_all [RoomLocks.isFree, RoomLocks.lock]

theorem isFree_forget (l : RoomLocks) (room : RoomId) (other : Nat) :
    (l.forget room).isFree other = l.isFree other := by
  simp only [RoomLocks.forget]
  split
  · split <;> rfl
  · rfl

/-- A call under the lock of a room, while no other call is under way. -/
theorem run_withRoom {α : Type} (room : RoomId) (body : Op α) {e : Engine} (free : AllFree e.locks) :
    (withRoom room body).run e =
      let number := (e.locks.register room).1
      let ended := body.run { e with locks := (e.locks.register room).2.acquire number }
      (ended.1, { ended.2 with locks := (ended.2.locks.letGo number).forget room }) := by
  have registered : (e.locks.register room).2.isFree (e.locks.register room).1 := by
    rw [isFree_register]
    exact free _
  show Process.run (_ >>= fun number => _) e = _
  rw [Process.run_bind, Process.run_instant]
  show Process.run (_ >>= fun _ => _) _ = _
  rw [Process.run_bind, Process.run_suspend, if_pos registered]
  exact Process.run_guarded _ _ _

/-- What has been done under the lock of a room ends with all locks free. -/
theorem withRoom_ends {α : Type} {room : RoomId} {body : Op α} {e e' : Engine}
    {r : Except Failure α} (free : AllFree e.locks)
    (ran : body.run { e with locks := (e.locks.register room).2.acquire (e.locks.register room).1 } =
      (some r, e'))
    (kept : e'.locks = (e.locks.register room).2.acquire (e.locks.register room).1) :
    ∃ locks, (withRoom room body).run e = (some r, { e' with locks }) ∧ AllFree locks := by
  refine ⟨(e'.locks.letGo (e.locks.register room).1).forget room, ?_, fun other => ?_⟩
  · rw [run_withRoom room body free]
    simp only [ran]
  · rw [isFree_forget, kept, RoomLocks.letGo, isFree_setLock]
    split
    · rfl
    next others =>
      rw [RoomLocks.acquire, isFree_setLock, if_neg others, isFree_register]
      exact free other

/-- What a call ensures under the lock of a room, whatever the locks are, it ensures with taking the
lock. -/
theorem withRoom_ensures {α : Type} {room : RoomId} {body : Op α} {n : Nat}
    {post : Except Failure α → List Event → Prop}
    (ensures : ∀ locks, body.Ensures { w with locks } n post) :
    (withRoom room body).Ensures { w with locks := AllFree } n post := by
  intro supply e serves
  let taken := (e.locks.register room).2.acquire (e.locks.register room).1
  obtain ⟨r, e', events, ran, serves', reliable, outcome⟩ :=
    ensures (· = taken) supply { e with locks := taken } { serves with locks := rfl }
  obtain ⟨locks, ends, free⟩ := withRoom_ends serves.locks ran serves'.locks
  refine ⟨r, { e' with locks }, events, ends, { serves' with locks := free },
    fun before => { reliable { before with } with }, outcome.imp_right ?_⟩
  rintro ⟨unreliable, failed⟩
  exact ⟨fun before => unreliable { before with }, failed⟩

theorem Op.Settles.verdict {α : Type} {op : Op α} {f : Failure} (settles : op.Settles w (.error f))
    (n : Nat) : op.Ensures w n fun r _ => r.map (fun _ => ()) = .error f :=
  (settles.mono fun _ _ ⟨same, _⟩ => by rw [same]; rfl).le (Nat.zero_le n)

/-- What is drawn under the lock of a room has the verdict that the whole call has. -/
theorem told_verdict {α β : Type} {room : RoomId} {body : Op α} {n : Nat} {view : α → β}
    (notification : β → Notification) {verdict : Except Failure Unit}
    (ensures : ∀ locks, body.Ensures { w with locks } n fun r _ => r.map (fun _ => ()) = verdict) :
    (withRoom room body >>= fun a => tell (notification (view a)) >>= fun _ =>
      pure (view a)).Ensures { w with locks := AllFree } n fun r _ =>
        r.map (fun _ => ()) = verdict := by
  refine (Op.Ensures.bind (m := 0) (withRoom_ensures ensures) ?_ ?_).le (Nat.zero_add n).le
  · exact fun f events holds => holds
  · intro a events holds
    exact (told_accepted _ (view a)).mono fun r _ ⟨v, same⟩ => same ▸ holds

/-- Whether a boost of a place is accepted, and if not why. -/
def boostVerdict (found : Option Place) (h : History Float) (user : UserId) (id : PlaceId) :
    Except Failure Unit :=
  match found.filter fun place => !place.isDeleted with
  | none => .error (.notFound .place id.id.toText)
  | some _ => if !h.mayBoost user then .error .noPoints else .ok ()

/-- A boost is accepted or refused as the place and the history of the room say. -/
theorem boost_ensures_verdict (user : UserId) (room : RoomId) (id : PlaceId) (now : Instant) :
    (boost user room id now).Ensures { w with locks := AllFree } 1 fun r _ =>
      r.map (fun _ => ()) = boostVerdict ((w.state Projection.places (.room room)).get? id)
        (w.historyAt room now) user id := by
  refine (user?_settles user).bind ?_
  refine told_verdict .boostCreated fun locks => ?_
  have known : (history room now).Settles { w with locks } (.ok (w.historyAt room now)) :=
    history_settles room now
  have found : (place? room id).Settles { w with locks }
      (.ok ((w.state Projection.places (.room room)).get? id)) := place?_settles room id
  refine found.bind ?_
  rw [boostVerdict]
  cases ((w.state Projection.places (.room room)).get? id).filter fun place => !place.isDeleted with
  | none => exact (Op.Settles.throw _).verdict 1
  | some place =>
    refine known.bind ?_
    dsimp only
    split
    · exact (Op.Settles.throw _).bind_error.verdict 1
    · exact write_ensures fun _ => .pure rfl

theorem boost_judged (user : UserId) (room : RoomId) (id : PlaceId) (now : Instant) :
    (boost user room id now).Judged { w with locks := AllFree } :=
  ⟨_, (boost_ensures_verdict user room id now).le (by decide)⟩

theorem entries_insertAll_ne_nil {κ α : Type} [Key κ] {t : Table κ α} {es : List (κ × α)}
    (any : t.entries ≠ [] ∨ es ≠ []) : (t.insertAll es).entries ≠ [] := by
  have inserted : ∀ (t : Table κ α) k a, (t.insert k a).entries ≠ [] := by
    intro t k a
    cases h : t.entries with
    | nil => simp [Table.insert, Table.put, h]
    | cons e rest =>
      simp only [Table.insert, Table.put, h]
      split <;> simp
  induction es generalizing t with
  | nil => simpa [Table.insertAll] using any
  | cons e es ih => exact ih (.inl (inserted t e.1 e.2))

theorem entries_weights_ne_nil {h : History Float} {places : List PlaceId} {now : Instant}
    (some : places ≠ []) : (h.weights places now).entries ≠ [] :=
  entries_insertAll_ne_nil (.inr (by simpa using some))

/-- Among places with weights one of them is picked iff their sum is usable. -/
theorem pick_ensures {weights : Table PlaceId Float} (weighed : weights.entries ≠ []) :
    (pick weights).Ensures w 0 fun r events =>
      (∃ picked, r = .ok picked ∧ picked.isSome = Weight.isUsable (Lottery.total weights) ∧
        ∀ id, picked = some id → id ∈ weights.keys) ∧ events = w.events := by
  refine .instant fun _ e serves => ⟨{ serves with }, fun reliable => { reliable with },
    ⟨_, rfl, ?_, fun id => Lottery.mem_keys_of_pick⟩, rfl⟩
  simp only [Lottery.pick]
  split
  next usable =>
    -- where rounding leaves no place to land on, the last one is taken
    have last : weights.keys.getLast?.isSome := by simpa [Table.keys] using weighed
    rw [usable]
    cases h : Lottery.landing? (e.lottery.generator.unit.1 * Lottery.total weights + 0.0)
      weights.entries <;> simp [Lottery.place?, h, last]
  next unusable => simp [unusable]

/-- Whether a roll among some places is accepted, and if not why. -/
def rollVerdict (places : Table PlaceId Place) (h : History Float) (user : UserId) (now : Instant) :
    Except Failure Unit :=
  if places.isEmpty then .error .noPlaces
  else if !h.mayRoll user now then .error .noPoints
  else if Weight.isUsable (Lottery.total (h.weights places.keys now)) then .ok ()
  else .error .noPlaces

/-- A roll is accepted or refused as the places and the history of the room say. -/
theorem roll_ensures_verdict (user : UserId) (room : RoomId) (now : Instant) :
    (roll user room now).Ensures { w with locks := AllFree } 1 fun r _ =>
      r.map (fun _ => ()) = rollVerdict (w.livePlacesIn room) (w.historyAt room now) user now := by
  refine (user?_settles user).bind ?_
  refine told_verdict .rollCreated fun locks => ?_
  have live : (livePlaces room).Settles { w with locks } (.ok (w.livePlacesIn room)) :=
    livePlaces_settles room
  have known : (history room now).Settles { w with locks } (.ok (w.historyAt room now)) :=
    history_settles room now
  refine live.bind ?_
  generalize w.livePlacesIn room = places, w.historyAt room now = h at known
  dsimp only
  split
  next none =>
    rw [rollVerdict, if_pos none]
    exact (Op.Settles.throw _).bind_error.verdict 1
  next some =>
    refine known.bind ?_
    rw [rollVerdict, if_neg some]
    split
    next mayNot => exact (Op.Settles.throw _).bind_error.verdict 1
    next may =>
      have weighed : (h.weights places.keys now).entries ≠ [] :=
        entries_weights_ne_nil (by simpa [Table.isEmpty, Table.keys] using some)
      refine Op.Ensures.bind (m := 1) (pick_ensures weighed) ?_ ?_
      · rintro f events ⟨⟨picked, same, -⟩, -⟩
        cases same
      · rintro picked events ⟨⟨_, ⟨⟩, isSome, -⟩, rfl⟩
        rw [← isSome]
        cases picked with
        | none => exact (Op.Settles.throw _).verdict 1
        | some id => exact write_ensures fun _ => .pure rfl

theorem roll_judged (user : UserId) (room : RoomId) (now : Instant) :
    (roll user room now).Judged { w with locks := AllFree } :=
  ⟨_, (roll_ensures_verdict user room now).le (by decide)⟩

end Engine

end NoonDraw
