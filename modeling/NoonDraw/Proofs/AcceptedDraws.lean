import NoonDraw.Proofs.AllOrNothing
import NoonDraw.Proofs.Draws

/-!
# Accepted draws

A roll or a boost that is accepted has added one event of its user and its instant, and what it was
allowed by is the history of the room as the log had it (`boost_ensures`, `roll_ensures`).  No command
ever takes anything from the log (`runAll_grows`).

A draw of any instant, late or not, comes after those of its room that are not later
(`Projection.IsDraws.listed_insert`).
-/

namespace NoonDraw

namespace Projection.IsDraws

variable {ε : Type} {p : Projection EventId ε} {kind : EventKind} {make : Event → Option ε}

/-- The draws of a room are those that its events made. -/
theorem mem_listed (draws : p.IsDraws kind make) {room : RoomId} {events : List Event}
    (distinct : (Loaded.ids events).Nodup) {x : ε} :
    x ∈ p.listed room events ↔ ∃ e ∈ events, e.kind = kind ∧ e.room = room ∧ make e = some x := by
  rw [draws.listed_eq room distinct, List.mem_filterMap]
  simp only [Event.mem_sortByTime, draws.mem_eventsIn, and_assoc]

/-- One more draw comes after those that are not later. -/
theorem listed_insert (draws : p.IsDraws kind make) {time : ε → Instant}
    (timed : ∀ e x, make e = some x → time x = e.time) {events : List Event} {e : Event} {x : ε}
    (distinct : (Loaded.ids (events ++ [e])).Nodup) (isKind : e.kind = kind)
    (makes : make e = some x) :
    ∃ before after, p.listed e.room events = before ++ after ∧
      p.listed e.room (events ++ [e]) = before ++ x :: after ∧
      (∀ y ∈ before, time y ≤ e.time) ∧ ∀ y ∈ after, e.time < time y := by
  have known : (Loaded.ids events).Nodup :=
    distinct.sublist ((List.sublist_append_left _ _).map _)
  rw [draws.listed_eq _ known, draws.listed_eq _ distinct, eventsIn_append,
    draws.eventsIn_singleton, if_pos ⟨isKind, rfl⟩, Event.sortByTime_concat, Loaded.insertByTime]
  have inOrder := Event.inOrder_sortByTime (p.eventsIn (.room e.room) events)
  generalize Event.sortByTime (p.eventsIn (.room e.room) events) = sorted at inOrder
  refine ⟨(sorted.takeWhile fun a => decide (a.time ≤ e.time)).filterMap make,
    (sorted.dropWhile fun a => decide (a.time ≤ e.time)).filterMap make, ?_, ?_, ?_, ?_⟩
  · rw [← List.filterMap_append, List.takeWhile_append_dropWhile]
  · rw [List.filterMap_append, List.filterMap_cons_some makes]
  · intro y hy
    obtain ⟨a, ha, made⟩ := List.mem_filterMap.1 hy
    rw [timed a y made]
    simpa using List.mem_takeWhile_imp ha
  · intro y hy
    obtain ⟨a, ha, made⟩ := List.mem_filterMap.1 hy
    rw [timed a y made]
    exact inOrder.lt_of_mem_dropWhile ha

/-- The draws of a room are listed in order of time. -/
theorem pairwise_listed (draws : p.IsDraws kind make) {time : ε → Instant}
    (timed : ∀ e x, make e = some x → time x = e.time) (room : RoomId) {events : List Event}
    (distinct : (Loaded.ids events).Nodup) :
    (p.listed room events).Pairwise fun x y => time x ≤ time y := by
  rw [draws.listed_eq room distinct, List.pairwise_filterMap]
  refine (Event.inOrder_sortByTime _).imp ?_
  intro e a le x hx y hy
  rwa [timed e x hx, timed a y hy]

end Projection.IsDraws

/-- The history of a room as seen at an instant, as the log of an engine has it. -/
def Engine.historyAt (e : Engine) (room : RoomId) (t : Instant) : History Float :=
  .build (Projection.rolls.listed room e.log.events) (Projection.boosts.listed room e.log.events) t
    e.rules

/-- The event of a draw. -/
def Event.ofDraw (kind : EventKind) (user : UserId) (room : RoomId) (now : Instant) (id : EventId)
    (place : PlaceId) : Event :=
  { id, actor := user, room, kind, time := now, place := some place, payload := "" }

namespace Engine

variable {w : World}

/-! ### What is accepted -/

theorem Serves.historyAt {e : Engine} {supply : Nat} (serves : e.Serves w supply) (room : RoomId)
    (t : Instant) : e.historyAt room t = w.historyAt room t := by
  rw [Engine.historyAt, serves.events, serves.rules, World.historyAt]

/-- What a draw of a room does to the log if it is accepted: it was allowed, and its event comes
last. -/
structure Drawn (w : World) (may : Prop) (kind : EventKind) (user : UserId) (room : RoomId)
    (now : Instant) (id : EventId) (place : PlaceId) (events : List Event) : Prop where
  /-- It was allowed. -/
  may : may
  /-- Its event comes last. -/
  events : events = w.events ++ [.ofDraw kind user room now id place]

section Draws

variable (user : UserId) (room : RoomId) (now : Instant)

/-- A call that is refused is not accepted. -/
theorem Op.Settles.refused {α : Type} {op : Op α} {f : Failure} (settles : op.Settles w (.error f))
    {n : Nat} {post : α → List Event → Prop} :
    op.Ensures w n fun r events => ∀ a, r = .ok a → post a events := by
  refine (settles.mono ?_).le (Nat.zero_le n)
  rintro r events ⟨rfl, -⟩ a accepted
  cases accepted

/-- What is stated of an accepted call holds of one that has been accepted. -/
theorem Op.Ensures.accepted {α : Type} {op : Op α} {n : Nat} {post : α → List Event → Prop}
    (ensures : op.Ensures w n fun r events => ∀ a, r = .ok a → post a events) (supply : Nat)
    {e e' : Engine} {a : α} (serves : e.Serves w (supply + n)) (ran : op.run e = (some (.ok a), e')) :
    ∃ events, e'.Serves { w with events } supply ∧ post a events := by
  obtain ⟨r, reached, events, ran', serves', -, outcome⟩ := ensures supply e serves
  obtain ⟨same, rfl⟩ := Prod.mk.inj (ran'.symm.trans ran)
  obtain rfl := Option.some.inj same
  refine ⟨events, serves', ?_⟩
  rcases outcome with holds | ⟨-, operation, cause, failed⟩
  · exact holds a rfl
  · cases failed

/-- A call that has come to its end without being refused has been accepted. -/
theorem Op.exists_accepted {α : Type} {op : Op α} {e : Engine}
    (accepts : (op.run e).1.map Except.toBool = some true) :
    ∃ a, op.run e = (some (.ok a), (op.run e).2) := by
  rcases ran : op.run e with ⟨_ | f | a, e'⟩
  · simp [ran] at accepts
  · simp [ran, Except.toBool] at accepts
  · exact ⟨a, rfl⟩

/-- What is drawn under the lock of a room is what the call answers and tells. -/
theorem told_ensures {α β : Type} {body : Op α} {n : Nat} {view : α → β}
    (notification : β → Notification) {post : β → List Event → Prop}
    (ensures : ∀ locks, body.Ensures { w with locks } n fun r events =>
      ∀ a, r = .ok a → post (view a) events) :
    (withRoom room body >>= fun a => tell (notification (view a)) >>= fun _ =>
      pure (view a)).Ensures { w with locks := AllFree } n fun r events =>
        ∀ v, r = .ok v → post v events := by
  refine (Op.Ensures.bind (m := 0) (withRoom_ensures ensures) ?_ ?_).le (Nat.zero_add n).le
  · intro f events _ v same
    cases same
  · intro a events holds
    refine (tell_ensures _).bind (.pure ?_)
    rintro v same
    obtain rfl := Except.ok.inj same
    exact holds a rfl

/-- A boost that is accepted was allowed by the history of the room, and has added its event. -/
theorem boost_ensures (place : PlaceId) :
    (boost user room place now).Ensures { w with locks := AllFree } 1 fun r events =>
      ∀ view, r = .ok view → view.boost = { id := view.boost.id, user, place, room, time := now } ∧
        Drawn w ((w.historyAt room now).mayBoost user) .boostCreated user room now view.boost.id place
          events := by
  refine (user?_settles user).bind ?_
  refine told_ensures room .boostCreated fun locks => ?_
  refine (place?_settles room place).bind ?_
  split
  · exact (Op.Settles.throw _).refused
  · refine (history_settles room now).bind ?_
    dsimp only
    split
    · exact (Op.Settles.throw _).bind_error.refused
    next may =>
      refine write_ensures fun id => .pure ?_
      rintro ⟨event, place⟩ same
      obtain ⟨rfl, rfl⟩ := Prod.mk.inj (Except.ok.inj same)
      exact ⟨rfl, by simpa [World.historyAt] using may, rfl⟩

/-- A roll that is accepted was allowed by the history of the room, has drawn one of its live places,
and has added its event. -/
theorem roll_ensures :
    (roll user room now).Ensures { w with locks := AllFree } 1 fun r events =>
      ∀ view, r = .ok view →
        view.roll = { id := view.roll.id, user, place := view.roll.place, room, time := now } ∧
        view.roll.place ∈ (w.livePlacesIn room).keys ∧
        Drawn w ((w.historyAt room now).mayRoll user now) .rollCreated user room now view.roll.id
          view.roll.place events := by
  refine (user?_settles user).bind ?_
  refine told_ensures room .rollCreated fun locks => ?_
  have live : (livePlaces room).Settles { w with locks } (.ok (w.livePlacesIn room)) :=
    livePlaces_settles room
  refine live.bind ?_
  dsimp only
  split
  · exact (Op.Settles.throw _).bind_error.refused
  next some =>
    refine (history_settles room now).bind ?_
    split
    · exact (Op.Settles.throw _).bind_error.refused
    next may =>
      have weighed : ((World.historyAt { w with locks } room now).weights
          (w.livePlacesIn room).keys now).entries ≠ [] :=
        entries_weights_ne_nil (by simpa [Table.isEmpty, Table.keys] using some)
      refine Op.Ensures.bind (m := 1) (pick_ensures weighed) ?_ ?_
      · rintro f events ⟨⟨picked, same, -⟩, -⟩
        cases same
      · rintro picked events ⟨⟨_, ⟨⟩, -, isPlace⟩, rfl⟩
        cases picked with
        | none => exact (Op.Settles.throw _).refused
        | some picked =>
          have isLive := History.mem_of_mem_weights (isPlace picked rfl)
          refine write_ensures fun id => .pure ?_
          rintro ⟨event, place, places⟩ same
          obtain ⟨rfl, rfl, -⟩ := by simpa using Except.ok.inj same
          exact ⟨rfl, isLive, by simpa [World.historyAt] using may, rfl⟩

end Draws

/-! ### The log only grows -/

/-- An instant that takes nothing from the log. -/
def Adds (m : Moment Engine) : Prop := m.before.log.events <+: m.after.log.events

theorem Adds.of_events_eq {m : Moment Engine} (same : m.after.log.events = m.before.log.events) :
    Adds m := by
  unfold Adds
  exact same ▸ List.prefix_rfl

/-- A process none of whose instants takes anything from the log. -/
def Grows {α : Type} (p : Process Engine α) : Prop :=
  ∀ course a, p.Takes course a → ∀ m ∈ course, Adds m

namespace Grows

variable {α β : Type}

theorem pure (a : α) : Grows (Pure.pure a) := by
  intro course b takes
  obtain ⟨rfl, -⟩ := Process.takes_pure.1 takes
  simp

theorem bind {p : Process Engine α} {f : α → Process Engine β} (first : Grows p)
    (rest : ∀ a, Grows (f a)) : Grows (p >>= f) := by
  intro course b takes
  obtain ⟨a, early, late, rfl, before, after⟩ := takes.bind_inv
  exact List.forall_mem_append.2 ⟨first early a before, rest a late b after⟩

theorem instant {f : Engine → α × Engine} (same : ∀ e, (f e).2.log = e.log) :
    Grows (Process.instant f) := by
  intro course a takes
  obtain ⟨e, rfl, -⟩ := Process.takes_instant.1 takes
  exact List.forall_mem_singleton.2 (.of_events_eq (by rw [same]))

theorem suspend {ready : Engine → Bool} {f : Engine → α × Engine} {drop : List (Engine → Engine)}
    (same : ∀ e, (f e).2.log = e.log) : Grows (Process.suspend ready f drop) := by
  intro course a takes
  obtain ⟨e, -, rfl, -⟩ := Process.takes_suspend.1 takes
  exact List.forall_mem_singleton.2 (.of_events_eq (by rw [same]))

theorem steps {acts : List (Engine → Engine)} (same : ∀ act ∈ acts, ∀ e, (act e).log = e.log) :
    Grows (Process.steps acts) := by
  intro course a takes m hm
  obtain ⟨act, isAct, ends⟩ := takes.of_steps m hm
  exact .of_events_eq (by rw [ends, same act isAct])

theorem guarded {cleanup : List (Engine → Engine)} {p : Process Engine α} (grows : Grows p)
    (same : ∀ act ∈ cleanup, ∀ e, (act e).log = e.log) : Grows (p.guarded cleanup) := by
  change Grows (p.onDrop cleanup >>= fun a => Process.steps cleanup >>= fun _ => Pure.pure a)
  refine bind (fun course a takes => grows course a takes.of_onDrop) fun a => ?_
  exact bind (steps same) fun _ => pure a

end Grows

namespace Op

variable {α β : Type} {refused : Failure → Prop}

/-- A call that takes nothing from the log, whatever others do between its instants. -/
def Grows (op : Op α) : Prop := Engine.Grows (ExceptT.run op)

theorem Reads.grows {op : Op α} (reads : op.Reads refused) : op.Grows :=
  fun course r takes m hm => .of_events_eq ((reads course r takes).1 m hm).events

theorem Writes.grows {op : Op α} (writes : op.Writes) : op.Grows :=
  fun course r takes => (writes course r takes).grows

namespace Grows

theorem pure (a : α) : Grows (Pure.pure a) := Engine.Grows.pure (Except.ok a)

theorem throw (f : Failure) : Grows (MonadExcept.throw f : Op α) := Engine.Grows.pure (Except.error f)

theorem bind {op : Op α} {g : α → Op β} (first : op.Grows) (rest : ∀ a, (g a).Grows) :
    (op >>= g).Grows := by
  refine Engine.Grows.bind first fun r => ?_
  cases r with
  | error f => exact Engine.Grows.pure (Except.error f)
  | ok a => exact rest a

theorem instant {f : Engine → α × Engine} (same : ∀ e, (f e).2.log = e.log) :
    (Op.instant f).Grows :=
  Engine.Grows.bind (.instant same) fun a => .pure (Except.ok a)

/-- A call that goes on unless it is refused. -/
theorem refusing {c : Prop} [Decidable c] (f : Failure) {rest : Op α} (grows : rest.Grows) :
    (if c then (MonadExcept.throw f >>= fun _ : PUnit => rest) else rest).Grows := by
  split
  · exact (throw f).bind fun _ => grows
  · exact grows

end Grows

end Op

theorem store_grows (event : Event) : (store event).Grows := by
  intro course r takes
  rcases takes_store takes with ⟨-, m, shown, rfl, adds, -, aside⟩ | ⟨-, quiet⟩
  · exact List.forall_mem_cons.2 ⟨⟨[event], adds.symm⟩, fun m hm =>
      .of_events_eq (by rw [(aside m hm).log])⟩
  · exact fun m hm => .of_events_eq (quiet m hm).events

theorem withRoom_grows {α : Type} (room : RoomId) {body : Op α} (grows : body.Grows) :
    (withRoom room body).Grows := by
  refine Engine.Grows.bind (.instant fun e => rfl) fun number => ?_
  refine Engine.Grows.bind (.suspend fun e => rfl) fun _ => .guarded grows ?_
  simp

/-- Others are told of what was done under the lock of a room. -/
theorem told_grows {α β : Type} (room : RoomId) {body : Op α} (grows : body.Grows) (view : α → β)
    (notification : β → Notification) :
    (withRoom room body >>= fun a => tell (notification (view a)) >>= fun _ => pure (view a)).Grows :=
  (withRoom_grows room grows).bind fun _ => Op.Grows.bind (.instant fun _ => rfl) fun _ => .pure _

/-- An event is written under the lock of a room. -/
theorem written_grows {β : Type} {kind : EventKind} {actor : UserId} {room : RoomId} {time : Instant}
    {place : Option PlaceId} {payload : String} (answer : Event → β) :
    (newEvent kind actor room time place payload >>= fun event => store event >>= fun _ =>
      pure (answer event)).Grows :=
  Op.Grows.bind (drawId_reads.grows.bind fun _ => .pure _) fun event =>
    (store_grows event).bind fun _ => .pure _

theorem boost_grows (user : UserId) (room : RoomId) (place : PlaceId) (now : Instant) :
    (boost user room place now).Grows := by
  refine (user?_reads user).grows.bind fun record => told_grows room ?_ _ .boostCreated
  refine (place?_reads room place).grows.bind fun found => ?_
  split
  · exact .throw _
  · exact (history_reads room now).grows.bind fun h => .refusing _ (written_grows _)

theorem roll_grows (user : UserId) (room : RoomId) (now : Instant) : (roll user room now).Grows := by
  refine (user?_reads user).grows.bind fun record => told_grows room ?_ _ .rollCreated
  refine (livePlaces_reads room).grows.bind fun places => .refusing _ ?_
  refine (history_reads room now).grows.bind fun h => .refusing _ ?_
  refine Op.Grows.bind (.instant fun _ => rfl) fun picked => ?_
  cases picked with
  | none => exact .throw _
  | some picked => exact written_grows _

/-- No command takes anything from the log. -/
theorem Command.grows (c : Command) : c.perform.Grows := by
  cases c with
  | createRoom user name now => exact ((createRoom_writes user name now).map Reply.room).grows
  | joinRoom user id now => exact ((changeMembership_writes _ user id now).map Reply.room).grows
  | leaveRoom user id now => exact ((changeMembership_writes _ user id now).map Reply.room).grows
  | room id => exact (room_reads id).grows.bind fun _ => .pure _
  | listRooms user => exact (listRooms_reads user).grows.bind fun _ => .pure _
  | createPlace user id name now => exact ((createPlace_writes user id name now).map Reply.place).grows
  | deletePlace user id place now => exact ((togglePlace_writes _ user id place now).map Reply.place).grows
  | restorePlace user id place now => exact ((togglePlace_writes _ user id place now).map Reply.place).grows
  | listPlaces id now => exact (listPlaces_reads id now).grows.bind fun _ => .pure _
  | boost user id place now => exact (boost_grows user id place now).bind fun _ => .pure _
  | roll user id now => exact (roll_grows user id now).bind fun _ => .pure _
  | listRolls id => exact (listRolls_reads id).grows.bind fun _ => .pure _
  | listBoosts id => exact (listBoosts_reads id).grows.bind fun _ => .pure _

/-- A call that has the engine to itself takes nothing from the log. -/
theorem Op.Grows.run {α : Type} {op : Op α} (grows : op.Grows) {e e' : Engine}
    {r : Except Failure α} (ran : op.run e = (some r, e')) : e.log.events <+: e'.log.events :=
  ⟨_, (events_run ran (grows _ _ (Process.takes_instants ran))).symm⟩

/-- After any commands an engine serves its world still, and the log has what it had and what was
added. -/
theorem runAll_grows (commands : List Command) {e : Engine} {supply : Nat}
    (serves : e.Serves { w with locks := AllFree } (supply + 2 * commands.length)) :
    ∃ events, (runAll commands e).Serves { w with events := w.events ++ events, locks := AllFree }
      supply := by
  induction commands generalizing e w with
  | nil => exact ⟨[], by simpa [runAll] using serves⟩
  | cons c rest ih =>
    obtain ⟨v, ensures⟩ := c.ensures w
    obtain ⟨r, e', events, ran, serves', -, -⟩ := ensures (supply + 2 * rest.length) e (by
      rwa [List.length_cons, Nat.mul_succ, ← Nat.add_assoc] at serves)
    obtain ⟨more, grown⟩ := c.grows.run ran
    rw [serves.events, serves'.events] at grown
    obtain ⟨events', served⟩ := ih (w := { w with events }) serves'
    refine ⟨more ++ events', ?_⟩
    rw [runAll, List.foldl_cons, ran, ← List.append_assoc, grown]
    exact served

/-- An engine that starts over a log serves a world after any commands. -/
theorem runAll_start_serves (settings : Settings) (entropy : UInt64) {log : EventLog}
    (directory : Directory) {ids : IdSupply} {commands : List Command} {supply : Nat}
    (ungated : log.gated = false) (distinct : (Loaded.ids log.events).Nodup)
    (fresh : ids.FreshFor log.events (supply + 2 * commands.length)) :
    ∃ w : World, (runAll commands (start settings entropy log directory ids)).Serves
      { w with locks := AllFree } supply := by
  obtain ⟨events, serves⟩ :=
    runAll_serves (w := ⟨log.events, directory.users, settings.rules, AllFree⟩) commands
      (start_serves settings entropy log directory ungated distinct fresh)
  exact ⟨⟨events, directory.users, settings.rules, AllFree⟩, serves⟩

/-- A room is opened, and a place is added to it. -/
def openedPlace : List Command :=
  [.createRoom ⟨"anna"⟩ "lunch" default, .createPlace ⟨"anna"⟩ ⟨.ofNat 1⟩ "pizza" default]

end Engine

end NoonDraw
