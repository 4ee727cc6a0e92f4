import NoonDraw.Proofs.DrawCourses
import NoonDraw.Proofs.DrawFrames

/-!
# Draws happen wholly or not at all

Calls of an engine may have gone on at once, in any order.  Once all of them have ended, a roll or a
boost comes to its end, whatever the stores meet, with every lock free.  One that is accepted has added
its event and told its view, and is listed once from then on, as its view shows it
(`Engine.Drawing.Kept`).  One that is refused has neither written nor told anything, and the engine
answers whatever is asked of it later as if the draw had not been tried, provided that what was cached
of the places of the room could be trusted, or that the draw has not changed it (`Engine.Untouched`).

It cannot be trusted after two calls that have appended events of one place at one instant, and shown
them to the cache in the other order: what is cached of the place differs from what the log says.  A
refused roll then replaces the one by the other (`Engine.boost_after_roll`), and a boost is refused
that would have been accepted (`Engine.refused_roll_shows`).
-/

namespace NoonDraw

namespace Engine

variable {e e' : Engine} {room : RoomId} {more : Nat} {α β ρ : Type}

/-! ### What a refused draw leaves behind -/

/-- What is cached of the places of a room can be trusted: they are loaded, or it is what the log
says of them. -/
def Trusts (e : Engine) (room : RoomId) : Prop :=
  (e.places.slot (.room room)).Trusted Projection.places
    (Projection.places.eventsIn (.room room) e.log.events)

/-- As long as commands are carried out one at a time, what is cached of places can be trusted. -/
theorem runAll_trusts (settings : Settings) (entropy : UInt64) {log : EventLog}
    (directory : Directory) {ids : IdSupply} (commands : List Command) (ungated : log.gated = false)
    (distinct : (Loaded.ids log.events).Nodup)
    (fresh : ids.FreshFor log.events (2 * commands.length)) (room : RoomId) :
    (runAll commands (start settings entropy log directory ids)).Trusts room := by
  have supplied : ids.FreshFor log.events (0 + 2 * commands.length) := by rwa [Nat.zero_add]
  obtain ⟨w, serves⟩ := runAll_start_serves settings entropy directory ungated distinct supplied
  rw [Trusts, serves.events]
  exact .inl (serves.places _ (isScope_room room).1)

/-- A call has done no harm to what is cached of the places of a room: it could be trusted before, or it
is as it was. -/
def SparesPlaces (room : RoomId) (e e' : Engine) : Prop :=
  e.Trusts room ∨ e'.places.slot (.room room) = e.places.slot (.room room)

/-- An engine whose stores do not fail any more, and that will draw the identifiers and the random
numbers that it is given. -/
def resumed (e : Engine) (ids : IdSupply) (lottery : Lottery) : Engine :=
  { e.recovered with ids, lottery }

/-- A call on behalf of a room has left no trace: but for what it has drawn, nothing shows later that
it was made. -/
structure Untouched (room : RoomId) (e e' : Engine) : Prop where
  /-- The log has the events it had. -/
  events : e'.log.events = e.log.events
  /-- Nobody was told anything. -/
  notifier : e'.notifier = e.notifier
  /-- Where the same is drawn later, everything that is asked later gets the same answer, if no harm was
  done to what is cached of the places of the room. -/
  later : SparesPlaces room e e' → ∀ ids lottery (later : List Command) (c : Command),
    ids.FreshFor e.log.events (2 * later.length + 2) → ∃ answer,
      (c.perform.run (runAll later (e.resumed ids lottery))).1 = some answer ∧
        (c.perform.run (runAll later (e'.resumed ids lottery))).1 = some answer

/-- Where the same is drawn later, an engine and what has become of it by a look at a room are twins. -/
theorem Looked.twins (looked : Looked room e e') (rested : e.Rested more)
    (spares : SparesPlaces room e e') (free : AllFree e'.locks) {ids : IdSupply} {supply : Nat}
    (fresh : ids.FreshFor e.log.events supply) (lottery : Lottery) :
    Twins AllFree AllFree supply (e.resumed ids lottery) (e'.resumed ids lottery) where
  events := looked.log.events
  ungated := rested.ungated
  ungated' := looked.log.gated.trans rested.ungated
  users := looked.users
  rules := looked.rules
  locks := rested.allFree
  locks' := free
  reliable := { e.recovered_reliable with }
  reliable' := { e'.recovered_reliable with }
  ids := rfl
  lottery := rfl
  distinct := rested.distinct
  fresh := fresh
  places := looked.places.alike (rested.idle .places) spares
  rolls := rested.rolls.alike (looked.rolls.agrees rested.rolls)
  boosts := rested.boosts.alike (looked.boosts.agrees rested.boosts)
  rooms := looked.rooms ▸ .refl (looked.idle rested .rooms)
  memberships := looked.memberships ▸ .refl (looked.idle rested .memberships)

/-- A call that has only looked at a room leaves no trace. -/
theorem Looked.untouched (looked : Looked room e e') (rested : e.Rested more)
    (free : AllFree e'.locks) : Untouched room e e' where
  events := looked.log.events
  notifier := looked.notifier
  later spares ids lottery later c fresh := by
    have supplied : ids.FreshFor e.log.events (0 + 2 + 2 * later.length) := by
      rwa [Nat.zero_add, Nat.add_comm]
    exact (looked.twins rested spares free supplied lottery).answer_eq later c

/-! ### What an accepted draw leaves behind -/

namespace Drawing

variable (d : Drawing β ρ)

/-- A draw is listed once, as it was made, as soon as the stores answer. -/
def ListsOnce (room : RoomId) (x : ρ) (e : Engine) : Prop :=
  ∃ views after, (d.list room).run e.recovered = (some (.ok views), after) ∧
    (views.filter fun v => d.id (d.record v) = d.id x).map d.record = [x]

/-- All draws that the log records are listed once. -/
def ListsAll (e : Engine) : Prop :=
  ∀ event ∈ e.log.events, event.kind = d.kind → ∀ x, d.make event = some x →
    d.ListsOnce event.room x e

/-- A draw has been written and told, and is listed. -/
structure Kept (user : UserId) (room : RoomId) (now : Instant) (view : β) (e e' : Engine) :
    Prop where
  /-- Its event is the last one in the log. -/
  events : e'.log.events = e.log.events ++ [d.event user room now view]
  /-- Its view was told. -/
  notifier : e'.notifier = e.notifier.notify (d.notification view)
  /-- Whatever else goes on until all calls have ended, it is listed once, as its view shows it. -/
  listed : ∀ moves : List (Move Activity), e'.ids.FreshFor e'.log.events moves.length →
    let c := Crowd.run Activity.process ⟨e', []⟩ moves
    (∀ p ∈ c.members, p = .done ()) → d.ListsOnce room (d.record view) c.state

/-- A draw leaves no trace if it is refused, and is kept if it is accepted. -/
def Atomic (user : UserId) (room : RoomId) (now : Instant) (e e' : Engine) : Except Failure β → Prop
  | .error _ => Untouched room e e'
  | .ok view => d.Kept user room now view e e'

/-- Draws are made by events of their kind, and the list of a room shows them as they were made. -/
structure Lawful (p : Projection EventId ρ) : Prop where
  /-- They are made by events of their kind. -/
  draws : p.IsDraws d.kind d.make
  /-- They know their events. -/
  identified : ∀ e x, d.make e = some x → d.id x = e.id
  /-- The list shows them. -/
  lists : ∀ {e : Engine} {more : Nat}, e.Rested more → ∀ room,
    (d.list room).Looks room e fun r => ∃ views, r = .ok views ∧
      views.map d.record = p.listed room e.log.events

end Drawing

theorem rolling_lawful : rolling.Lawful .rolls where
  draws := Projection.rolls_isDraws
  identified _ _ made := (Projection.rollTransition_none made).1
  lists rested room := listRolls_looks room rested

theorem boosting_lawful : boosting.Lawful .boosts where
  draws := Projection.boosts_isDraws
  identified _ _ made := (Projection.boostTransition_none made).1
  lists rested room := listBoosts_looks room rested

theorem Rested.recovered (rested : e.Rested more) : e.recovered.Rested more :=
  { rested with }

section

variable {d : Drawing β ρ} {p : Projection EventId ρ} {op : Op β} {user : UserId} {now : Instant}

/-- On an engine at rest all draws that the log records are listed once. -/
theorem Drawing.Lawful.listsAll (lawful : d.Lawful p) (rested : e.Rested more) : d.ListsAll e := by
  intro event logged isKind x made
  obtain ⟨_, after, ran, -, -, -, outcome⟩ :=
    lawful.lists rested.recovered event.room _ (rested.recovered.looked event.room)
  obtain ⟨views, rfl, shows⟩ := outcome.resolve_right fun failed => failed.1 e.recovered_reliable
  refine ⟨views, after, ran, ?_⟩
  have once := lawful.draws.filter_listed lawful.identified rested.distinct logged isKind made
  have listed : views.map d.record = p.listed event.room e.log.events := shows
  rw [← listed, List.filter_map] at once
  exact once

/-- A draw is listed on when others have been at work, once their calls have ended. -/
theorem Drawing.Lawful.listed (lawful : d.Lawful p) (rested : e.Rested more) {event : Event} {x : ρ}
    (logged : event ∈ e.log.events) (isKind : event.kind = d.kind) (made : d.make event = some x)
    (moves : List (Move Activity)) (fresh : e.ids.FreshFor e.log.events moves.length)
    (ended : ∀ p ∈ (Crowd.run Activity.process ⟨e, []⟩ moves).members, p = .done ()) :
    d.ListsOnce event.room x (Crowd.run Activity.process ⟨e, []⟩ moves).state := by
  have supplied : e.Rested (0 + moves.length) := { rested with fresh := by rwa [Nat.zero_add] }
  exact lawful.listsAll (supplied.run ended) event (mem_events_run logged moves) isKind x made

/-- A call that draws, on an engine at rest. -/
theorem Drawing.Lawful.atomic (lawful : d.Lawful p) (rested : e.Rested (more + 1))
    (courses : ∀ course r, (ExceptT.run op).Takes course r → d.Course user room now course r)
    (ends : ∃ r e', op.run e = (some r, e') ∧ LocksSound e'.locks 0 ∧
      ((∃ f, r = .error f) ∧ Looked room e e' ∨ (∃ b, r = .ok b) ∧ e'.Rested more)) :
    ∃ r e', op.run e = (some r, e') ∧ AllFree e'.locks ∧ d.Atomic user room now e e' r := by
  obtain ⟨r, e', ran, sound, outcome⟩ := ends
  have free := allFree_of_locksSound sound
  refine ⟨r, e', ran, free, ?_⟩
  rcases outcome with ⟨⟨f, rfl⟩, looked⟩ | ⟨⟨view, rfl⟩, rested'⟩
  · exact looked.untouched rested free
  have leads := Process.leads_instants ran
  obtain ⟨made, _, tells, same, ⟨early, writes, late, rfl, quiet, adds, silent⟩, keeps, notifies⟩ :=
    courses _ _ (Process.takes_instants ran)
  rw [same] at leads
  obtain ⟨_, draws, rfl, rfl⟩ := Process.leads_append.1 leads
  obtain ⟨_, before, rfl, after⟩ := Process.leads_append.1 draws
  have early' (m : Moment Engine) (hm : m ∈ early) := quiet m (List.mem_append_left _ hm)
  have late' (m : Moment Engine) (hm : m ∈ late) := quiet m (List.mem_append_right _ hm)
  have grown : tells.after.log.events = e.log.events ++ [d.event user room now view] := by
    rw [keeps, after.kept (fun e => e.log.events) fun m hm => (late' m hm).events, adds,
      before.kept (fun e => e.log.events) fun m hm => (early' m hm).events]
  refine ⟨grown, ?_, fun moves fresh ended => ?_⟩
  · rw [notifies, after.kept Engine.notifier fun m hm => (late' m hm).notifier, silent,
      before.kept Engine.notifier fun m hm => (early' m hm).notifier]
  · have logged : d.event user room now view ∈ tells.after.log.events :=
      grown ▸ List.mem_concat_self
    exact lawful.listed rested' logged rfl made moves fresh ended

end

/-- Once all calls have ended, however they went on, every lock is free and all rolls and boosts in
the log are listed once.  Then a roll or a boost comes to its end with every lock free, whatever the
stores meet.  If it is refused, the log is as it was, nobody was told, and nothing that is asked later
shows that it was tried, provided that what was cached of the places of its room could be trusted or is
as it was; if it is accepted, it has added its event, told its view, and is listed once, as its view
shows it.

Among other calls too a refused draw neither writes nor tells anything, and an accepted one appends its
event at one instant and tells its view at the last. -/
theorem draws_atomic (settings : Settings) (entropy : UInt64) (log : EventLog)
    (directory : Directory) (ids : IdSupply) (moves : List (Move Activity)) (user : UserId)
    (room : RoomId) (place : PlaceId) (now : Instant) (ungated : log.gated = false)
    (distinct : (Loaded.ids log.events).Nodup)
    (fresh : ids.FreshFor log.events (moves.length + 1)) :
    let c := Crowd.run Activity.process ⟨start settings entropy log directory ids, []⟩ moves
    let e := c.state
    ((∀ p ∈ c.members, p = .done ()) →
      AllFree e.locks ∧ rolling.ListsAll e ∧ boosting.ListsAll e ∧
      (∃ r e', (roll user room now).run e = (some r, e') ∧ AllFree e'.locks ∧
        rolling.Atomic user room now e e' r) ∧
      ∃ r e', (boost user room place now).run e = (some r, e') ∧ AllFree e'.locks ∧
        boosting.Atomic user room now e e' r) ∧
    (∀ course r, (ExceptT.run (roll user room now)).Takes course r →
        rolling.Course user room now course r) ∧
      ∀ course r, (ExceptT.run (boost user room place now)).Takes course r →
        boosting.Course user room now course r := by
  intro c e
  have rolls := fun course r => @roll_course user room now course r
  have boosts := fun course r => @boost_course user room now course place r
  refine ⟨fun ended => ?_, rolls, boosts⟩
  have started : (start settings entropy log directory ids).Rested (0 + 1 + moves.length) :=
    start_rested settings entropy directory ungated distinct (by rwa [Nat.zero_add, Nat.add_comm])
  have rested : e.Rested (0 + 1) := started.run ended
  refine ⟨rested.allFree, rolling_lawful.listsAll rested, boosting_lawful.listsAll rested, ?_, ?_⟩
  · exact rolling_lawful.atomic rested rolls
      ((rollUnderLock_draws rested user room now).ends rested fun _ _ _ => ⟨_, _, rfl⟩)
  · exact boosting_lawful.atomic rested boosts
      ((boostUnderLock_draws rested user room place now).ends rested fun _ _ _ => ⟨_, _, rfl⟩)

/-- A place. -/
def pizza : PlaceId := ⟨.ofNat 7⟩

/-- A log of a room with the place. -/
def menu : EventLog where
  events := [
    { id := ⟨.ofNat 100⟩, actor := ⟨"anna"⟩, room := lunchRoom, kind := .roomCreated
      time := default, payload := "lunch" },
    { id := ⟨.ofNat 101⟩, actor := ⟨"anna"⟩, room := lunchRoom, kind := .placeCreated
      time := default, place := some pizza, payload := "pizza" }]

/-- Two users join the room at once. -/
def joining : List (Move Activity) :=
  .enter (.command (.joinRoom ⟨"bert"⟩ lunchRoom default)) ::
    .enter (.command (.joinRoom ⟨"cora"⟩ lunchRoom default)) ::
    (List.replicate 14 [.step 0, .step 1]).flatten

/-- A roll is kept, and a boost of a place that there is not leaves no trace. -/
theorem draws_atomic_joining :
    let c := Crowd.run Activity.process ⟨start {} 0 menu {} (numbered 0), []⟩ joining
    (∀ p ∈ c.members, p = .done ()) ∧ c.state.Trusts lunchRoom ∧
      (∃ view e', (roll ⟨"bert"⟩ lunchRoom default).run c.state = (some (.ok view), e') ∧
        rolling.Kept ⟨"bert"⟩ lunchRoom default view c.state e') ∧
      ∃ f e', (boost ⟨"bert"⟩ lunchRoom ⟨.ofNat 9⟩ default).run c.state = (some (.error f), e') ∧
        Untouched lunchRoom c.state e' := by
  intro c
  have members : c.members = [.done (), .done ()] := by with_unfolding_all rfl
  have ended : ∀ p ∈ c.members, p = .done () := by simp [members]
  have unread : c.state.places.slot (.room lunchRoom) = {} := by with_unfolding_all rfl
  have trusts : c.state.Trusts lunchRoom := by
    rw [Trusts, unread]
    exact .inl (Slot.agrees_empty _)
  obtain ⟨-, -, -, ⟨r, rolled, ran, -, kept⟩, r', boosted, ran', -, untouched⟩ :=
    (draws_atomic {} 0 menu {} (numbered 0) joining ⟨"bert"⟩ lunchRoom ⟨.ofNat 9⟩ default rfl
      (by decide) ⟨by decide +kernel, by decide +kernel⟩).1 ended
  have accepts : ((roll ⟨"bert"⟩ lunchRoom default).run c.state).1.map Except.toBool = some true := by
    decide +kernel
  have refuses : ((boost ⟨"bert"⟩ lunchRoom ⟨.ofNat 9⟩ default).run c.state).1.map Except.toBool =
      some false := by decide +kernel
  rw [ran] at accepts
  rw [ran'] at refuses
  refine ⟨ended, trusts, ?_⟩
  cases r with
  | error f => cases accepts
  | ok view =>
    cases r' with
    | ok view => cases refuses
    | error f => exact ⟨⟨view, rolled, ran, kept⟩, f, boosted, ran', untouched⟩

/-! ### A refused roll that shows -/

/-- The engine as it is when a call that draws has looked up its user and taken the lock of its
room. -/
def entered (e : Engine) (room : RoomId) : Engine :=
  { e with
    directory := { e.directory with accesses := e.directory.accesses + 1 }
    locks := (e.locks.register room).2.acquire (e.locks.register room).1 }

/-- What is refused under the lock of a room is refused by the call, and all locks are free then. -/
theorem run_refused (user : UserId) {body : Op α} (rest : Option User → α → Op β) {f : Failure}
    (reliable : e.Reliable) (free : AllFree e.locks)
    (refuses : body.run (e.entered room) = (some (.error f), e'))
    (kept : e'.locks = (e.entered room).locks) :
    ∃ locks, AllFree locks ∧
      Op.run (user? user >>= fun record => withRoom room body >>= rest record) e =
        (some (.error f), { e' with locks }) := by
  let known : Engine := { e with
    directory := { e.directory with accesses := e.directory.accesses + 1 } }
  have looksUp : (user? user).run e = (some (.ok (e.directory.users.get? user)), known) := by
    obtain ⟨r, ran, outcome⟩ := run_reach e fun users => users.get? user
    obtain rfl := outcome.resolve_right fun failed => failed.1 reliable
    simp only [user?, Op.run_fromStore, Directory.get, ran, known]
  obtain ⟨locks, ran, free'⟩ := withRoom_ends (e := known) free refuses kept
  refine ⟨locks, free', ?_⟩
  rw [Op.run_bind, looksUp]
  dsimp only
  rw [Op.run_bind, ran]

section

variable (user : UserId) (now : Instant)

/-- Where no place is on the list, a roll is refused, and has loaded the places. -/
theorem roll_findsNothing (reliable : e.Reliable) (ungated : e.log.gated = false)
    (free : AllFree e.locks) (idle : e.places.isPopulating (.room room) = false)
    (nothing : ((((e.places.slot (.room room)).inFull Projection.places
      (Projection.places.eventsIn (.room room) e.log.events)).state.filter
        fun _ place => !place.isDeleted).isEmpty) = true) :
    ∃ e', (roll user room now).run e = (some (.error .noPlaces), e') ∧ AllFree e'.locks ∧
      e'.Reliable ∧ SameLog e.log e'.log ∧
      e'.places.slot (.room room) = (e.places.slot (.room room)).readInFull Projection.places
        (Projection.places.eventsIn (.room room) e.log.events) := by
  have reliable' : (e.entered room).Reliable := { reliable with }
  obtain ⟨r, after, s, ran, ⟨cache, log, rfl, same, changed⟩, outcome⟩ :=
    run_readLoaded (e := e.entered room) placeCache_proper ungated idle Loaded.state
  obtain ⟨rfl, rfl⟩ := outcome.resolve_right fun failed => failed.1 reliable'
  let left : Engine := { placeCache.set (e.entered room) cache with log }
  have lists : (livePlaces room).run (e.entered room) = (some (.ok
      (((e.places.slot (.room room)).inFull Projection.places
        (Projection.places.eventsIn (.room room) e.log.events)).state.filter
          fun _ place => !place.isDeleted)), left) := by
    rw [livePlaces, placesOf, Op.run_bind, Op.run_fromStore, ran]
    rfl
  have refuses : (rollUnderLock user room now).run (e.entered room) =
      (some (.error .noPlaces), left) := by
    rw [rollUnderLock, Op.run_bind, lists]
    dsimp only
    rw [if_pos nothing]
    rfl
  obtain ⟨locks, free', ran'⟩ :=
    run_refused user (tellRoll user room now) reliable free refuses rfl
  refine ⟨_, ran', free', ?_, same, ?_⟩
  · exact { reliable'.sameLog same with }
  · exact (changed _).trans (if_pos rfl)

/-- Where a place is not on the list, a boost of it is refused. -/
theorem boost_findsNothing (reliable : e.Reliable) (ungated : e.log.gated = false)
    (free : AllFree e.locks) {id : PlaceId}
    (nothing : ((e.places.slot (.room room)).entry Projection.places
      (Projection.places.eventsIn (.room room) e.log.events) id).filter
        (fun place => !place.isDeleted) = none) :
    ((boost user room id now).run e).1 = some (.error (.notFound .place id.id.toText)) := by
  have reliable' : (e.entered room).Reliable := { reliable with }
  obtain ⟨r, after, s, ran, ⟨cache, log, rfl, -, -⟩, outcome⟩ :=
    run_readEntry (e := e.entered room) placeCache_proper ungated (.room room) id
  obtain ⟨rfl, -⟩ := outcome.resolve_right fun failed => failed.1 reliable'
  let left : Engine := { placeCache.set (e.entered room) cache with log }
  have looksUp : (place? room id).run (e.entered room) =
      (some (.ok ((e.places.slot (.room room)).entry Projection.places
        (Projection.places.eventsIn (.room room) e.log.events) id)), left) := by
    rw [place?, Op.run_fromStore, ran]
    rfl
  have refuses : (boostUnderLock user room id now).run (e.entered room) =
      (some (.error (.notFound .place id.id.toText)), left) := by
    rw [boostUnderLock, Op.run_bind, looksUp]
    dsimp only
    rw [nothing]
    rfl
  obtain ⟨locks, -, ran'⟩ :=
    run_refused user (tellBoost user room id now) reliable free refuses rfl
  rw [boost_eq, ran']

/-- Where the log has no place on the list, a roll that has to read it is refused, and no place of the
room is found by boosts after it, whatever was cached of it before. -/
theorem boost_after_roll (reliable : e.Reliable) (ungated : e.log.gated = false)
    (free : AllFree e.locks) (cold : (e.places.slot (.room room)).collection = .cold)
    (nothing : ((Projection.places.materialize (Projection.places.eventsIn (.room room)
      e.log.events)).filter fun _ place => !place.isDeleted).isEmpty = true) (id : PlaceId) :
    ∃ e', (roll user room now).run e = (some (.error .noPlaces), e') ∧ e'.Reliable ∧
      ((boost user room id now).run e').1 = some (.error (.notFound .place id.id.toText)) := by
  have idle : e.places.isPopulating (.room room) = false := by
    simp [Cache.isPopulating_eq_false, cold]
  obtain ⟨e', rolled, free', reliable', same, loads⟩ :=
    roll_findsNothing user now reliable ungated free idle (by rw [Slot.inFull, cold]; exact nothing)
  -- what the roll has loaded is what the log says
  have again : (e'.places.slot (.room room)).Agrees Projection.places
      (Projection.places.eventsIn (.room room) e'.log.events) := by
    rw [loads, same.events, Slot.readInFull, cold]
    exact (Slot.agrees_load _).1
  refine ⟨e', rolled, reliable', ?_⟩
  refine boost_findsNothing user now reliable' (same.gated.trans ungated) free' ?_
  rw [again.entry_eq, same.events, ← Table.get?_filter _ fun _ (place : Place) => !place.isDeleted,
    Table.get?, List.isEmpty_iff.1 nothing]
  rfl

end

/-- At one instant the place is put on the list by one call and taken off it by another.  The former
appends its event first, but shows it to the caches last; it is dropped before it answers. -/
def crossing : List (Move Activity) :=
  .enter (.command (.restorePlace ⟨"anna"⟩ lunchRoom pizza default)) ::
    .enter (.command (.deletePlace ⟨"bert"⟩ lunchRoom pizza default)) ::
    List.replicate 6 (.step 0) ++ List.replicate 11 (.step 1) ++ List.replicate 6 (.step 0) ++
    [.drop 0]

/-- With no call under way and no outage to come, a boost would be accepted; after a roll that is
refused it is refused as well, since the place is not found. -/
theorem refused_roll_shows :
    let c := Crowd.run Activity.process ⟨start {} 0 menu {} (numbered 0), []⟩ crossing
    (∀ p ∈ c.members, p = .done ()) ∧ c.state.Reliable ∧
      ((boost ⟨"anna"⟩ lunchRoom pizza default).run c.state).1.map Except.toBool = some true ∧
      ∃ e', (roll ⟨"anna"⟩ lunchRoom default).run c.state = (some (.error .noPlaces), e') ∧
        e'.Reliable ∧ ((boost ⟨"anna"⟩ lunchRoom pizza default).run e').1 =
          some (.error (.notFound .place pizza.id.toText)) := by
  intro c
  have ended : c.members = [.done (), .done ()] := by with_unfolding_all rfl
  have reliable : c.state.Reliable :=
    ⟨fun _ => by with_unfolding_all rfl, fun _ => by with_unfolding_all rfl,
      fun _ => by with_unfolding_all rfl⟩
  have ungated : c.state.log.gated = false := by with_unfolding_all rfl
  have free : AllFree c.state.locks := fun _ => by with_unfolding_all rfl
  have unloaded : (c.state.places.loaded? (.room lunchRoom)).isNone := by decide +kernel
  have idle : ¬ c.state.places.isPopulating (.room lunchRoom) := by decide +kernel
  have cold := Cache.collection_eq_cold (Option.isNone_iff_eq_none.1 unloaded) idle
  -- in the log the place has been taken off the list last
  have inOrder : Event.InOrder (Projection.places.eventsIn (.room lunchRoom) c.state.log.events) := by
    unfold Event.InOrder
    decide +kernel
  have nothing : ((Projection.places.materialize (Projection.places.eventsIn (.room lunchRoom)
      c.state.log.events)).filter fun _ place => !place.isDeleted).isEmpty = true := by
    rw [Projection.materialize, Event.sortByTime_of_inOrder inOrder]
    decide +kernel
  exact ⟨by simp [ended], reliable, by decide +kernel,
    boost_after_roll ⟨"anna"⟩ default reliable ungated free cold nothing pizza⟩

end Engine

end NoonDraw
