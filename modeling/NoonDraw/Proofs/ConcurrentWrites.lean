import NoonDraw.Proofs.Draws
import NoonDraw.Proofs.Restart
import NoonDraw.Proofs.SoloReads
import NoonDraw.Proofs.Writers

/-!
# Concurrent writes

Writes that go on at once may show their events to a cache in another order than that of the log.  A
late event is put in its place by its time, so only events of one instant can end up in another order.
Where they do, a cache that has them loaded reads differently from the log.

`Faithful` says when what is cached does not tell the two orders apart, and this is exactly when every
read answers as on an engine that was just started (`concurrent_writes_sameReads_iff`).  Two rolls of
one instant show that it is not always so (`not_concurrent_writes_sameReads`).
-/

namespace NoonDraw.Engine

/-! ### Reads -/

section Reads

variable {κ ε β : Type} [Key κ] {p : Projection κ ε} {e : Engine}

/-- Reading off a scope that nobody is loading answers what is loaded, or else what the log says. -/
theorem answer_readLoaded {c : CacheOf p} (proper : c.Proper) (reliable : e.Reliable)
    (ungated : e.log.gated = false) {scope : Scope} (idle : (c.get e).isPopulating scope = false)
    (view : Loaded κ ε → β) :
    ((readLoaded c scope view).run e).1 = some (.ok (view (((c.get e).loaded? scope).getD
      (.ofEvents p (p.eventsIn scope e.log.events))))) := by
  obtain ⟨r, e', s, ran, -, ⟨rfl, -⟩ | ⟨unreliable, -⟩⟩ := run_readLoaded proper ungated idle view
  · rw [ran, Cache.inFull_slot]
  · exact absurd reliable unreliable

/-- A look-up answers what is cached of its key, or else what the log says. -/
theorem answer_readEntry {c : CacheOf p} (proper : c.Proper) (reliable : e.Reliable)
    (ungated : e.log.gated = false) (scope : Scope) (key : κ) :
    ((readEntry c scope key).run e).1 = some (.ok (((c.get e).lookup scope key).getD
      ((p.materialize (p.eventsIn scope e.log.events)).get? key))) := by
  obtain ⟨r, e', s, ran, -, ⟨rfl, -⟩ | ⟨unreliable, -⟩⟩ := run_readEntry proper ungated scope key
  · rw [ran]
    rfl
  · exact absurd reliable unreliable

theorem run_fromStore_ok {operation : Operation} {process : Process Engine (Except StoreError β)}
    {a : β} (answered : (process.run e).1 = some (.ok a)) :
    ((Op.fromStore operation process).run e).1 = some (.ok a) := by
  rw [Op.run_fromStore]
  cases ran : process.run e with
  | mk r e' =>
    rw [ran] at answered
    obtain rfl : r = some (.ok a) := answered
    rfl

/-- Two engines over the same log, where nothing is cached on the second, read the same off a scope
iff what the first has loaded looks as the log does. -/
theorem run_readLoaded_eq_iff [DecidableEq κ] {c : CacheOf p} (proper : c.Proper) {fresh : Engine}
    (reliable : e.Reliable) (reliable' : fresh.Reliable) (ungated : e.log.gated = false)
    (ungated' : fresh.log.gated = false) (same : fresh.log.events = e.log.events)
    (empty : c.get fresh = ∅) {scope : Scope} (isScope : p.IsScope scope) {shown : List Event}
    (agrees : (c.get e).Agrees shown) (operation : Operation) (view : Loaded κ ε → β) :
    ((Op.fromStore operation (readLoaded c scope view)).run e).1 =
        ((Op.fromStore operation (readLoaded c scope view)).run fresh).1 ↔
      (((c.get e).loaded? scope).isSome →
        view (.ofEvents p (p.eventsIn scope shown)) =
          view (.ofEvents p (p.eventsIn scope e.log.events))) := by
  have nothing : (c.get fresh).loaded? scope = none := by rw [empty]; rfl
  rw [run_fromStore_ok (answer_readLoaded proper reliable ungated (agrees.not_populating isScope) view),
    run_fromStore_ok (answer_readLoaded proper reliable' ungated' (by rw [empty]; rfl) view), nothing,
    Option.getD_none, same, Option.some.injEq, Except.ok.injEq]
  cases loaded : (c.get e).loaded? scope with
  | none => simp
  | some l => simp [agrees.loaded?_eq isScope loaded]

/-- The same of look-ups. -/
theorem run_readEntry_eq_iff [DecidableEq κ] {c : CacheOf p} (proper : c.Proper) {fresh : Engine}
    (reliable : e.Reliable) (reliable' : fresh.Reliable) (ungated : e.log.gated = false)
    (ungated' : fresh.log.gated = false) (same : fresh.log.events = e.log.events)
    (empty : c.get fresh = ∅) {scope : Scope} (isScope : p.IsScope scope) {shown : List Event}
    (agrees : (c.get e).Agrees shown) (operation : Operation) (key : κ) :
    ((Op.fromStore operation (readEntry c scope key)).run e).1 =
        ((Op.fromStore operation (readEntry c scope key)).run fresh).1 ↔
      (((c.get e).lookup scope key).isSome →
        (p.materialize (p.eventsIn scope shown)).get? key =
          (p.materialize (p.eventsIn scope e.log.events)).get? key) := by
  have nothing : (c.get fresh).lookup scope key = none := by rw [empty]; rfl
  rw [run_fromStore_ok (answer_readEntry proper reliable ungated scope key),
    run_fromStore_ok (answer_readEntry proper reliable' ungated' scope key), nothing,
    Option.getD_none, same, Option.some.injEq, Except.ok.injEq]
  cases cached : (c.get e).lookup scope key with
  | none => simp
  | some entry => simp [agrees.lookup_eq isScope cached]

end Reads

/-- All reads of an engine, and whether another one answers them alike. -/
structure SameReads (e e' : Engine) : Prop where
  /-- The places of a room. -/
  places : ∀ room, ((placesOf room).run e).1 = ((placesOf room).run e').1
  /-- One place. -/
  place : ∀ room id, ((place? room id).run e).1 = ((place? room id).run e').1
  /-- The rolls of a room. -/
  rolls : ∀ room, ((rollsOf room).run e).1 = ((rollsOf room).run e').1
  /-- The boosts of a room. -/
  boosts : ∀ room, ((boostsOf room).run e).1 = ((boostsOf room).run e').1
  /-- A room. -/
  room : ∀ id, ((room? id).run e).1 = ((room? id).run e').1
  /-- The memberships of a user. -/
  memberships : ∀ user, ((membershipsOf user).run e).1 = ((membershipsOf user).run e').1

/-- Whether the order in which each cache was shown some events makes no difference to what it has
cached: the entries are those that the log says, and draws of one instant are in the order of the
log. -/
structure Faithful (e : Engine) (shown : Nat → List Event) : Prop where
  /-- Every place that is cached. -/
  places : ∀ room id, (e.places.lookup (.room room) id).isSome →
    (Projection.places.materialize (Projection.places.eventsIn (.room room) (shown 0))).get? id =
      (Projection.places.materialize
        (Projection.places.eventsIn (.room room) e.log.events)).get? id
  /-- The rolls of every room whose rolls are loaded. -/
  rolls : ∀ room, (e.rolls.loaded? (.room room)).isSome → ∀ t,
    Event.atTime t (Projection.rolls.placed room (shown 1)) =
      Event.atTime t (Projection.rolls.placed room e.log.events)
  /-- The boosts of every room whose boosts are loaded. -/
  boosts : ∀ room, (e.boosts.loaded? (.room room)).isSome → ∀ t,
    Event.atTime t (Projection.boosts.placed room (shown 2)) =
      Event.atTime t (Projection.boosts.placed room e.log.events)
  /-- Every room that is cached. -/
  rooms : ∀ room, (e.rooms.lookup (.room room) room).isSome →
    (Projection.rooms.materialize (Projection.rooms.eventsIn (.room room) (shown 3))).get? room =
      (Projection.rooms.materialize (Projection.rooms.eventsIn (.room room) e.log.events)).get? room
  /-- The memberships of every user whose memberships are loaded. -/
  memberships : ∀ user, (e.memberships.loaded? (.user user)).isSome →
    membershipsIn user (shown 4) = membershipsIn user e.log.events

theorem run_membershipsOf {e : Engine} (reliable : e.Reliable) (ungated : e.log.gated = false)
    {user : UserId} (idle : e.memberships.isPopulating (.user user) = false) :
    ((membershipsOf user).run e).1 = ((Op.fromStore .loadMemberships (readLoaded membershipCache
      (.user user) fun loaded => loaded.state.values.mergeSort
        fun a b => decide (a.since ≤ b.since))).run e).1 := by
  have answered : ((Op.fromStore .loadMemberships
      (readLoaded membershipCache (.user user) Loaded.state)).run e).1 = _ :=
    run_fromStore_ok (answer_readLoaded membershipCache_proper reliable ungated idle Loaded.state)
  rw [run_fromStore_ok (answer_readLoaded membershipCache_proper reliable ungated idle _),
    membershipsOf, Op.run_bind]
  cases ran : (Op.fromStore .loadMemberships
      (readLoaded membershipCache (.user user) Loaded.state)).run e with
  | mk r e' =>
    rw [ran] at answered
    obtain rfl := answered
    rfl

/-- A cache that is shown some events agrees with a log that ends with them. -/
theorem agrees_foldl {κ ε : Type} [Key κ] [DecidableEq κ] {p : Projection κ ε} (cached : p.IsCached)
    {cache : Cache p} {before : List Event} (agrees : cache.Agrees before) (shown : List Event)
    (distinct : (Loaded.ids (before ++ shown)).Nodup) :
    (shown.foldl Cache.observe cache).Agrees (before ++ shown) := by
  induction shown using List.reverseRecOn with
  | nil => simpa using agrees
  | append_singleton shown event ih =>
    rw [← List.append_assoc] at distinct ⊢
    have fewer : (Loaded.ids (before ++ shown)).Nodup :=
      distinct.sublist ((List.sublist_append_left _ _).map Event.id)
    rw [List.foldl_append]
    exact (ih fewer).observe cached distinct

section Concurrent

variable {w : World} {e fresh : Engine} {events appended : List Event} {schedule : List Nat}
  {c : Crowd Engine} {shown : Nat → List Event}

/-- An engine whose caches agree each with the log in the order in which it was shown the events. -/
structure AgreesWith (e : Engine) (shown : Nat → List Event) : Prop where
  /-- The cache of places. -/
  places : e.places.Agrees (shown 0)
  /-- The cache of rolls. -/
  rolls : e.rolls.Agrees (shown 1)
  /-- The cache of boosts. -/
  boosts : e.boosts.Agrees (shown 2)
  /-- The cache of rooms. -/
  rooms : e.rooms.Agrees (shown 3)
  /-- The cache of memberships. -/
  memberships : e.memberships.Agrees (shown 4)

/-- An engine reads as one that was just started over its log does iff what it has cached is as the
log says. -/
theorem AgreesWith.sameReads_iff (agrees : e.AgreesWith shown) (reliable : e.Reliable)
    (ungated : e.log.gated = false) (distinct : (Loaded.ids e.log.events).Nodup)
    (same : ∀ k < 5, (shown k).Perm e.log.events) (settings : Settings) (entropy : UInt64)
    (directory : Directory) (responsive : ∀ n, directory.outages n = none) (ids : IdSupply) :
    SameReads e (start settings entropy { events := e.log.events } directory ids) ↔
      e.Faithful shown := by
  have reliable' : (start settings entropy { events := e.log.events } directory ids).Reliable :=
    ⟨fun _ => rfl, fun _ => rfl, responsive⟩
  have places (room : RoomId) := run_readLoaded_eq_iff placeCache_proper reliable reliable' ungated
    rfl rfl rfl (isScope_room room).1 agrees.places .loadPlaces Loaded.state
  have place (room : RoomId) (id : PlaceId) := run_readEntry_eq_iff placeCache_proper reliable
    reliable' ungated rfl rfl rfl (isScope_room room).1 agrees.places .loadPlace id
  have rolls (room : RoomId) := (run_readLoaded_eq_iff rollCache_proper reliable reliable' ungated
    rfl rfl rfl (isScope_room room).2.1 agrees.rolls .loadRolls
      fun loaded => loaded.inReplayOrder Projection.rolls).trans
        (imp_congr_right fun _ => Projection.rolls_isDraws.listed_eq_iff room distinct
          (same 1 (by decide)))
  have boosts (room : RoomId) := (run_readLoaded_eq_iff boostCache_proper reliable reliable' ungated
    rfl rfl rfl (isScope_room room).2.2.1 agrees.boosts .loadBoosts
      fun loaded => loaded.inReplayOrder Projection.boosts).trans
        (imp_congr_right fun _ => Projection.boosts_isDraws.listed_eq_iff room distinct
          (same 2 (by decide)))
  have room (id : RoomId) := run_readEntry_eq_iff roomCache_proper reliable
    reliable' ungated rfl rfl rfl (isScope_room id).2.2.2 agrees.rooms .loadRoom id
  have memberships (user : UserId) : ((membershipsOf user).run e).1 =
      ((membershipsOf user).run
        (start settings entropy { events := e.log.events } directory ids)).1 ↔
        ((e.memberships.loaded? (.user user)).isSome →
          membershipsIn user (shown 4) = membershipsIn user e.log.events) := by
    rw [run_membershipsOf reliable ungated (agrees.memberships.not_populating (isScope_user user)),
      run_membershipsOf reliable' rfl rfl]
    exact run_readLoaded_eq_iff membershipCache_proper reliable reliable' ungated rfl rfl rfl
      (isScope_user user) agrees.memberships .loadMemberships _
  constructor
  · intro reads
    exact ⟨fun r id => (place r id).1 (reads.place r id), fun r => (rolls r).1 (reads.rolls r),
      fun r => (boosts r).1 (reads.boosts r), fun id => (room id).1 (reads.room id),
      fun user => (memberships user).1 (reads.memberships user)⟩
  · intro faithful
    refine ⟨fun r => (places r).2 fun loaded => Table.ext_get? fun id => faithful.places r id ?_,
      fun r id => (place r id).2 (faithful.places r id), fun r => (rolls r).2 (faithful.rolls r),
      fun r => (boosts r).2 (faithful.boosts r), fun id => (room id).2 (faithful.rooms id),
      fun user => (memberships user).2 (faithful.memberships user)⟩
    -- where all places are loaded, each of them is cached
    obtain ⟨l, loaded⟩ := Option.isSome_iff_exists.1 loaded
    have ready := Cache.loaded?_eq_some.1 loaded
    unfold Cache.lookup Slot.lookup
    rw [show (e.places.slot (.room r)).collection = .ready l from ready]
    split <;> rfl

/-- Whether a cache was shown the events of every scope, as far as they are of one instant, in the
order of the log. -/
def SameInstants {κ ε : Type} [Key κ] (p : Projection κ ε) (shown logged : List Event) : Prop :=
  ∀ scope t, Event.atTime t (p.eventsIn scope shown) = Event.atTime t (p.eventsIn scope logged)

/-- Whether every cache was shown the events of one instant in the order of the log. -/
structure ShownInOrder (shown : Nat → List Event) (logged : List Event) : Prop where
  /-- The cache of places. -/
  places : SameInstants Projection.places (shown 0) logged
  /-- The cache of rolls. -/
  rolls : SameInstants Projection.rolls (shown 1) logged
  /-- The cache of boosts. -/
  boosts : SameInstants Projection.boosts (shown 2) logged
  /-- The cache of rooms. -/
  rooms : SameInstants Projection.rooms (shown 3) logged
  /-- The cache of memberships. -/
  memberships : SameInstants Projection.memberships (shown 4) logged

theorem SameInstants.materialize {κ ε : Type} [Key κ] {p : Projection κ ε} {xs ys : List Event}
    (same : SameInstants p xs ys) (scope : Scope) :
    p.materialize (p.eventsIn scope xs) = p.materialize (p.eventsIn scope ys) :=
  congrArg p.fold (Event.sortByTime_eq_iff.2 (same scope))

theorem SameInstants.placed {ε : Type} {p : Projection EventId ε} {xs ys : List Event}
    (same : SameInstants p xs ys) (room : RoomId) (t : Instant) :
    Event.atTime t (p.placed room xs) = Event.atTime t (p.placed room ys) := by
  rw [Projection.placed, Projection.placed, Event.atTime, Event.atTime, List.filter_comm,
    List.filter_comm _ _ (p.eventsIn _ ys)]
  exact congrArg (List.filter _) (same (.room room) t)

/-- What is cached is as the log says if events of one instant were shown in its order. -/
theorem ShownInOrder.faithful (inOrder : ShownInOrder shown e.log.events) : e.Faithful shown where
  places room _ _ := by rw [inOrder.places.materialize]
  rolls room _ := inOrder.rolls.placed room
  boosts room _ := inOrder.boosts.placed room
  rooms room _ := by rw [inOrder.rooms.materialize]
  memberships user _ := by rw [membershipsIn, inOrder.memberships.materialize, membershipsIn]

/-- The identifiers in the log stay distinct. -/
theorem Written.ids_nodup (written : Written e events appended schedule c)
    (distinct : (Loaded.ids (e.log.events ++ events)).Nodup) :
    (Loaded.ids c.state.log.events).Nodup := by
  have within : appended.Subperm events := List.subperm_of_subset written.once fun a ha =>
    let ⟨_, found, _⟩ := written.taken a ha
    List.mem_of_getElem? found
  obtain ⟨_, same, sub⟩ := (List.subperm_append_left e.log.events).2 within
  rw [written.log]
  exact (same.map Event.id).nodup_iff.1 (distinct.sublist (sub.map _))

/-- After concurrent writes that have all returned, each cache agrees with the log in the order in
which it was shown the events. -/
theorem Written.agreesWith (written : Written e events appended schedule c)
    (serves : e.Serves w 0) (distinct : (Loaded.ids c.state.log.events).Nodup)
    (same : ∀ k < 5, (e.log.events ++ shownTo events appended schedule k).Perm
      c.state.log.events) :
    c.state.AgreesWith (fun k => e.log.events ++ shownTo events appended schedule k) := by
  have ids : ∀ k < 5, (Loaded.ids (e.log.events ++ shownTo events appended schedule k)).Nodup :=
    fun k hk => ((same k hk).map Event.id).nodup_iff.2 distinct
  have log := serves.events
  rw [written.state]
  exact ⟨agrees_foldl .places (log ▸ serves.places) _ (ids 0 (by decide)),
    agrees_foldl .rolls (log ▸ serves.rolls) _ (ids 1 (by decide)),
    agrees_foldl .boosts (log ▸ serves.boosts) _ (ids 2 (by decide)),
    agrees_foldl .rooms (log ▸ serves.rooms) _ (ids 3 (by decide)),
    agrees_foldl .memberships (log ▸ serves.memberships) _ (ids 4 (by decide))⟩

/-- Any number of writes go on at once, their appends and the showing of their events in any order.
Once all have returned, every read answers as on an engine that was just started over the same log iff
what is cached does not tell apart the order in which events were shown from the order of the log.  It
does not if no two events of one scope and one instant were shown to a cache in another order. -/
theorem concurrent_writes_sameReads_iff (w : World) (e : Engine) (events : List Event)
    (schedule : List Nat) (serves : e.Serves w 0)
    (distinct : (Loaded.ids (e.log.events ++ events)).Nodup)
    (returned : ∀ p ∈ (writeAll e events schedule).members, p = .done ())
    (settings : Settings) (entropy : UInt64) (ids : IdSupply) :
    let e' := (writeAll e events schedule).state.recovered
    let fresh := start settings entropy { events := e'.log.events } { users := e'.directory.users } ids
    let appended := e'.log.events.drop e.log.events.length
    let shown k := e.log.events ++ shownTo events appended schedule k
    (e'.SameReads fresh ↔ e'.Faithful shown) ∧
      (ShownInOrder shown e'.log.events → e'.Faithful shown) := by
  have own : events.Nodup :=
    List.Nodup.of_map Event.id (distinct.sublist ((List.sublist_append_right _ _).map _))
  obtain ⟨appended, written⟩ := writeAll_written e own schedule
  intro e' fresh appended' shown
  obtain rfl : appended' = appended := by
    rw [show appended' = (e.log.events ++ appended).drop e.log.events.length from
      congrArg (List.drop _) written.log, List.drop_left]
  have same : ∀ k < 5, (shown k).Perm e'.log.events := fun k hk => by
    rw [show e'.log.events = e.log.events ++ appended' from written.log]
    exact (written.shown_perm own returned hk).append_left _
  have idsNodup := written.ids_nodup distinct
  have agrees := written.agreesWith serves idsNodup same
  exact ⟨AgreesWith.sameReads_iff ⟨agrees.places, agrees.rolls, agrees.boosts, agrees.rooms,
    agrees.memberships⟩ (recovered_reliable _) (written.gated.trans serves.ungated) idsNodup same
      settings entropy _ (fun _ => rfl) ids, ShownInOrder.faithful⟩

end Concurrent

/-! ### Two rolls of one instant -/

/-- A room in which two users roll at one instant. -/
def tiedRoom : RoomId := ⟨.ofNat 100⟩

/-- Their rolls. -/
def tiedRolls : List Event :=
  [{ id := ⟨.ofNat 1⟩, actor := ⟨"anna"⟩, room := tiedRoom, kind := .rollCreated, time := default,
     place := some ⟨.ofNat 200⟩ },
   { id := ⟨.ofNat 2⟩, actor := ⟨"bert"⟩, room := tiedRoom, kind := .rollCreated, time := default,
     place := some ⟨.ofNat 200⟩ }]

/-- An engine that has loaded the rolls of the room. -/
def loadedEngine : Engine := ((rollsOf tiedRoom).run (start {} 0 {} {} (numbered 0))).2

theorem loadedEngine_serves :
    loadedEngine.Serves ⟨[], ∅, ({} : Settings).rules, AllFree⟩ 0 := by
  have started : (start {} 0 {} {} (numbered 0)).Serves ⟨[], ∅, ({} : Settings).rules, AllFree⟩ 0 :=
    start_serves {} 0 {} {} rfl .nil ⟨by simp, by simp⟩
  obtain ⟨r, e', events, ran, serves, -, ⟨-, rfl⟩ | ⟨unreliable, -⟩⟩ :=
    rollsOf_settles tiedRoom 0 _ started
  · rwa [loadedEngine, ran]
  · exact absurd ⟨fun _ => rfl, fun _ => rfl, fun _ => rfl⟩ unreliable

/-- The events of the rolls in an answer. -/
def idsIn : Option (Except Failure (List Roll)) → List EventId
  | some (.ok rolls) => rolls.map Roll.id
  | _ => []

/-- The writers take turns. -/
def alternating : List Nat := [0, 1, 0, 1, 0, 1, 0, 1, 0, 1, 0, 1]

/-- The first writer appends first and shows its event last. -/
def overtaking : List Nat := [0, 1, 1, 1, 1, 1, 1, 0, 0, 0, 0, 0]

theorem concurrent_writes_sameReads_alternating :
    (writeAll loadedEngine tiedRolls alternating).state.recovered.SameReads
      (start {} 0 { events := tiedRolls } {} (numbered 0)) := by
  have returned : (writeAll loadedEngine tiedRolls alternating).members = [.done (), .done ()] := rfl
  obtain ⟨same, inOrder⟩ := concurrent_writes_sameReads_iff _ loadedEngine tiedRolls alternating
    loadedEngine_serves (by decide +kernel) (by rw [returned]; simp) {} 0 (numbered 0)
  refine same.2 (inOrder ⟨?_, ?_, ?_, ?_, ?_⟩)
  all_goals exact fun _ _ => rfl

/-- A roll that was appended first and shown last is listed last, although the log has it first. -/
theorem not_concurrent_writes_sameReads :
    ¬ ∀ (w : World) (e : Engine) (events : List Event) (schedule : List Nat), e.Serves w 0 →
      (Loaded.ids (e.log.events ++ events)).Nodup →
      (∀ p ∈ (writeAll e events schedule).members, p = .done ()) →
      let e' := (writeAll e events schedule).state.recovered
      e'.SameReads (start {} 0 { events := e'.log.events } { users := e'.directory.users }
        (numbered 0)) := by
  intro always
  have returned : (writeAll loadedEngine tiedRolls overtaking).members = [.done (), .done ()] := rfl
  have reads := (always _ loadedEngine tiedRolls overtaking loadedEngine_serves (by decide +kernel)
    (by rw [returned]; simp)).rolls tiedRoom
  have cached : idsIn ((rollsOf tiedRoom).run
      (writeAll loadedEngine tiedRolls overtaking).state.recovered).1 = [⟨.ofNat 2⟩, ⟨.ofNat 1⟩] := by
    decide +kernel
  have replayed : idsIn ((rollsOf tiedRoom).run
      (start {} 0 { events := tiedRolls } {} (numbered 0))).1 = [⟨.ofNat 1⟩, ⟨.ofNat 2⟩] := by
    have serves : (start {} 0 { events := tiedRolls } {} (numbered 0)).Serves _ 0 :=
      start_serves {} 0 { events := tiedRolls } {} rfl (by decide +kernel) ⟨by simp, by simp⟩
    obtain ⟨r, e', events, ran, -, -, ⟨rfl, -⟩ | ⟨unreliable, -⟩⟩ :=
      rollsOf_settles tiedRoom 0 _ serves
    · have inOrder : Event.InOrder (Projection.rolls.eventsIn (.room tiedRoom) tiedRolls) := by
        unfold Event.InOrder
        decide +kernel
      rw [ran]
      show idsIn (some (.ok (Projection.rolls.listed tiedRoom tiedRolls))) = _
      rw [Projection.rolls_isDraws.listed_eq tiedRoom (by decide +kernel),
        Event.sortByTime_of_inOrder inOrder]
      rfl
    · exact absurd ⟨fun _ => rfl, fun _ => rfl, fun _ => rfl⟩ unreliable
  rw [reads] at cached
  exact absurd (cached.symm.trans replayed) (by decide)

end NoonDraw.Engine
