import NoonDraw.Proofs.Restart
import NoonDraw.Proofs.SoloReads

/-!
# Engines that answer alike

Two slots of a scope are alike if both say what the log says, or if they are the same, whatever they
say (`Slot.Alike`).  Reads answer the same from both and leave them alike, and so does every event that
is shown to both.

Two engines are twins if their logs hold the same events, their caches are alike, their stores do not
fail, and they will draw the same identifiers and the same random numbers (`Engine.Twins`).  Twins give
the same answer to every call and are twins again afterwards (`Engine.Op.KeepsTwins`), hence to all
commands in a row (`Engine.Twins.runAll`).
-/

namespace NoonDraw

variable {κ ε : Type} [Key κ] {p : Projection κ ε} {events : List Event}

/-! ### Slots -/

namespace Slot

/-- Two slots of a scope that nobody is loading, and that cannot be told apart by reads. -/
def Alike (p : Projection κ ε) (events : List Event) (s s' : Slot κ ε) : Prop :=
  Agrees p events s ∧ Agrees p events s' ∨
    s' = s ∧ ∀ observed, s.collection ≠ .populating observed

namespace Alike

variable {s s' : Slot κ ε} {key : κ}

theorem idle (alike : Alike p events s s') : ∀ observed, s.collection ≠ .populating observed := by
  rcases alike with ⟨agrees, -⟩ | ⟨-, idle⟩
  · exact agrees.idle
  · exact idle

theorem symm (alike : Alike p events s s') : Alike p events s' s := by
  rcases alike with ⟨agrees, agrees'⟩ | ⟨rfl, idle⟩
  · exact .inl ⟨agrees', agrees⟩
  · exact .inr ⟨rfl, idle⟩

theorem inFull_eq (alike : Alike p events s s') : s'.inFull p events = s.inFull p events := by
  rcases alike with ⟨agrees, agrees'⟩ | ⟨rfl, -⟩
  · rw [agrees.inFull_eq, agrees'.inFull_eq]
  · rfl

theorem readInFull (alike : Alike p events s s') :
    Alike p events (s.readInFull p events) (s'.readInFull p events) := by
  rcases alike with ⟨agrees, agrees'⟩ | ⟨rfl, -⟩
  · exact .inl ⟨agrees.readInFull, agrees'.readInFull⟩
  · exact .inr ⟨rfl, readInFull_idle⟩

theorem entry_eq (alike : Alike p events s s') : s'.entry p events key = s.entry p events key := by
  rcases alike with ⟨agrees, agrees'⟩ | ⟨rfl, -⟩
  · rw [agrees.entry_eq, agrees'.entry_eq]
  · rfl

variable [DecidableEq κ]

theorem lookedUp (replayable : p.Replayable) (alike : Alike p events s s') (key : κ) :
    Alike p events (s.lookedUp p events key) (s'.lookedUp p events key) := by
  rcases alike with ⟨agrees, agrees'⟩ | ⟨rfl, idle⟩
  · exact .inl ⟨agrees.lookedUp replayable key, agrees'.lookedUp replayable key⟩
  · exact .inr ⟨rfl, by rwa [lookedUp_collection]⟩

/-- Both slots are shown an event of their scope. -/
theorem observe (replayable : p.Replayable) (alike : Alike p events s s') {e : Event}
    (distinct : (Loaded.ids (events ++ [e])).Nodup) (reads : p.reads e.kind) :
    Alike p (events ++ [e]) (s.observe p e) (s'.observe p e) := by
  rcases alike with ⟨agrees, agrees'⟩ | ⟨rfl, idle⟩
  · exact .inl ⟨agrees.observe replayable distinct reads, agrees'.observe replayable distinct reads⟩
  · exact .inr ⟨rfl, observe_idle idle⟩

end Alike

end Slot

/-! ### Caches -/

namespace Cache

/-- Two caches all whose slots are alike. -/
def Alike (events : List Event) (c c' : Cache p) : Prop :=
  ∀ scope, p.IsScope scope → (c.slot scope).Alike p (p.eventsIn scope events) (c'.slot scope)

namespace Alike

variable {c c' d d' : Cache p}

/-- A cache of which nothing is being loaded is like itself. -/
theorem refl (idle : ∀ scope, c.isPopulating scope = false) : c.Alike events c :=
  fun scope _ => .inr ⟨rfl, isPopulating_eq_false.1 (idle scope)⟩

/-- Caches stay alike if one slot changes in both and is alike again. -/
theorem of_slot (alike : c.Alike events c') (scope : Scope) {s s' : Slot κ ε}
    (changed : ∀ other, d.slot other = if other = scope then s else c.slot other)
    (changed' : ∀ other, d'.slot other = if other = scope then s' else c'.slot other)
    (again : p.IsScope scope → s.Alike p (p.eventsIn scope events) s') : d.Alike events d' := by
  intro other isScope
  rw [changed, changed']
  split
  next same => exact same ▸ again (same ▸ isScope)
  next => exact alike other isScope

/-- Both caches are shown an event right after its append. -/
theorem observe [DecidableEq κ] (cached : p.IsCached) (alike : c.Alike events c') {e : Event}
    (distinct : (Loaded.ids (events ++ [e])).Nodup) :
    (c.observe e).Alike (events ++ [e]) (c'.observe e) := by
  intro scope isScope
  have distinctIn := Projection.ids_eventsIn_nodup p scope distinct
  rw [Projection.eventsIn_append, cached.eventsIn_singleton isScope] at distinctIn ⊢
  rw [slot_observe, slot_observe]
  by_cases isIn : p.isIn scope e
  · rw [if_pos isIn] at distinctIn ⊢
    rw [if_pos isIn, if_pos isIn]
    exact (alike scope isScope).observe cached.replayable distinctIn
      (Projection.reads_of_isIn isIn)
  · rw [if_neg isIn, if_neg isIn, if_neg isIn, List.append_nil]
    exact alike scope isScope

theorem not_populating (alike : c.Alike events c') {scope : Scope} (isScope : p.IsScope scope) :
    c.isPopulating scope = false ∧ c'.isPopulating scope = false :=
  ⟨isPopulating_eq_false.2 (alike scope isScope).idle,
    isPopulating_eq_false.2 (alike scope isScope).symm.idle⟩

end Alike

/-- Two caches that agree with the log are alike. -/
theorem Agrees.alike {c c' : Cache p} (agrees : c.Agrees events) (agrees' : c'.Agrees events) :
    c.Alike events c' :=
  fun scope isScope => .inl ⟨agrees scope isScope, agrees' scope isScope⟩

end Cache

namespace Engine

/-- Two engines that answer alike, and will draw the same. -/
structure Twins (locks locks' : RoomLocks → Prop) (supply : Nat) (e e' : Engine) : Prop where
  /-- Their logs hold the same events. -/
  events : e'.log.events = e.log.events
  /-- Reads of the one log are not held. -/
  ungated : e.log.gated = false
  /-- Nor are those of the other. -/
  ungated' : e'.log.gated = false
  /-- The directories have the same users. -/
  users : e'.directory.users = e.directory.users
  /-- The same rules are in force. -/
  rules : e'.rules = e.rules
  /-- The locks of the one are as they should be. -/
  locks : locks e.locks
  /-- So are those of the other. -/
  locks' : locks' e'.locks
  /-- The stores of the one do not fail. -/
  reliable : e.Reliable
  /-- Nor do those of the other. -/
  reliable' : e'.Reliable
  /-- They will draw the same identifiers. -/
  ids : e'.ids = e.ids
  /-- They will draw the same random numbers. -/
  lottery : e'.lottery = e.lottery
  /-- No identifier occurs twice. -/
  distinct : (Loaded.ids e.log.events).Nodup
  /-- Nor will one that is drawn. -/
  fresh : e.ids.FreshFor e.log.events supply
  /-- The caches of places are alike. -/
  places : e.places.Alike e.log.events e'.places
  /-- So are those of rolls. -/
  rolls : e.rolls.Alike e.log.events e'.rolls
  /-- So are those of boosts. -/
  boosts : e.boosts.Alike e.log.events e'.boosts
  /-- So are those of rooms. -/
  rooms : e.rooms.Alike e.log.events e'.rooms
  /-- So are those of memberships. -/
  memberships : e.memberships.Alike e.log.events e'.memberships

variable {locks locks' : RoomLocks → Prop} {supply n m : Nat} {e e' : Engine} {α β : Type}

theorem Twins.le (twins : Twins locks locks' n e e') (le : m ≤ n) : Twins locks locks' m e e' :=
  { twins with fresh := twins.fresh.le le }

theorem Twins.sameLog (twins : Twins locks locks' n e e') {log log' : EventLog}
    (same : SameLog e.log log) (same' : SameLog e'.log log') :
    Twins locks locks' n { e with log } { e' with log := log' } := by
  have events : log.events = e.log.events := same.events
  exact { twins with
    events := (same'.events.trans twins.events).trans events.symm
    ungated := same.gated.trans twins.ungated
    ungated' := same'.gated.trans twins.ungated'
    reliable := twins.reliable.sameLog same
    reliable' := twins.reliable'.sameLog same'
    distinct := events ▸ twins.distinct
    fresh := events ▸ twins.fresh
    places := events ▸ twins.places
    rolls := events ▸ twins.rolls
    boosts := events ▸ twins.boosts
    rooms := events ▸ twins.rooms
    memberships := events ▸ twins.memberships }

/-- A call that twins answer alike and after which they are twins again, and have drawn so many
identifiers at most. -/
def Op.KeepsTwins (op : Op α) (locks locks' : RoomLocks → Prop) (draws : Nat) : Prop :=
  ∀ supply e e', Twins locks locks' (supply + draws) e e' → ∃ r after after',
    op.run e = (some r, after) ∧ op.run e' = (some r, after') ∧
      Twins locks locks' supply after after'

namespace Op.KeepsTwins

variable {op : Op α} {g : α → Op β}

theorem pure (a : α) : KeepsTwins (Pure.pure a : Op α) locks locks' 0 :=
  fun _ e e' twins => ⟨_, e, e', rfl, rfl, twins⟩

theorem throw (f : Failure) : KeepsTwins (MonadExcept.throw f : Op α) locks locks' 0 :=
  fun _ e e' twins => ⟨_, e, e', rfl, rfl, twins⟩

theorem le (keeps : op.KeepsTwins locks locks' n) (le : n ≤ m) : op.KeepsTwins locks locks' m :=
  fun supply e e' twins => keeps supply e e' (twins.le (Nat.add_le_add_left le supply))

theorem bind (first : op.KeepsTwins locks locks' n)
    (rest : ∀ a, (g a).KeepsTwins locks locks' m) :
    (op >>= g).KeepsTwins locks locks' (m + n) := by
  intro supply e e' twins
  obtain ⟨r, after, after', ran, ran', again⟩ :=
    first (supply + m) e e' (by rwa [Nat.add_assoc])
  simp only [run_bind, ran, ran']
  cases r with
  | error f => exact ⟨_, after, after', rfl, rfl, again.le (Nat.le_add_right _ _)⟩
  | ok a => exact rest a supply after after' again

/-- A call that goes on unless it is refused. -/
theorem refusing {c : Prop} [Decidable c] {f : Failure}
    (keeps : op.KeepsTwins locks locks' n) :
    (if c then (MonadExcept.throw f >>= fun _ : PUnit => op) else op).KeepsTwins locks locks' n := by
  split
  · exact (throw f).bind fun _ => keeps
  · exact keeps

/-- A call that draws nothing goes before one that may. -/
theorem after (first : op.KeepsTwins locks locks' 0)
    (rest : ∀ a, (g a).KeepsTwins locks locks' n) :
    (op >>= g).KeepsTwins locks locks' n :=
  first.bind rest

/-- A call that may draw goes before one that draws nothing. -/
theorem before (first : op.KeepsTwins locks locks' n)
    (rest : ∀ a, (g a).KeepsTwins locks locks' 0) :
    (op >>= g).KeepsTwins locks locks' n :=
  (first.bind rest).le (Nat.zero_add n).le

theorem fromStore {operation : Operation} {p : Process Engine (Except StoreError α)}
    (answers : ∀ supply e e', Twins locks locks' supply e e' → ∃ answer after after',
      p.run e = (some (.ok answer), after) ∧ p.run e' = (some (.ok answer), after') ∧
        Twins locks locks' supply after after') :
    (Op.fromStore operation p).KeepsTwins locks locks' 0 := by
  intro supply e e' twins
  obtain ⟨answer, after, after', ran, ran', again⟩ := answers supply e e' twins
  simp only [run_fromStore, ran, ran']
  exact ⟨_, after, after', rfl, rfl, again⟩

end Op.KeepsTwins

/-! ### Reads -/

section Caches

/-- A cache of the engine that twins have alike. -/
structure CacheOf.Paired (c : CacheOf p) : Prop where
  /-- It is a part of the engine. -/
  proper : c.Proper
  /-- Twins have it alike. -/
  alike : ∀ {locks locks' : RoomLocks → Prop} {supply : Nat} {e e' : Engine},
    Twins locks locks' supply e e' → (c.get e).Alike e.log.events (c.get e')
  /-- Others that are alike may take its place. -/
  set : ∀ {locks locks' : RoomLocks → Prop} {supply : Nat} {e e' : Engine} {cache cache' : Cache p},
    Twins locks locks' supply e e' → cache.Alike e.log.events cache' →
      Twins locks locks' supply (c.set e cache) (c.set e' cache')

theorem placeCache_paired : placeCache.Paired :=
  ⟨placeCache_proper, Twins.places, fun twins alike =>
    { twins with reliable := { twins.reliable with }, reliable' := { twins.reliable' with },
                 places := alike }⟩

theorem rollCache_paired : rollCache.Paired :=
  ⟨rollCache_proper, Twins.rolls, fun twins alike =>
    { twins with reliable := { twins.reliable with }, reliable' := { twins.reliable' with },
                 rolls := alike }⟩

theorem boostCache_paired : boostCache.Paired :=
  ⟨boostCache_proper, Twins.boosts, fun twins alike =>
    { twins with reliable := { twins.reliable with }, reliable' := { twins.reliable' with },
                 boosts := alike }⟩

theorem roomCache_paired : roomCache.Paired :=
  ⟨roomCache_proper, Twins.rooms, fun twins alike =>
    { twins with reliable := { twins.reliable with }, reliable' := { twins.reliable' with },
                 rooms := alike }⟩

theorem membershipCache_paired : membershipCache.Paired :=
  ⟨membershipCache_proper, Twins.memberships, fun twins alike =>
    { twins with reliable := { twins.reliable with }, reliable' := { twins.reliable' with },
                 memberships := alike }⟩

variable {c : CacheOf p} {scope : Scope} (operation : Operation)

/-- Twins are twins again after reads that leave the slots of the scope alike. -/
theorem Twins.leaves (paired : c.Paired) (twins : Twins locks locks' supply e e')
    {after after' : Engine} {s s' : Slot κ ε} (left : c.Leaves scope e s after)
    (left' : c.Leaves scope e' s' after')
    (alike : p.IsScope scope → s.Alike p (p.eventsIn scope e.log.events) s') :
    Twins locks locks' supply after after' := by
  obtain ⟨cache, log, rfl, same, changed⟩ := left
  obtain ⟨cache', log', rfl, same', changed'⟩ := left'
  refine (paired.set twins ((paired.alike twins).of_slot scope changed changed' alike)).sameLog ?_ ?_
  · rwa [paired.proper.log_set]
  · rwa [paired.proper.log_set]

theorem readLoaded_keepsTwins (paired : c.Paired) (isScope : p.IsScope scope)
    (view : Loaded κ ε → β) :
    (Op.fromStore operation (readLoaded c scope view)).KeepsTwins locks locks' 0 := by
  refine .fromStore fun supply e e' twins => ?_
  have alike := paired.alike twins scope isScope
  obtain ⟨idle, idle'⟩ := (paired.alike twins).not_populating isScope
  obtain ⟨r, after, s, ran, left, outcome⟩ := run_readLoaded paired.proper twins.ungated idle view
  obtain ⟨r', after', s', ran', left', outcome'⟩ :=
    run_readLoaded paired.proper twins.ungated' idle' view
  obtain ⟨rfl, rfl⟩ := outcome.resolve_right fun failed => failed.1 twins.reliable
  obtain ⟨rfl, rfl⟩ := outcome'.resolve_right fun failed => failed.1 twins.reliable'
  rw [twins.events, alike.inFull_eq] at ran'
  rw [twins.events] at left'
  exact ⟨_, after, after', ran, ran', twins.leaves paired left left' fun _ => alike.readInFull⟩

theorem readEntry_keepsTwins [DecidableEq κ] (paired : c.Paired) (isScope : p.IsScope scope)
    (key : κ) : (Op.fromStore operation (readEntry c scope key)).KeepsTwins locks locks' 0 := by
  refine .fromStore fun supply e e' twins => ?_
  have alike := paired.alike twins scope isScope
  obtain ⟨r, after, s, ran, left, outcome⟩ := run_readEntry paired.proper twins.ungated scope key
  obtain ⟨r', after', s', ran', left', outcome'⟩ :=
    run_readEntry paired.proper twins.ungated' scope key
  obtain ⟨rfl, rfl⟩ := outcome.resolve_right fun failed => failed.1 twins.reliable
  obtain ⟨rfl, rfl⟩ := outcome'.resolve_right fun failed => failed.1 twins.reliable'
  rw [twins.events, alike.entry_eq] at ran'
  rw [twins.events] at left'
  exact ⟨_, after, after', ran, ran', twins.leaves paired left left' fun _ =>
    alike.lookedUp paired.proper.cached.replayable key⟩

end Caches

section Reads

variable (room : RoomId) (user : UserId)

theorem placesOf_keepsTwins : (placesOf room).KeepsTwins locks locks' 0 :=
  readLoaded_keepsTwins _ placeCache_paired (isScope_room room).1 _

theorem place?_keepsTwins (place : PlaceId) : (place? room place).KeepsTwins locks locks' 0 :=
  readEntry_keepsTwins _ placeCache_paired (isScope_room room).1 _

theorem rollsOf_keepsTwins : (rollsOf room).KeepsTwins locks locks' 0 :=
  readLoaded_keepsTwins _ rollCache_paired (isScope_room room).2.1 _

theorem boostsOf_keepsTwins : (boostsOf room).KeepsTwins locks locks' 0 :=
  readLoaded_keepsTwins _ boostCache_paired (isScope_room room).2.2.1 _

theorem room?_keepsTwins : (room? room).KeepsTwins locks locks' 0 :=
  readEntry_keepsTwins _ roomCache_paired (isScope_room room).2.2.2 _

theorem membershipsOf_keepsTwins : (membershipsOf user).KeepsTwins locks locks' 0 :=
  (readLoaded_keepsTwins _ membershipCache_paired (isScope_user user)
    Loaded.state).after fun _ => .pure _

/-- An access to the directory. -/
theorem reach_keepsTwins (operation : Operation) (answer : Table UserId User → α) :
    (Op.fromStore operation (Process.suspend (fun _ => true)
      (fun e : Engine => let (r, directory) := e.directory.reach answer; (r, { e with directory }))
      [])).KeepsTwins locks locks' 0 := by
  refine .fromStore fun supply e e' twins => ?_
  obtain ⟨r, ran, outcome⟩ := run_reach e answer
  obtain ⟨r', ran', outcome'⟩ := run_reach e' answer
  obtain rfl := outcome.resolve_right fun failed => failed.1 twins.reliable
  obtain rfl := outcome'.resolve_right fun failed => failed.1 twins.reliable'
  rw [twins.users] at ran'
  exact ⟨_, _, _, ran, ran', { twins with
    reliable := { twins.reliable with }, reliable' := { twins.reliable' with } }⟩

theorem user?_keepsTwins : (user? user).KeepsTwins locks locks' 0 :=
  reach_keepsTwins .getUser fun users => users.get? user

theorem users_keepsTwins : users.KeepsTwins locks locks' 0 := reach_keepsTwins .listUsers id

theorem rules_keepsTwins : (Op.instant fun e => (e.rules, e)).KeepsTwins locks locks' 0 := by
  intro supply e e' twins
  refine ⟨.ok e.rules, e, e', rfl, ?_, twins⟩
  rw [← twins.rules]
  rfl

end Reads

/-! ### Draws, writes and locks -/

theorem drawId_keepsTwins : drawId.KeepsTwins locks locks' 1 := by
  intro supply e e' twins
  refine ⟨.ok e.ids.next.1, { e with ids := e.ids.next.2 }, { e' with ids := e'.ids.next.2 },
    rfl, by rw [← twins.ids]; rfl, ?_⟩
  exact { twins with
    reliable := { twins.reliable with }
    reliable' := { twins.reliable' with }
    ids := by rw [twins.ids]
    fresh := twins.fresh.next }

theorem pick_keepsTwins (weights : Table PlaceId Float) :
    (pick weights).KeepsTwins locks locks' 0 := by
  intro supply e e' twins
  refine ⟨.ok (e.lottery.pick weights).1, { e with lottery := (e.lottery.pick weights).2 },
    { e' with lottery := (e'.lottery.pick weights).2 }, rfl, by rw [← twins.lottery]; rfl, ?_⟩
  exact { twins with
    reliable := { twins.reliable with }
    reliable' := { twins.reliable' with }
    lottery := by rw [twins.lottery] }

theorem tell_keepsTwins (notification : Notification) :
    (tell notification).KeepsTwins locks locks' 0 := by
  intro supply e e' twins
  exact ⟨.ok (), _, _, rfl, rfl, { twins with
    reliable := { twins.reliable with }, reliable' := { twins.reliable' with } }⟩

/-- A view is told and answered. -/
theorem told_keepsTwins (notification : Notification) (view : β) :
    (tell notification >>= fun _ => (pure view : Op β)).KeepsTwins locks locks' 0 :=
  (tell_keepsTwins notification).after fun _ => .pure view

/-- Twins that have written the same event are twins again. -/
theorem Twins.wrote (twins : Twins locks locks' (supply + 1) e e') {event : Event}
    (drawn : event.id.id = e.ids.next.1) :
    Twins locks locks' supply (e.wrote event) (e'.wrote event) := by
  have distinct := twins.fresh.distinct_append twins.distinct drawn
  exact {
    events := congrArg (· ++ [event]) twins.events
    ungated := twins.ungated
    ungated' := twins.ungated'
    users := twins.users
    rules := twins.rules
    locks := twins.locks
    locks' := twins.locks'
    reliable := { twins.reliable with }
    reliable' := { twins.reliable' with }
    ids := congrArg (fun ids => (IdSupply.next ids).2) twins.ids
    lottery := twins.lottery
    distinct
    fresh := twins.fresh.append drawn
    places := twins.places.observe .places distinct
    rolls := twins.rolls.observe .rolls distinct
    boosts := twins.boosts.observe .boosts distinct
    rooms := twins.rooms.observe .rooms distinct
    memberships := twins.memberships.observe .memberships distinct }

theorem write_keepsTwins {kind : EventKind} {actor : UserId} {room : RoomId} {time : Instant}
    {place : Option PlaceId} {payload : String} {rest : Event → Op β}
    (keeps : ∀ event, (rest event).KeepsTwins locks locks' 0) :
    (newEvent kind actor room time place payload >>= fun event =>
      store event >>= fun _ => rest event).KeepsTwins locks locks' 1 := by
  intro supply e e' twins
  have runs := (run_write e kind actor room time place payload rest).resolve_right
    fun failed => failed.1 twins.reliable
  have runs' := (run_write e' kind actor room time place payload rest).resolve_right
    fun failed => failed.1 twins.reliable'
  rw [twins.ids] at runs'
  let event : Event := ⟨⟨e.ids.next.1⟩, actor, room, kind, time, place, payload⟩
  have again : Twins locks locks' supply (e.wrote event) (e'.wrote event) := twins.wrote rfl
  obtain ⟨r, after, after', ran, ran', twins'⟩ := keeps event supply _ _ again
  exact ⟨r, after, after', runs.trans ran, runs'.trans ran', twins'⟩

/-- Twins that hold no lock take the lock of a room and let go of it. -/
theorem withRoom_keepsTwins {room : RoomId} {body : Op α}
    (keeps : ∀ locks locks', body.KeepsTwins locks locks' n) :
    (withRoom room body).KeepsTwins AllFree AllFree n := by
  intro supply e e' twins
  let taken := (e.locks.register room).2.acquire (e.locks.register room).1
  let taken' := (e'.locks.register room).2.acquire (e'.locks.register room).1
  obtain ⟨r, after, after', ran, ran', again⟩ :=
    keeps (· = taken) (· = taken') supply { e with locks := taken } { e' with locks := taken' }
      { twins with
        locks := rfl
        locks' := rfl
        reliable := { twins.reliable with }
        reliable' := { twins.reliable' with } }
  obtain ⟨left, ends, free⟩ := withRoom_ends twins.locks ran again.locks
  obtain ⟨left', ends', free'⟩ := withRoom_ends twins.locks' ran' again.locks'
  exact ⟨r, { after with locks := left }, { after' with locks := left' }, ends, ends',
    { again with
      locks := free
      locks' := free'
      reliable := { again.reliable with }
      reliable' := { again.reliable' with } }⟩

/-! ### Commands -/

section Commands

variable (user : UserId) (id : RoomId) (now : Instant)

theorem checkName_keepsTwins (subject : Subject) (name : String) :
    (checkName subject name).KeepsTwins locks locks' 0 := by
  simp only [checkName]
  split
  · exact .throw _
  · exact .pure _

theorem existingRoom_keepsTwins : (existingRoom id).KeepsTwins locks locks' 0 := by
  refine (room?_keepsTwins id).after fun found => ?_
  cases found with
  | none => exact .throw _
  | some room => exact .pure room

theorem room_keepsTwins : (room id).KeepsTwins locks locks' 0 :=
  (existingRoom_keepsTwins id).after fun _ => users_keepsTwins.after fun _ => .pure _

theorem createRoom_keepsTwins (name : String) :
    (createRoom user name now).KeepsTwins locks locks' 2 :=
  (checkName_keepsTwins .room name).after fun _ => drawId_keepsTwins.bind fun _ =>
    write_keepsTwins fun _ => (room_keepsTwins _).after fun view =>
      told_keepsTwins (.roomCreated view) view

theorem changeMembership_keepsTwins (kind : EventKind) :
    (changeMembership kind user id now).KeepsTwins locks locks' 1 :=
  (existingRoom_keepsTwins id).after fun _ =>
    write_keepsTwins fun _ => (room_keepsTwins id).after fun view =>
      told_keepsTwins (.roomUpdated view) view

theorem viewsOf_keepsTwins (users : Table UserId User) (memberships : List Membership) :
    (viewsOf users memberships).KeepsTwins locks locks' 0 := by
  induction memberships with
  | nil => exact .pure []
  | cons m rest ih =>
    refine (room?_keepsTwins m.room).after fun found => ?_
    cases found with
    | none => exact ih
    | some r => exact ih.after fun _ => .pure _

theorem listRooms_keepsTwins : (listRooms user).KeepsTwins locks locks' 0 := by
  refine (membershipsOf_keepsTwins user).after fun memberships => ?_
  split
  · exact .pure []
  · exact users_keepsTwins.after fun users => viewsOf_keepsTwins users memberships

theorem livePlaces_keepsTwins : (livePlaces id).KeepsTwins locks locks' 0 :=
  (placesOf_keepsTwins id).after fun _ => .pure _

theorem history_keepsTwins : (history id now).KeepsTwins locks locks' 0 :=
  (rollsOf_keepsTwins id).after fun _ => (boostsOf_keepsTwins id).after fun _ =>
    rules_keepsTwins.after fun _ => .pure _

theorem placeView_keepsTwins (place : PlaceId) :
    (placeView id place now).KeepsTwins locks locks' 0 := by
  refine (place?_keepsTwins id place).after fun found => ?_
  cases found with
  | none => exact .throw _
  | some found =>
    have shown (chance : Float) :
        (user? found.creator >>= fun user => (pure { place := found, user, chance } :
          Op PlaceView)).KeepsTwins locks locks' 0 :=
      (user?_keepsTwins found.creator).after fun _ => .pure _
    dsimp only
    split
    · exact (Op.KeepsTwins.pure _).after shown
    · exact (livePlaces_keepsTwins id).after fun places => (history_keepsTwins id now).after
        fun h => (Op.KeepsTwins.pure _).after shown

theorem createPlace_keepsTwins (name : String) :
    (createPlace user id name now).KeepsTwins locks locks' 2 :=
  (checkName_keepsTwins .place name).after fun _ => (existingRoom_keepsTwins id).after fun _ =>
    drawId_keepsTwins.bind fun _ => write_keepsTwins fun _ =>
      (placeView_keepsTwins id now _).after fun view => told_keepsTwins (.placeCreated view) view

theorem togglePlace_keepsTwins (kind : EventKind) (place : PlaceId) :
    (togglePlace kind user id place now).KeepsTwins locks locks' 1 := by
  have toggled : (newEvent kind user id now (some place) "" >>= fun event =>
      store event >>= fun _ => placeView id place now >>= fun view =>
        tell (.placeUpdated view) >>= fun _ => (pure view : Op PlaceView)).KeepsTwins locks locks' 1 :=
    write_keepsTwins fun _ => (placeView_keepsTwins id now place).after fun view =>
      told_keepsTwins (.placeUpdated view) view
  refine (place?_keepsTwins id place).after fun found => ?_
  dsimp only
  split
  · exact (Op.KeepsTwins.throw _).after fun _ => toggled
  · exact toggled

theorem listPlaces_keepsTwins : (listPlaces id now).KeepsTwins locks locks' 0 := by
  refine (livePlaces_keepsTwins id).after fun places => ?_
  split
  · exact .pure []
  · exact (history_keepsTwins id now).after fun _ => users_keepsTwins.after fun _ => .pure _

theorem boost_keepsTwins (place : PlaceId) :
    (boost user id place now).KeepsTwins AllFree AllFree 1 := by
  refine (user?_keepsTwins user).after fun record => Op.KeepsTwins.before
    (withRoom_keepsTwins fun locks locks' => ?_) fun ⟨event, found⟩ => told_keepsTwins _ _
  refine (place?_keepsTwins id place).after fun found => ?_
  split
  · exact (Op.KeepsTwins.throw _).le (Nat.zero_le 1)
  · refine (history_keepsTwins id now).after fun h => ?_
    dsimp only
    split
    · exact (Op.KeepsTwins.throw _).after fun _ => write_keepsTwins fun _ => .pure _
    · exact write_keepsTwins fun _ => .pure _

theorem roll_keepsTwins : (roll user id now).KeepsTwins AllFree AllFree 1 := by
  refine (user?_keepsTwins user).after fun record => Op.KeepsTwins.before
    (withRoom_keepsTwins fun locks locks' => ?_) fun ⟨event, picked, places⟩ => told_keepsTwins _ _
  refine (livePlaces_keepsTwins id).after fun places => .refusing ?_
  refine (history_keepsTwins id now).after fun h => .refusing ?_
  refine (pick_keepsTwins _).after fun picked => ?_
  cases picked with
  | none => exact (Op.KeepsTwins.throw _).le (Nat.zero_le 1)
  | some picked => exact write_keepsTwins fun _ => .pure _

theorem listRolls_keepsTwins : (listRolls id).KeepsTwins locks locks' 0 := by
  refine (rollsOf_keepsTwins id).after fun rolls => ?_
  split
  · exact .pure []
  · exact (placesOf_keepsTwins id).after fun _ => users_keepsTwins.after fun _ => .pure _

theorem listBoosts_keepsTwins : (listBoosts id).KeepsTwins locks locks' 0 := by
  refine (boostsOf_keepsTwins id).after fun boosts => ?_
  split
  · exact .pure []
  · exact (placesOf_keepsTwins id).after fun _ => users_keepsTwins.after fun _ => .pure _

end Commands

/-- Twins give the same answer to any command. -/
theorem Command.keepsTwins (c : Command) : c.perform.KeepsTwins AllFree AllFree 2 := by
  have replies {α : Type} {op : Op α} {n : Nat} (keeps : op.KeepsTwins AllFree AllFree n)
      (le : n ≤ 2) (reply : α → Reply) :
      (op >>= fun a => (pure (reply a) : Op Reply)).KeepsTwins AllFree AllFree 2 :=
    (keeps.le le).before fun _ => .pure _
  cases c with
  | createRoom user name now => exact replies (createRoom_keepsTwins user now name) le_rfl .room
  | joinRoom user id now =>
    exact replies (changeMembership_keepsTwins user id now _) (by decide) .room
  | leaveRoom user id now =>
    exact replies (changeMembership_keepsTwins user id now _) (by decide) .room
  | room id => exact replies (room_keepsTwins id) (by decide) .room
  | listRooms user => exact replies (listRooms_keepsTwins user) (by decide) .rooms
  | createPlace user id name now =>
    exact replies (createPlace_keepsTwins user id now name) le_rfl .place
  | deletePlace user id place now =>
    exact replies (togglePlace_keepsTwins user id now _ place) (by decide) .place
  | restorePlace user id place now =>
    exact replies (togglePlace_keepsTwins user id now _ place) (by decide) .place
  | listPlaces id now => exact replies (listPlaces_keepsTwins id now) (by decide) .places
  | boost user id place now => exact replies (boost_keepsTwins user id now place) (by decide) .boost
  | roll user id now => exact replies (roll_keepsTwins user id now) (by decide) .roll
  | listRolls id => exact replies (listRolls_keepsTwins id) (by decide) .rolls
  | listBoosts id => exact replies (listBoosts_keepsTwins id) (by decide) .boosts

/-- Twins are twins still after any commands. -/
theorem Twins.runAll (commands : List Command)
    (twins : Twins AllFree AllFree (supply + 2 * commands.length) e e') :
    Twins AllFree AllFree supply (Engine.runAll commands e) (Engine.runAll commands e') := by
  induction commands generalizing e e' with
  | nil => exact twins
  | cons c rest ih =>
    obtain ⟨r, after, after', ran, ran', again⟩ :=
      c.keepsTwins (supply + 2 * rest.length) e e' (by
        rwa [List.length_cons, Nat.mul_succ, ← Nat.add_assoc] at twins)
    rw [Engine.runAll, Engine.runAll, List.foldl_cons, List.foldl_cons, ran, ran']
    exact ih again

/-- Twins give the same answer after any commands. -/
theorem Twins.answer_eq (commands : List Command) (c : Command)
    (twins : Twins AllFree AllFree (supply + 2 + 2 * commands.length) e e') :
    ∃ r, (c.perform.run (Engine.runAll commands e)).1 = some r ∧
      (c.perform.run (Engine.runAll commands e')).1 = some r := by
  obtain ⟨r, _, _, ran, ran', -⟩ := c.keepsTwins supply _ _ (twins.runAll commands)
  exact ⟨r, by rw [ran], by rw [ran']⟩

end Engine

end NoonDraw
