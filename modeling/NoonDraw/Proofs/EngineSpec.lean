import NoonDraw.Engine.Reads
import NoonDraw.Proofs.CacheInvariant

/-!
# What calls of an engine ensure

A `World` is all that the answers of an engine may depend on: the events in the log, the users in the
directory, the rules.  `Engine.Serves` says that an engine works on a world: what it caches agrees
with the log, and the identifiers it will draw are new.

`Op.Ensures` is the specification of a call that has the engine to itself.  It comes to its end, the
engine goes on to serve the world, but for events that were written, and the outcome is as stated
unless a store failed.  The reads of the engine ensure what the log says, whatever is cached, and a
write ensures that its event is in the log and in every cache.
-/

namespace NoonDraw

/-- The next `count` identifiers that a supply draws differ from each other and from those of some
events. -/
structure IdSupply.FreshFor (ids : IdSupply) (events : List Event) (count : Nat) : Prop where
  /-- No identifier is drawn twice. -/
  once : ∀ i < count, ∀ j < count, ids.draw (ids.drawn + 1 + i) = ids.draw (ids.drawn + 1 + j) → i = j
  /-- No identifier is that of an event. -/
  new : ∀ i < count, ∀ e ∈ events, e.id.id ≠ ids.draw (ids.drawn + 1 + i)

namespace IdSupply.FreshFor

variable {ids : IdSupply} {events : List Event} {count : Nat}

theorem le {fewer : Nat} (fresh : ids.FreshFor events count) (le : fewer ≤ count) :
    ids.FreshFor events fewer where
  once i hi j hj := fresh.once i (hi.trans_le le) j (hj.trans_le le)
  new i hi := fresh.new i (hi.trans_le le)

/-- The numbers of the draws that follow the next one. -/
theorem draw_next (i : Nat) :
    ids.next.2.draw (ids.next.2.drawn + 1 + i) = ids.draw (ids.drawn + 1 + (i + 1)) :=
  congrArg ids.draw (by simp only [IdSupply.next]; omega)

theorem next (fresh : ids.FreshFor events (count + 1)) : ids.next.2.FreshFor events count where
  once i hi j hj same := by
    rw [draw_next, draw_next] at same
    exact Nat.succ.inj (fresh.once (i + 1) (by omega) (j + 1) (by omega) same)
  new i hi e he := by
    rw [draw_next]
    exact fresh.new (i + 1) (by omega) e he

/-- Once an event has the identifier drawn, the supply is fresh for that event too. -/
theorem append (fresh : ids.FreshFor events (count + 1)) {e : Event} (drawn : e.id.id = ids.next.1) :
    ids.next.2.FreshFor (events ++ [e]) count where
  once := fresh.next.once
  new i hi a ha := by
    rcases List.mem_append.1 ha with old | last
    · exact fresh.next.new i hi a old
    · rw [List.mem_singleton.1 last, drawn, draw_next]
      intro same
      exact absurd (fresh.once 0 (by omega) (i + 1) (by omega) same) (by omega)

/-- An event that has the identifier drawn is told apart from all others. -/
theorem distinct_append (fresh : ids.FreshFor events (count + 1))
    (distinct : (Loaded.ids events).Nodup) {e : Event} (drawn : e.id.id = ids.next.1) :
    (Loaded.ids (events ++ [e])).Nodup := by
  rw [Loaded.ids, List.map_append]
  refine List.nodup_append.2 ⟨distinct, by simp, ?_⟩
  intro known isKnown last isLast same
  obtain ⟨a, ha, rfl⟩ := List.mem_map.1 isKnown
  obtain rfl : last = e.id := by simpa using isLast
  exact fresh.new 0 (Nat.succ_pos count) a ha (by rw [same, drawn]; rfl)

end IdSupply.FreshFor

/-- Everything that the answers of an engine may depend on. -/
structure World where
  /-- The events in the log. -/
  events : List Event
  /-- The users in the directory. -/
  users : Table UserId User
  /-- The rules of the draw. -/
  rules : Rules Float
  /-- What is known of the locks. -/
  locks : RoomLocks → Prop

/-- What the events of a world add up to in a scope. -/
def World.state {κ ε : Type} [Key κ] (w : World) (p : Projection κ ε) (scope : Scope) : Table κ ε :=
  p.materialize (p.eventsIn scope w.events)

namespace Engine

/-- An engine that works on a world, and that may draw so many identifiers yet. -/
structure Serves (w : World) (supply : Nat) (e : Engine) : Prop where
  /-- The log has the events. -/
  events : e.log.events = w.events
  /-- Reads of the log are not held. -/
  ungated : e.log.gated = false
  /-- The directory has the users. -/
  users : e.directory.users = w.users
  /-- The rules are in force. -/
  rules : e.rules = w.rules
  /-- The locks are as they should be. -/
  locks : w.locks e.locks
  /-- No identifier occurs twice. -/
  distinct : (Loaded.ids w.events).Nodup
  /-- Nor will one that is drawn. -/
  fresh : e.ids.FreshFor w.events supply
  /-- The cache of places agrees with the log. -/
  places : e.places.Agrees w.events
  /-- So does that of rolls. -/
  rolls : e.rolls.Agrees w.events
  /-- So does that of boosts. -/
  boosts : e.boosts.Agrees w.events
  /-- So does that of rooms. -/
  rooms : e.rooms.Agrees w.events
  /-- So does that of memberships. -/
  memberships : e.memberships.Agrees w.events

/-- An engine whose stores do not fail. -/
structure Reliable (e : Engine) : Prop where
  /-- Appends succeed. -/
  append : ∀ n, e.log.outages.append n = none
  /-- Reads succeed. -/
  read : ∀ n, e.log.outages.read n = none
  /-- The directory answers. -/
  directory : ∀ n, e.directory.outages n = none

/-- A log that differs in nothing but how often it has been accessed. -/
structure SameLog (log log' : EventLog) : Prop where
  /-- The events are the same. -/
  events : log'.events = log.events
  /-- The gate stands as it did. -/
  gated : log'.gated = log.gated
  /-- Accesses meet the same. -/
  outages : log'.outages = log.outages

theorem sameLog_beginRead (log : EventLog) (scope : Scope) (kinds : List EventKind) :
    SameLog log (log.beginRead scope kinds).2 := by
  simp only [EventLog.beginRead]
  split <;> exact ⟨rfl, rfl, rfl⟩

theorem sameLog_endRead (log : EventLog) (read : OpenRead) : SameLog log (log.endRead read).2 := by
  simp only [EventLog.endRead]
  split <;> exact ⟨rfl, rfl, rfl⟩

variable {w : World} {supply : Nat} {e : Engine}

theorem Serves.sameLog (serves : e.Serves w supply) {log : EventLog} (same : SameLog e.log log) :
    Serves w supply { e with log } :=
  { serves with
    events := same.events.trans serves.events
    ungated := same.gated.trans serves.ungated }

theorem Reliable.sameLog (reliable : e.Reliable) {log : EventLog} (same : SameLog e.log log) :
    Reliable { e with log } where
  append n := by rw [same.outages]; exact reliable.append n
  read n := by rw [same.outages]; exact reliable.read n
  directory := reliable.directory

/-- An engine whose stores do not fail any more. -/
def recovered (e : Engine) : Engine :=
  { e with
    log := { e.log with outages := .none }
    directory := { e.directory with outages := fun _ => none } }

theorem recovered_reliable (e : Engine) : e.recovered.Reliable :=
  ⟨fun _ => rfl, fun _ => rfl, fun _ => rfl⟩

theorem Serves.recovered (serves : e.Serves w supply) : e.recovered.Serves w supply :=
  { serves with }

/-! ### Caches as parts of the engine -/

section Caches

variable {κ ε β : Type} [Key κ] {p : Projection κ ε}

/-- A cache of the engine: a part of its state that may be changed by itself. -/
structure CacheOf.Proper (c : CacheOf p) : Prop where
  /-- It is a cache of one of the projections. -/
  cached : p.IsCached
  /-- It agrees with the log. -/
  agrees : ∀ {w : World} {supply : Nat} {e : Engine}, e.Serves w supply →
    (c.get e).Agrees w.events
  /-- Another one that agrees may take its place. -/
  serves_set : ∀ {w : World} {supply : Nat} {e : Engine} {cache : Cache p}, e.Serves w supply →
    cache.Agrees w.events → (c.set e cache).Serves w supply
  /-- What is put in its place is there. -/
  get_set : ∀ e cache, c.get (c.set e cache) = cache
  /-- Put in its own place it changes nothing. -/
  set_get : ∀ e, c.set e (c.get e) = e
  /-- What is put in its place last counts. -/
  set_set : ∀ e cache cache', c.set (c.set e cache) cache' = c.set e cache'
  /-- It has nothing to do with the log. -/
  get_log : ∀ (e : Engine) log, c.get { e with log } = c.get e
  /-- It has nothing to do with the log. -/
  set_log : ∀ (e : Engine) log cache, c.set { e with log } cache = { c.set e cache with log }
  /-- It has nothing to do with the log. -/
  log_set : ∀ e cache, (c.set e cache).log = e.log
  /-- It has nothing to do with the directory. -/
  directory_set : ∀ e cache, (c.set e cache).directory = e.directory

theorem placeCache_proper : placeCache.Proper :=
  ⟨.places, Serves.places, fun serves agrees => { serves with places := agrees },
    fun _ _ => rfl, fun _ => rfl, fun _ _ _ => rfl, fun _ _ => rfl, fun _ _ _ => rfl, fun _ _ => rfl,
    fun _ _ => rfl⟩

theorem rollCache_proper : rollCache.Proper :=
  ⟨.rolls, Serves.rolls, fun serves agrees => { serves with rolls := agrees },
    fun _ _ => rfl, fun _ => rfl, fun _ _ _ => rfl, fun _ _ => rfl, fun _ _ _ => rfl, fun _ _ => rfl,
    fun _ _ => rfl⟩

theorem boostCache_proper : boostCache.Proper :=
  ⟨.boosts, Serves.boosts, fun serves agrees => { serves with boosts := agrees },
    fun _ _ => rfl, fun _ => rfl, fun _ _ _ => rfl, fun _ _ => rfl, fun _ _ _ => rfl, fun _ _ => rfl,
    fun _ _ => rfl⟩

theorem roomCache_proper : roomCache.Proper :=
  ⟨.rooms, Serves.rooms, fun serves agrees => { serves with rooms := agrees },
    fun _ _ => rfl, fun _ => rfl, fun _ _ _ => rfl, fun _ _ => rfl, fun _ _ _ => rfl, fun _ _ => rfl,
    fun _ _ => rfl⟩

theorem membershipCache_proper : membershipCache.Proper :=
  ⟨.memberships, Serves.memberships, fun serves agrees => { serves with memberships := agrees },
    fun _ _ => rfl, fun _ => rfl, fun _ _ _ => rfl, fun _ _ => rfl, fun _ _ _ => rfl, fun _ _ => rfl,
    fun _ _ => rfl⟩

theorem CacheOf.Proper.reliable_set {c : CacheOf p} (proper : c.Proper) (reliable : e.Reliable)
    (cache : Cache p) : (c.set e cache).Reliable where
  append n := by rw [proper.log_set]; exact reliable.append n
  read n := by rw [proper.log_set]; exact reliable.read n
  directory n := by rw [proper.directory_set]; exact reliable.directory n

/-- A cache is changed, the log is accessed, and the cache is changed again. -/
theorem CacheOf.Proper.modify_modify {c : CacheOf p} (proper : c.Proper) (e : Engine)
    (log : EventLog) (f g : Cache p → Cache p) :
    c.modify g { c.modify f e with log } = { c.set e (g (f (c.get e))) with log } := by
  have found : c.get { c.modify f e with log } = f (c.get e) :=
    (proper.get_log _ log).trans (proper.get_set e _)
  calc c.modify g { c.modify f e with log }
      = c.set { c.modify f e with log } (g (f (c.get e))) := congrArg (fun x => c.set _ (g x)) found
    _ = { c.set (c.modify f e) (g (f (c.get e))) with log } := proper.set_log _ log _
    _ = { c.set e (g (f (c.get e))) with log } :=
      congrArg (fun e : Engine => { e with log }) (proper.set_set e _ _)

/-! ### Reads of the log -/

/-- What is known of engines while some events are read through one of their caches. -/
structure CacheOf.ReadUnder (c : CacheOf p) (events : List Event) (known : Engine → Prop) : Prop where
  /-- The log has the events. -/
  logged : ∀ {e : Engine}, known e → e.log.events = events
  /-- Reads of the log are not held. -/
  ungated : ∀ {e : Engine}, known e → e.log.gated = false
  /-- The cache agrees with the log. -/
  agrees : ∀ {e : Engine}, known e → (c.get e).Agrees events
  /-- Another one that agrees may take its place. -/
  set : ∀ {e : Engine} {cache : Cache p}, known e → cache.Agrees events → known (c.set e cache)
  /-- How often the log has been accessed does not matter. -/
  sameLog : ∀ {e : Engine} {log : EventLog}, known e → SameLog e.log log → known { e with log }

theorem CacheOf.Proper.serves {c : CacheOf p} (proper : c.Proper) (w : World) (supply : Nat) :
    c.ReadUnder w.events (Serves w supply) :=
  ⟨Serves.events, Serves.ungated, proper.agrees, proper.serves_set,
    fun serves same => serves.sameLog same⟩

/-- A process that answers from a world, unless a store fails. -/
def Answers (w : World) (process : Process Engine (Except StoreError β)) (answer : β) : Prop :=
  ∀ supply (e : Engine), e.Serves w supply → ∃ r e', process.run e = (some r, e') ∧
    e'.Serves w supply ∧ (e.Reliable → e'.Reliable) ∧
    (r = .ok answer ∨ ¬ e.Reliable ∧ ∃ cause, r = .error cause)

/-- A read of the log by a process that has the engine to itself. -/
theorem run_readLog (e : Engine) (ungated : e.log.gated = false) (scope : Scope)
    (kinds : List EventKind) (drop : List (Engine → Engine)) :
    ∃ r log, (readLog scope kinds drop).run e = (some r, { e with log }) ∧ SameLog e.log log ∧
      (r = .ok (EventLog.select e.log.events scope kinds) ∨
        ¬ e.Reliable ∧ ∃ cause, r = .error cause) := by
  rw [readLog, Process.run_bind, Process.run_suspend, if_pos rfl]
  cases first : e.log.outages.read e.log.accesses with
  | some cause =>
    simp only [EventLog.beginRead, first]
    refine ⟨_, _, rfl, ⟨rfl, rfl, rfl⟩, Or.inr ⟨fun reliable => ?_, cause, rfl⟩⟩
    simp [reliable.read] at first
  | none =>
    simp only [EventLog.beginRead, first, ungated, Bool.false_eq_true, if_false,
      Process.run_suspend, EventLog.isFree, if_true, EventLog.endRead]
    cases second : e.log.outages.read (e.log.accesses + 1) with
    | some cause =>
      refine ⟨_, _, rfl, ⟨rfl, ungated.symm, rfl⟩, Or.inr ⟨fun reliable => ?_, cause, rfl⟩⟩
      simp [reliable.read] at second
    | none => exact ⟨_, _, rfl, ⟨rfl, ungated.symm, rfl⟩, Or.inl rfl⟩

/-! ### Reads through a cache -/

section

variable {c : CacheOf p} {scope : Scope}

/-- Reading off a scope that is loaded answers what is loaded. -/
theorem run_readLoaded_ready {l : Loaded κ ε} (loaded : (c.get e).loaded? scope = some l)
    (view : Loaded κ ε → β) :
    (readLoaded c scope view).run e = (some (.ok (view l)), e) := by
  have idle : (c.get e).isPopulating scope = false := by
    rw [Cache.isPopulating_eq_false, Cache.loaded?_eq_some.1 loaded]
    simp
  rw [readLoaded, Process.run_bind, Process.run_suspend, if_pos (by simp [idle]), loaded]
  rfl

/-- Reading off a scope that is cold loads it with what the log has, unless the log cannot be read. -/
theorem run_readLoaded_cold (proper : c.Proper) (ungated : e.log.gated = false)
    (unloaded : (c.get e).loaded? scope = none) (idle : (c.get e).isPopulating scope = false)
    (view : Loaded κ ε → β) :
    ∃ log, SameLog e.log log ∧
      ((readLoaded c scope view).run e =
        (some (.ok (view (.ofEvents p (p.eventsIn scope e.log.events)))),
          { c.set e (((c.get e).claim scope).install scope (p.eventsIn scope e.log.events)) with log })
      ∨ ¬ e.Reliable ∧ ∃ cause, (readLoaded c scope view).run e =
        (some (.error cause), { c.set e (((c.get e).claim scope).abandon scope) with log })) := by
  rw [readLoaded, Process.run_bind, Process.run_suspend, if_pos (by simp [idle]), unloaded]
  obtain ⟨r, log, ran, same, answer⟩ := run_readLog (c.modify (·.claim scope) e)
    (by rw [CacheOf.modify, proper.log_set]; exact ungated) scope p.kinds
    [c.modify (·.abandon scope)]
  simp only [Process.run_bind, ran]
  refine ⟨log, by rwa [CacheOf.modify, proper.log_set] at same, ?_⟩
  rcases answer with rfl | ⟨unreliable, cause, rfl⟩
  · have read : EventLog.select (c.modify (·.claim scope) e).log.events scope p.kinds =
        p.eventsIn scope e.log.events := by
      rw [CacheOf.modify, proper.log_set]
      rfl
    have ready : (((c.get e).claim scope).install scope (p.eventsIn scope e.log.events)).loaded?
        scope = some (.ofEvents p (p.eventsIn scope e.log.events)) := by
      rw [Cache.loaded?_eq_some, Cache.slot_install, if_pos rfl, Cache.slot_claim, if_pos rfl]
      exact Slot.agrees_load (s := (c.get e).slot scope) _ |>.2
    simp only [read, Process.run_instant, proper.modify_modify, proper.get_log, proper.get_set,
      ready, Option.getD_some]
    exact .inl trivial
  · simp only [Process.run_bind, Process.run_steps, Process.applyAll, List.foldl_cons,
      List.foldl_nil, proper.modify_modify, Process.run_pure]
    exact .inr ⟨fun reliable => unreliable (proper.reliable_set reliable _), cause, rfl⟩

/-- A look-up of what is cached answers that. -/
theorem run_readEntry_cached {key : κ} {entry : Option ε}
    (cached : (c.get e).lookup scope key = some entry) :
    (readEntry c scope key).run e = (some (.ok entry), e) := by
  rw [readEntry, Process.run_bind, Process.run_instant, cached]
  rfl

/-- A look-up of what is not cached asks the log, and keeps what it finds. -/
theorem run_readEntry_missing (proper : c.Proper) (ungated : e.log.gated = false) {key : κ}
    (missing : (c.get e).lookup scope key = none) :
    ∃ log, SameLog e.log log ∧
      ((readEntry c scope key).run e =
        (some (.ok ((p.materialize (p.eventsIn scope e.log.events)).get? key)),
          { c.set e ((c.get e).miss.record scope key ((c.get e).generation scope)
              (p.eventsIn scope e.log.events)) with log })
      ∨ ¬ e.Reliable ∧ ∃ cause, (readEntry c scope key).run e =
        (some (.error cause), { c.set e (c.get e).miss with log })) := by
  rw [readEntry, Process.run_bind, Process.run_instant, missing]
  obtain ⟨r, log, ran, same, answer⟩ := run_readLog (c.modify Cache.miss e)
    (by rw [CacheOf.modify, proper.log_set]; exact ungated) scope p.kinds []
  simp only [Process.run_bind, ran]
  refine ⟨log, by rwa [CacheOf.modify, proper.log_set] at same, ?_⟩
  rcases answer with rfl | ⟨unreliable, cause, rfl⟩
  · have read : EventLog.select (c.modify Cache.miss e).log.events scope p.kinds =
        p.eventsIn scope e.log.events := by
      rw [CacheOf.modify, proper.log_set]
      rfl
    simp only [read, Process.run_instant, proper.modify_modify]
    exact .inl rfl
  · exact .inr ⟨fun reliable => unreliable (proper.reliable_set reliable _), cause, rfl⟩

end

variable [DecidableEq κ]

section

variable {c : CacheOf p} {events : List Event} {known : Engine → Prop} {scope : Scope}
  (proper : c.Proper) (isScope : p.IsScope scope) (under : c.ReadUnder events known)
include proper isScope under

omit [DecidableEq κ] isScope in
/-- What a read leaves: the cache agrees, and the log has been accessed. -/
theorem CacheOf.ReadUnder.left (holds : known e) {log : EventLog} (same : SameLog e.log log)
    {cache : Cache p} (agrees : cache.Agrees events) :
    known { c.set e cache with log } ∧ (e.Reliable → Reliable { c.set e cache with log }) :=
  ⟨under.sameLog (under.set holds agrees) (by rwa [proper.log_set]),
    fun reliable => (proper.reliable_set reliable cache).sameLog (by rwa [proper.log_set])⟩

omit [DecidableEq κ] in
/-- Reading off a scope answers what the log says of it, whether it is loaded or not. -/
theorem readLoaded_under (view : Loaded κ ε → β) (holds : known e) :
    ∃ r e', (readLoaded c scope view).run e = (some r, e') ∧ known e' ∧ (e.Reliable → e'.Reliable) ∧
      (r = .ok (view (.ofEvents p (p.eventsIn scope events))) ∨
        ¬ e.Reliable ∧ ∃ cause, r = .error cause) := by
  have agrees := under.agrees holds
  have idle := agrees.not_populating isScope
  cases loaded : (c.get e).loaded? scope with
  | some l =>
    refine ⟨_, _, run_readLoaded_ready loaded view, holds, id, Or.inl ?_⟩
    rw [agrees.loaded?_eq isScope loaded]
  | none =>
    obtain ⟨log, same, outcome⟩ :=
      run_readLoaded_cold proper (under.ungated holds) loaded idle view
    rw [under.logged holds] at outcome
    rcases outcome with ran | ⟨unreliable, cause, ran⟩
    · obtain ⟨knows, reliable⟩ := under.left proper holds same (agrees.load scope).1
      exact ⟨_, _, ran, knows, reliable, Or.inl rfl⟩
    · obtain ⟨knows, reliable⟩ := under.left proper holds same (agrees.giveUp loaded idle)
      exact ⟨_, _, ran, knows, reliable, Or.inr ⟨unreliable, cause, rfl⟩⟩

/-- A look-up answers what the log says of its key, whether that is cached or not. -/
theorem readEntry_under (key : κ) (holds : known e) :
    ∃ r e', (readEntry c scope key).run e = (some r, e') ∧ known e' ∧ (e.Reliable → e'.Reliable) ∧
      (r = .ok ((p.materialize (p.eventsIn scope events)).get? key) ∨
        ¬ e.Reliable ∧ ∃ cause, r = .error cause) := by
  have agrees := under.agrees holds
  cases found : (c.get e).lookup scope key with
  | some entry =>
    refine ⟨_, _, run_readEntry_cached found, holds, id, Or.inl ?_⟩
    rw [agrees.lookup_eq isScope found]
  | none =>
    obtain ⟨log, same, outcome⟩ := run_readEntry_missing proper (under.ungated holds) found
    rw [under.logged holds] at outcome
    rcases outcome with ran | ⟨unreliable, cause, ran⟩
    · obtain ⟨knows, reliable⟩ := under.left proper holds same (agrees.miss.record
        proper.cached.replayable scope key ((c.get e).generation scope))
      exact ⟨_, _, ran, knows, reliable, Or.inl rfl⟩
    · obtain ⟨knows, reliable⟩ := under.left proper holds same agrees.miss
      exact ⟨_, _, ran, knows, reliable, Or.inr ⟨unreliable, cause, rfl⟩⟩

end

omit [DecidableEq κ] in
theorem readLoaded_answers {c : CacheOf p} (proper : c.Proper) {scope : Scope}
    (isScope : p.IsScope scope) (view : Loaded κ ε → β) :
    Answers w (readLoaded c scope view) (view (.ofEvents p (p.eventsIn scope w.events))) :=
  fun supply _ serves => readLoaded_under proper isScope (proper.serves w supply) view serves

theorem readEntry_answers {c : CacheOf p} (proper : c.Proper) {scope : Scope}
    (isScope : p.IsScope scope) (key : κ) :
    Answers w (readEntry c scope key) ((p.materialize (p.eventsIn scope w.events)).get? key) :=
  fun supply _ serves => readEntry_under proper isScope (proper.serves w supply) key serves

end Caches

/-! ### Calls -/

namespace Op

variable {α β : Type}

/-- A call after another, unless that one failed. -/
theorem run_bind (op : Op α) (g : α → Op β) (e : Engine) :
    run (op >>= g) e =
      match run op e with
      | (some (.ok a), e) => run (g a) e
      | (some (.error f), e) => (some (.error f), e)
      | (none, e) => (none, e) := by
  show Process.run (ExceptT.run op >>= fun r => _) e = _
  rw [Process.run_bind, run]
  rcases Process.run (ExceptT.run op) e with ⟨_ | f | a, e⟩ <;> rfl

theorem run_fromStore (operation : Operation) (p : Process Engine (Except StoreError α))
    (e : Engine) :
    run (fromStore operation p) e =
      match p.run e with
      | (some (.ok a), e) => (some (.ok a), e)
      | (some (.error cause), e) => (some (.error (.store operation cause)), e)
      | (none, e) => (none, e) := by
  show Process.run (p >>= fun r => _) e = _
  rw [Process.run_bind]
  rcases p.run e with ⟨_ | cause | a, e⟩ <;> rfl

theorem run_steps (acts : List (Engine → Engine)) (e : Engine) :
    run (ExceptT.lift (Process.steps acts)) e = (some (.ok ()), Process.applyAll acts e) := by
  show Process.run (Process.steps acts >>= fun r => _) e = _
  rw [Process.run_bind, Process.run_steps]
  rfl

/-- What a call that has the engine to itself does to a world: it comes to its end after having drawn
so many identifiers at most, and the outcome and the events in the log are as stated, unless a store
failed. -/
def Ensures (op : Op α) (w : World) (draws : Nat) (post : Except Failure α → List Event → Prop) :
    Prop :=
  ∀ supply (e : Engine), e.Serves w (supply + draws) → ∃ r e' events, op.run e = (some r, e') ∧
    e'.Serves { w with events } supply ∧ (e.Reliable → e'.Reliable) ∧
    (post r events ∨ ¬ e.Reliable ∧ ∃ operation cause, r = .error (.store operation cause))

namespace Ensures

variable {op : Op α} {n m : Nat} {post : Except Failure α → List Event → Prop}

theorem mono {post' : Except Failure α → List Event → Prop} (ensures : op.Ensures w n post)
    (weaker : ∀ r events, post r events → post' r events) : op.Ensures w n post' := by
  intro supply e serves
  obtain ⟨r, e', events, ran, serves', reliable, outcome⟩ := ensures supply e serves
  exact ⟨r, e', events, ran, serves', reliable, outcome.imp_left (weaker r events)⟩

theorem le (ensures : op.Ensures w n post) (le : n ≤ m) : op.Ensures w m post := by
  intro supply e serves
  exact ensures supply e { serves with fresh := serves.fresh.le (by omega) }

theorem pure {a : α} (holds : post (.ok a) w.events) :
    Ensures (Pure.pure a : Op α) w 0 post :=
  fun _ e serves => ⟨_, e, w.events, rfl, serves, id, Or.inl holds⟩

theorem throw {f : Failure} (holds : post (.error f) w.events) :
    Ensures (MonadExcept.throw f : Op α) w 0 post :=
  fun _ e serves => ⟨_, e, w.events, rfl, serves, id, Or.inl holds⟩

/-- What a call and then another ensure. -/
theorem bind {g : α → Op β} {post' : Except Failure β → List Event → Prop}
    (first : op.Ensures w n post)
    (failed : ∀ f events, post (.error f) events → post' (.error f) events)
    (rest : ∀ a events, post (.ok a) events → (g a).Ensures { w with events } m post') :
    Ensures (op >>= g) w (m + n) post' := by
  intro supply e serves
  obtain ⟨r, e', events, ran, serves', reliable, outcome⟩ :=
    first (supply + m) e (by rwa [Nat.add_assoc])
  rw [run_bind, ran]
  cases r with
  | error f =>
    refine ⟨_, e', events, rfl, { serves' with fresh := serves'.fresh.le (by omega) }, reliable,
      outcome.imp (failed f events) ?_⟩
    rintro ⟨unreliable, operation, cause, same⟩
    exact ⟨unreliable, operation, cause, by rw [Except.error.inj same]⟩
  | ok a =>
    have holds : post (.ok a) events := by
      rcases outcome with holds | ⟨-, _, _, same⟩
      · exact holds
      · cases same
    obtain ⟨r', e'', events', ran', serves'', reliable', outcome'⟩ :=
      rest a events holds supply e' serves'
    exact ⟨r', e'', events', ran', serves'', reliable' ∘ reliable,
      outcome'.imp_right fun ⟨unreliable, failed⟩ => ⟨unreliable ∘ reliable, failed⟩⟩

/-- A call that changes nothing of the world. -/
theorem instant {f : Engine → α × Engine}
    (holds : ∀ supply (e : Engine), e.Serves w (supply + n) →
      (f e).2.Serves w supply ∧ (e.Reliable → (f e).2.Reliable) ∧ post (.ok (f e).1) w.events) :
    Ensures (Op.instant f) w n post := by
  intro supply e serves
  obtain ⟨serves', reliable, outcome⟩ := holds supply e serves
  exact ⟨_, _, w.events, rfl, serves', reliable, Or.inl outcome⟩

theorem fromStore {operation : Operation} {p : Process Engine (Except StoreError α)} {answer : α}
    (answers : Answers w p answer) :
    Ensures (Op.fromStore operation p) w 0 fun r events => r = .ok answer ∧ events = w.events := by
  intro supply e serves
  obtain ⟨r, e', ran, serves', reliable, outcome⟩ := answers supply e serves
  rw [run_fromStore, ran]
  rcases outcome with rfl | ⟨unreliable, cause, rfl⟩
  · exact ⟨_, e', w.events, rfl, serves', reliable, Or.inl ⟨rfl, rfl⟩⟩
  · exact ⟨_, e', w.events, rfl, serves', reliable, Or.inr ⟨unreliable, operation, cause, rfl⟩⟩

end Ensures

/-- A call that writes nothing, and whose answer is that of the world. -/
def Settles (op : Op α) (w : World) (answer : Except Failure α) : Prop :=
  op.Ensures w 0 fun r events => r = answer ∧ events = w.events

/-- A call that writes nothing and depends on nothing but the world. -/
def Settled (op : Op α) (w : World) : Prop := ∃ answer, op.Settles w answer

theorem Settles.settled {op : Op α} {answer : Except Failure α} (settles : op.Settles w answer) :
    op.Settled w := ⟨answer, settles⟩

theorem Settled.pure (a : α) : Settled (Pure.pure a : Op α) w := ⟨.ok a, .pure ⟨rfl, rfl⟩⟩

theorem Settled.throw (f : Failure) : Settled (MonadExcept.throw f : Op α) w :=
  ⟨.error f, .throw ⟨rfl, rfl⟩⟩

theorem Settles.bind {op : Op α} {g : α → Op β} {a : α} (first : op.Settles w (.ok a))
    {draws : Nat} {post : Except Failure β → List Event → Prop} (rest : (g a).Ensures w draws post) :
    (op >>= g).Ensures w draws post := by
  refine Ensures.bind first (fun f events holds => nomatch holds.1) ?_
  intro b events holds
  obtain ⟨same, rfl⟩ := holds
  obtain rfl := Except.ok.inj same
  exact rest

theorem Settles.bind_error {op : Op α} {g : α → Op β} {f : Failure}
    (first : op.Settles w (.error f)) : (op >>= g).Settles w (.error f) := by
  refine Ensures.bind first (fun f' events holds => ⟨?_, holds.2⟩) fun b events holds =>
    nomatch holds.1
  rw [Except.error.inj holds.1]

theorem Settled.bind {op : Op α} {g : α → Op β} (first : op.Settled w)
    (rest : ∀ a, (g a).Settled w) : (op >>= g).Settled w := by
  obtain ⟨f | a, settles⟩ := first
  · exact settles.bind_error.settled
  · obtain ⟨answer, answers⟩ := rest a
    exact ⟨answer, settles.bind answers⟩

end Op

/-! ### The reads of the engine -/

section Reads

theorem exists_event (room : RoomId) (user : UserId) : ∃ e : Event, e.room = room ∧ e.actor = user :=
  ⟨{ id := default, actor := user, room, kind := .roomCreated, time := default }, rfl, rfl⟩

theorem isScope_room (room : RoomId) :
    Projection.places.IsScope (.room room) ∧ Projection.rolls.IsScope (.room room) ∧
      Projection.boosts.IsScope (.room room) ∧ Projection.rooms.IsScope (.room room) := by
  obtain ⟨e, rfl, -⟩ := exists_event room default
  exact ⟨⟨e, rfl⟩, ⟨e, rfl⟩, ⟨e, rfl⟩, ⟨e, rfl⟩⟩

theorem isScope_user (user : UserId) : Projection.memberships.IsScope (.user user) := by
  obtain ⟨e, -, rfl⟩ := exists_event default user
  exact ⟨e, rfl⟩

theorem placesOf_settles (room : RoomId) :
    (placesOf room).Settles w (.ok (w.state Projection.places (.room room))) :=
  .fromStore (readLoaded_answers placeCache_proper (isScope_room room).1 Loaded.state)

theorem place?_settles (room : RoomId) (place : PlaceId) :
    (place? room place).Settles w (.ok ((w.state Projection.places (.room room)).get? place)) :=
  .fromStore (readEntry_answers placeCache_proper (isScope_room room).1 place)

theorem rollsOf_settles (room : RoomId) :
    (rollsOf room).Settles w (.ok ((Loaded.ofEvents Projection.rolls
      (Projection.rolls.eventsIn (.room room) w.events)).inReplayOrder Projection.rolls)) :=
  .fromStore (readLoaded_answers rollCache_proper (isScope_room room).2.1 _)

theorem boostsOf_settles (room : RoomId) :
    (boostsOf room).Settles w (.ok ((Loaded.ofEvents Projection.boosts
      (Projection.boosts.eventsIn (.room room) w.events)).inReplayOrder Projection.boosts)) :=
  .fromStore (readLoaded_answers boostCache_proper (isScope_room room).2.2.1 _)

theorem room?_settles (room : RoomId) :
    (room? room).Settles w (.ok ((w.state Projection.rooms (.room room)).get? room)) :=
  .fromStore (readEntry_answers roomCache_proper (isScope_room room).2.2.2 room)

/-- The memberships of a user, oldest first, as the events say. -/
def membershipsIn (user : UserId) (events : List Event) : List Membership :=
  (Projection.memberships.materialize
    (Projection.memberships.eventsIn (.user user) events)).values.mergeSort
      fun a b => decide (a.since ≤ b.since)

theorem membershipsOf_settles (user : UserId) :
    (membershipsOf user).Settles w (.ok (membershipsIn user w.events)) :=
  Op.Settles.bind (.fromStore (readLoaded_answers membershipCache_proper (isScope_user user)
    Loaded.state)) (.pure ⟨rfl, rfl⟩)

/-- What an access to the directory answers. -/
theorem run_reach {α : Type} (e : Engine) (answer : Table UserId User → α) :
    ∃ r, Process.run (Process.suspend (fun _ => true)
      (fun e : Engine => let (r, directory) := e.directory.reach answer; (r, { e with directory }))
      []) e = (some r, { e with
        directory := { e.directory with accesses := e.directory.accesses + 1 } }) ∧
      (r = .ok (answer e.directory.users) ∨ ¬ e.Reliable ∧ ∃ cause, r = .error cause) := by
  rw [Process.run_suspend, if_pos rfl]
  cases met : e.directory.outages e.directory.accesses with
  | none =>
    simp only [Directory.reach, met]
    exact ⟨_, rfl, .inl rfl⟩
  | some cause =>
    simp only [Directory.reach, met]
    refine ⟨_, rfl, .inr ⟨fun reliable => ?_, cause, rfl⟩⟩
    simp [reliable.directory] at met

theorem reach_answers {α : Type} (answer : Table UserId User → α) :
    Answers w (Process.suspend (fun _ => true)
      (fun e : Engine => let (r, directory) := e.directory.reach answer; (r, { e with directory }))
      []) (answer w.users) := by
  intro supply e serves
  obtain ⟨r, ran, outcome⟩ := run_reach e answer
  rw [serves.users] at outcome
  exact ⟨r, _, ran, { serves with }, fun reliable => { reliable with }, outcome⟩

theorem user?_settles (user : UserId) : (user? user).Settles w (.ok (w.users.get? user)) :=
  .fromStore (reach_answers fun users => users.get? user)

theorem users_settles : users.Settles w (.ok w.users) := .fromStore (reach_answers id)

end Reads

/-! ### Writes -/

section Writes

variable {β : Type} {post : Except Failure β → List Event → Prop}

theorem drawId_ensures :
    drawId.Ensures w 1 fun r events => (∃ i, r = .ok i) ∧ events = w.events :=
  .instant fun _ _ serves =>
    ⟨{ serves with fresh := serves.fresh.next }, fun reliable => { reliable with }, ⟨_, rfl⟩, rfl⟩

theorem tell_ensures (notification : Notification) :
    (tell notification).Settles w (.ok ()) :=
  .instant fun _ _ serves => ⟨{ serves with }, fun reliable => { reliable with }, rfl, rfl⟩

/-- An engine after a new event has been appended and shown to all caches. -/
def wrote (e : Engine) (event : Event) : Engine :=
  Process.applyAll (observers event)
    { e with
      log := { e.log with events := e.log.events ++ [event], accesses := e.log.accesses + 1 }
      ids := e.ids.next.2 }

/-- A call draws an identifier for a new event, writes it and goes on, unless the append fails. -/
theorem run_write (e : Engine) (kind : EventKind) (actor : UserId) (room : RoomId) (time : Instant)
    (place : Option PlaceId) (payload : String) (rest : Event → Op β) :
    let event : Event := ⟨⟨e.ids.next.1⟩, actor, room, kind, time, place, payload⟩
    let op := newEvent kind actor room time place payload >>= fun event =>
      store event >>= fun _ => rest event
    Op.run op e = (rest event).run (e.wrote event) ∨
      ¬ e.Reliable ∧ ∃ cause, Op.run op e = (some (.error (.store .appendEvent cause)),
        { e with log := { e.log with accesses := e.log.accesses + 1 }, ids := e.ids.next.2 }) := by
  intro event op
  have drawn : (newEvent kind actor room time place payload).run e =
      (some (.ok event), { e with ids := e.ids.next.2 }) := rfl
  rw [Op.run_bind, drawn]
  simp only [Op.run_bind, store, Op.run_fromStore, Process.run_suspend, if_true]
  cases met : e.log.outages.append e.log.accesses with
  | none =>
    simp only [EventLog.append, met, Op.run_steps]
    exact .inl rfl
  | some cause =>
    simp only [EventLog.append, met]
    refine .inr ⟨fun reliable => ?_, cause, rfl⟩
    simp [reliable.append] at met

theorem Serves.wrote {e : Engine} (serves : e.Serves w (supply + 1)) {event : Event}
    (drawn : event.id.id = e.ids.next.1) :
    (e.wrote event).Serves { w with events := w.events ++ [event] } supply := by
  have distinct := serves.fresh.distinct_append serves.distinct drawn
  exact {
    events := congrArg (· ++ [event]) serves.events
    ungated := serves.ungated
    users := serves.users
    rules := serves.rules
    locks := serves.locks
    distinct
    fresh := serves.fresh.append drawn
    places := serves.places.observe .places distinct
    rolls := serves.rolls.observe .rolls distinct
    boosts := serves.boosts.observe .boosts distinct
    rooms := serves.rooms.observe .rooms distinct
    memberships := serves.memberships.observe .memberships distinct }

/-- A call writes a new event and goes on. -/
theorem write_ensures {kind : EventKind} {actor : UserId} {room : RoomId} {time : Instant}
    {place : Option PlaceId} {payload : String} {rest : Event → Op β}
    (written : ∀ id, (rest { id, actor, room, kind, time, place, payload }).Ensures
      { w with events := w.events ++ [{ id, actor, room, kind, time, place, payload }] } 0 post) :
    (newEvent kind actor room time place payload >>= fun event =>
      store event >>= fun _ => rest event).Ensures w 1 post := by
  intro supply e serves
  obtain goesOn | ⟨unreliable, cause, fails⟩ := run_write e kind actor room time place payload rest
  · obtain ⟨r, e', events, ran, serves', reliable, outcome⟩ :=
      written ⟨e.ids.next.1⟩ supply _ (serves.wrote rfl)
    refine ⟨r, e', events, goesOn.trans ran, serves', fun before => reliable { before with }, ?_⟩
    exact outcome.imp_right fun ⟨unreliable, failed⟩ =>
      ⟨fun before => unreliable { before with }, failed⟩
  · -- the append fails: an identifier has been used up, and the world is as it was
    exact ⟨_, _, w.events, fails, { serves with fresh := serves.fresh.next },
      fun reliable => { reliable with }, .inr ⟨unreliable, .appendEvent, cause, rfl⟩⟩

end Writes

end Engine

end NoonDraw
