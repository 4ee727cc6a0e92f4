import NoonDraw.Proofs.DrawSlots
import NoonDraw.Proofs.EngineSpec
import NoonDraw.Proofs.Protocol
import NoonDraw.Proofs.Quota

/-!
# Taking turns

The protocol that calls of an engine keep to while they go on at once.  In an orderly engine the
locks are held as the tokens say, identifiers are new, the caches of rolls and boosts stand as the log
and the tokens say, who holds the lock of a room knows its draws, and no user has been charged more
points than a week has, in any room whose draws have been added in order of time.

Most of what calls do is of no interest to the protocol (`Orderly.alike`).  The rest is: to draw an
identifier, to take and to let go of the lock of a room, to load its draws, and to add a draw to the
log and show it to the caches.
-/

namespace NoonDraw

open Event

/-! ### Identifiers -/

/-- Identifiers, of which some have been drawn for events that are not in the log yet, and so many may
be drawn still. -/
structure IdsSound (ids : IdSupply) (events : List Event) (tokens : Multiset Token) (more : Nat) :
    Prop where
  /-- No identifier has been drawn twice. -/
  distinct : ((Loaded.ids events : Multiset EventId) + tokens.filterMap Token.drawn?).Nodup
  /-- The next ones are new to the log. -/
  fresh : ids.FreshFor events more
  /-- And none of those that have been drawn. -/
  apart : ∀ id ∈ tokens.filterMap Token.drawn?, ∀ i < more, id.id ≠ ids.draw (ids.drawn + 1 + i)

namespace IdsSound

variable {ids : IdSupply} {events : List Event} {tokens : Multiset Token} {more : Nat} {id : EventId}
  {t : Token}

theorem cons_iff (noId : t.drawn? = none) :
    IdsSound ids events (t ::ₘ tokens) more ↔ IdsSound ids events tokens more := by
  have same := Multiset.filterMap_cons_none t tokens noId
  constructor <;> rintro ⟨distinct, fresh, apart⟩
  · rw [same] at distinct apart
    exact ⟨distinct, fresh, apart⟩
  · rw [← same] at distinct apart
    exact ⟨distinct, fresh, apart⟩

/-- Nobody has drawn an identifier for an event that is not in the log. -/
theorem empty (distinct : (Loaded.ids events).Nodup) (fresh : ids.FreshFor events more) :
    IdsSound ids events 0 more := by
  refine ⟨?_, fresh, by simp⟩
  rw [Multiset.filterMap_zero, add_zero]
  exact Multiset.coe_nodup.2 distinct

theorem fewer (sound : IdsSound ids events tokens (more + 1)) : IdsSound ids events tokens more :=
  ⟨sound.distinct, sound.fresh.le (Nat.le_succ more),
    fun id isDrawn i hi => sound.apart id isDrawn i (Nat.lt_succ_of_lt hi)⟩

theorem nodup (sound : IdsSound ids events tokens more) : (Loaded.ids events).Nodup :=
  Multiset.coe_nodup.1 (Multiset.nodup_of_le (Multiset.le_add_right _ _) sound.distinct)

theorem filterMap_drawn (id : EventId) (tokens : Multiset Token) :
    (Token.drawn id ::ₘ tokens).filterMap Token.drawn? = id ::ₘ tokens.filterMap Token.drawn? :=
  Multiset.filterMap_cons_some _ _ _ rfl

/-- An identifier is drawn. -/
theorem draw (sound : IdsSound ids events tokens (more + 1)) :
    IdsSound ids.next.2 events (.drawn ⟨ids.next.1⟩ ::ₘ tokens) more where
  distinct := by
    rw [filterMap_drawn, Multiset.add_cons, Multiset.nodup_cons, Multiset.mem_add, Multiset.mem_coe]
    refine ⟨?_, sound.distinct⟩
    -- it is neither in the log nor held by another call
    rintro (logged | isDrawn)
    · obtain ⟨e, he, same⟩ := List.mem_map.1 logged
      exact sound.fresh.new 0 (Nat.succ_pos more) e he (congrArg EventId.id same)
    · exact sound.apart _ isDrawn 0 (Nat.succ_pos more) rfl
  fresh := sound.fresh.next
  apart id isDrawn i hi := by
    rw [IdSupply.FreshFor.draw_next]
    rw [filterMap_drawn, Multiset.mem_cons] at isDrawn
    rcases isDrawn with rfl | isDrawn
    · intro same
      exact absurd (sound.fresh.once 0 (Nat.succ_pos more) (i + 1) (by omega) same) (by omega)
    · exact sound.apart id isDrawn (i + 1) (by omega)

/-- An identifier that has been drawn is not used. -/
theorem forget (sound : IdsSound ids events (.drawn id ::ₘ tokens) more) :
    IdsSound ids events tokens more := by
  obtain ⟨distinct, fresh, apart⟩ := sound
  rw [filterMap_drawn] at distinct apart
  rw [Multiset.add_cons, Multiset.nodup_cons] at distinct
  exact ⟨distinct.2, fresh, fun id isDrawn => apart id (Multiset.mem_cons_of_mem isDrawn)⟩

/-- An event gets the identifier that has been drawn for it. -/
theorem append {e : Event} (sound : IdsSound ids events (.drawn e.id ::ₘ tokens) more) :
    IdsSound ids (events ++ [e]) tokens more := by
  obtain ⟨distinct, fresh, apart⟩ := sound
  rw [filterMap_drawn] at distinct apart
  refine ⟨?_, ⟨fresh.once, fun i hi a ha => ?_⟩, fun id isDrawn =>
    apart id (Multiset.mem_cons_of_mem isDrawn)⟩
  · rw [Loaded.ids, List.map_append, ← Multiset.coe_add, add_assoc]
    exact distinct
  · rcases List.mem_append.1 ha with old | last
    · exact fresh.new i hi a old
    · rw [List.mem_singleton.1 last]
      exact apart e.id (Multiset.mem_cons_self _ _) i hi

end IdsSound

/-! ### Orderly engines -/

namespace Engine

/-- The terms on which draws are made. -/
structure Terms where
  /-- The rules. -/
  rules : Rules Float
  /-- Whether everybody was within the quota to begin with. -/
  metered : Prop

/-- What holds of an orderly engine, apart from its caches. -/
structure Grounded (terms : Terms) (more : Nat) (e : Engine) (tokens : Multiset Token) :
    Prop where
  /-- The rules are in force. -/
  inForce : e.rules = terms.rules
  /-- The locks are held as the tokens say. -/
  locks : LocksSound e.locks tokens
  /-- Identifiers are new. -/
  ids : IdsSound e.ids e.log.events tokens more
  /-- Who holds the lock of a room knows its draws. -/
  known : ∀ room number draws due, Token.lock room number draws due ∈ tokens →
    drawsOf room e.log.events = draws
  /-- Rooms whose draws have been added in order of time are within the quota, if all were once. -/
  within : terms.metered → ∀ room, InOrder (drawsOf room e.log.events) →
    History.WithinQuota terms.rules (Projection.rolls.listed room e.log.events)
      (Projection.boosts.listed room e.log.events)

/-- An engine whose calls take turns. -/
structure Orderly (terms : Terms) (more : Nat) (e : Engine) (tokens : Multiset Token) : Prop
    extends Grounded terms more e tokens where
  /-- The cache of rolls stands as the log and the tokens say. -/
  rolls : e.rolls.Stands .rollCreated tokens e.log.events
  /-- So does that of boosts. -/
  boosts : e.boosts.Stands .boostCreated tokens e.log.events

/-- An engine that does not differ in anything that the protocol is about. -/
structure Alike (e e' : Engine) : Prop where
  /-- The rules are the same. -/
  rules : e'.rules = e.rules
  /-- So are the locks. -/
  locks : e'.locks = e.locks
  /-- So are the identifiers to draw. -/
  ids : e'.ids = e.ids
  /-- So are the events in the log. -/
  events : e'.log.events = e.log.events
  /-- So is the cache of rolls. -/
  rolls : e'.rolls = e.rolls
  /-- So is that of boosts. -/
  boosts : e'.boosts = e.boosts

variable {terms : Terms} {more : Nat} {e e' : Engine} {tokens : Multiset Token} {t : Token}
  {room : RoomId} {number : Nat} {draws due : List Event} {kind : EventKind}

/-- The protocol is not about users, the lottery, the notifier, and the caches of other things than
draws. -/
theorem Alike.rest (e : Engine) (directory : Directory) (lottery : Lottery) (notifier : Notifier)
    (places : Cache Projection.places) (rooms : Cache Projection.rooms)
    (memberships : Cache Projection.memberships) :
    Alike e { e with directory, lottery, notifier, places, rooms, memberships } :=
  ⟨rfl, rfl, rfl, rfl, rfl, rfl⟩

theorem Grounded.alike (grounded : Grounded terms more e tokens) (alike : Alike e e') :
    Grounded terms more e' tokens where
  inForce := alike.rules.trans grounded.inForce
  locks := alike.locks ▸ grounded.locks
  ids := by rw [alike.ids, alike.events]; exact grounded.ids
  known := by rw [alike.events]; exact grounded.known
  within := by rw [alike.events]; exact grounded.within

theorem Orderly.alike (orderly : Orderly terms more e tokens) (alike : Alike e e') :
    Orderly terms more e' tokens where
  toGrounded := orderly.toGrounded.alike alike
  rolls := by rw [alike.rolls, alike.events]; exact orderly.rolls
  boosts := by rw [alike.boosts, alike.events]; exact orderly.boosts

theorem Orderly.fewer (orderly : Orderly terms (more + 1) e tokens) : Orderly terms more e tokens :=
  { orderly with ids := orderly.ids.fewer }

/-- A token that is about neither locks nor identifiers may come and go. -/
theorem grounded_cons_iff (noHandle : t.about = none) (noLock : ∀ number, t.holds number = false)
    (noId : t.drawn? = none) :
    Grounded terms more e (t ::ₘ tokens) ↔ Grounded terms more e tokens := by
  constructor
  · intro grounded
    exact { grounded with
      locks := (LocksSound.cons_iff noHandle noLock).1 grounded.locks
      ids := (IdsSound.cons_iff noId).1 grounded.ids
      known := fun room number draws due isHeld =>
        grounded.known room number draws due (Multiset.mem_cons_of_mem isHeld) }
  · intro grounded
    refine { grounded with
      locks := (LocksSound.cons_iff noHandle noLock).2 grounded.locks
      ids := (IdsSound.cons_iff noId).2 grounded.ids
      known := fun room number draws due isHeld => ?_ }
    rcases Multiset.mem_cons.1 isHeld with rfl | isHeld
    · cases noHandle
    · exact grounded.known room number draws due isHeld

/-! ### Identifiers and locks -/

/-- An identifier is drawn for an event. -/
theorem Orderly.draw (orderly : Orderly terms (more + 1) e tokens) :
    Orderly terms more { e with ids := e.ids.next.2 } (.drawn ⟨e.ids.next.1⟩ ::ₘ tokens) where
  inForce := orderly.inForce
  locks := (LocksSound.cons_iff rfl fun _ => rfl).2 orderly.locks
  ids := orderly.ids.draw
  known room number draws due isHeld := orderly.known room number draws due (by simpa using isHeld)
  within := orderly.within
  rolls := (Cache.stands_cons_iff (fun _ => rfl) fun _ => rfl).2 orderly.rolls
  boosts := (Cache.stands_cons_iff (fun _ => rfl) fun _ => rfl).2 orderly.boosts

/-- An identifier that has been drawn is not used. -/
theorem Orderly.forgetId {id : EventId} (orderly : Orderly terms more e (.drawn id ::ₘ tokens)) :
    Orderly terms more e tokens where
  inForce := orderly.inForce
  locks := (LocksSound.cons_iff rfl fun _ => rfl).1 orderly.locks
  ids := orderly.ids.forget
  known room number draws due isHeld :=
    orderly.known room number draws due (Multiset.mem_cons_of_mem isHeld)
  within := orderly.within
  rolls := (Cache.stands_cons_iff (fun _ => rfl) fun _ => rfl).1 orderly.rolls
  boosts := (Cache.stands_cons_iff (fun _ => rfl) fun _ => rfl).1 orderly.boosts

/-- A handle on the lock of a room is taken. -/
theorem Orderly.register (orderly : Orderly terms more e tokens) (room : RoomId) :
    Orderly terms more { e with locks := (e.locks.register room).2 }
      (.handle room (e.locks.register room).1 ::ₘ tokens) where
  inForce := orderly.inForce
  locks := orderly.locks.register room
  ids := (IdsSound.cons_iff rfl).2 orderly.ids
  known room number draws due isHeld := orderly.known room number draws due (by simpa using isHeld)
  within := orderly.within
  rolls := (Cache.stands_cons_iff (fun _ => rfl) fun _ => rfl).2 orderly.rolls
  boosts := (Cache.stands_cons_iff (fun _ => rfl) fun _ => rfl).2 orderly.boosts

/-- A handle is given back. -/
theorem Orderly.withdraw (orderly : Orderly terms more e (.handle room number ::ₘ tokens)) :
    Orderly terms more { e with locks := e.locks.withdraw number } tokens where
  inForce := orderly.inForce
  locks := orderly.locks.withdraw
  ids := (IdsSound.cons_iff rfl).1 orderly.ids
  known room number draws due isHeld :=
    orderly.known room number draws due (Multiset.mem_cons_of_mem isHeld)
  within := orderly.within
  rolls := (Cache.stands_cons_iff (fun _ => rfl) fun _ => rfl).1 orderly.rolls
  boosts := (Cache.stands_cons_iff (fun _ => rfl) fun _ => rfl).1 orderly.boosts

/-- The lock of a room is taken. -/
theorem Orderly.acquire (orderly : Orderly terms more e (.handle room number ::ₘ tokens))
    (free : e.locks.isFree number) :
    Orderly terms more { e with locks := e.locks.acquire number }
      (.lock room number (drawsOf room e.log.events) [] ::ₘ tokens) where
  inForce := orderly.inForce
  locks := orderly.locks.acquire free
  ids := (IdsSound.cons_iff rfl).2 ((IdsSound.cons_iff rfl).1 orderly.ids)
  known r n draws due isHeld := by
    rcases Multiset.mem_cons.1 isHeld with same | isHeld
    · cases same
      rfl
    · exact orderly.known r n draws due (Multiset.mem_cons_of_mem isHeld)
  within := orderly.within
  rolls := (Cache.stands_lock_iff fun _ _ _ => orderly.locks.nobody free).2
    ((Cache.stands_cons_iff (fun _ => rfl) fun _ => rfl).1 orderly.rolls)
  boosts := (Cache.stands_lock_iff fun _ _ _ => orderly.locks.nobody free).2
    ((Cache.stands_cons_iff (fun _ => rfl) fun _ => rfl).1 orderly.boosts)

/-- The lock of a room is let go of, once nothing is due. -/
theorem Orderly.letGo (orderly : Orderly terms more e (.lock room number draws [] ::ₘ tokens)) :
    Orderly terms more { e with locks := e.locks.letGo number } tokens where
  inForce := orderly.inForce
  locks := orderly.locks.letGo
  ids := (IdsSound.cons_iff rfl).1 orderly.ids
  known room number draws due isHeld :=
    orderly.known room number draws due (Multiset.mem_cons_of_mem isHeld)
  within := orderly.within
  rolls := (Cache.stands_lock_iff fun _ _ _ => orderly.locks.alone).1 orderly.rolls
  boosts := (Cache.stands_lock_iff fun _ _ _ => orderly.locks.alone).1 orderly.boosts

/-- A lock that nobody has a handle on is forgotten. -/
theorem Orderly.forget (orderly : Orderly terms more e tokens) (room : RoomId) :
    Orderly terms more { e with locks := e.locks.forget room } tokens :=
  { orderly with locks := orderly.locks.forget room }

/-! ### Loads -/

/-- What holds of an orderly engine, apart from the cache of the draws of one kind. -/
structure OrderlyBut (kind : EventKind) (terms : Terms) (more : Nat) (e : Engine)
    (tokens : Multiset Token) : Prop extends Grounded terms more e tokens where
  /-- The cache of rolls stands as it should. -/
  rolls : kind ≠ .rollCreated → e.rolls.Stands .rollCreated tokens e.log.events
  /-- So does that of boosts. -/
  boosts : kind ≠ .boostCreated → e.boosts.Stands .boostCreated tokens e.log.events

theorem Orderly.but (orderly : Orderly terms more e tokens) (kind : EventKind) :
    OrderlyBut kind terms more e tokens :=
  { orderly with rolls := fun _ => orderly.rolls, boosts := fun _ => orderly.boosts }

/-- A load concerns no cache but that of its kind. -/
theorem orderlyBut_load_iff {before : List Event} {read : Option (List Event)} :
    OrderlyBut kind terms more e (.load kind room before read ::ₘ tokens) ↔
      OrderlyBut kind terms more e tokens := by
  have elsewhere : ∀ {other}, kind ≠ other →
      ∀ room', (Token.load kind room before read).load? other room' = none :=
    fun differs room' => by simp [Token.load?, differs]
  have grounded : Grounded terms more e (.load kind room before read ::ₘ tokens) ↔
      Grounded terms more e tokens := grounded_cons_iff rfl (fun _ => rfl) rfl
  constructor
  · intro orderly
    exact {
      toGrounded := grounded.1 orderly.toGrounded
      rolls := fun differs =>
        (Cache.stands_cons_iff (fun _ => rfl) (elsewhere differs)).1 (orderly.rolls differs)
      boosts := fun differs =>
        (Cache.stands_cons_iff (fun _ => rfl) (elsewhere differs)).1 (orderly.boosts differs) }
  · intro orderly
    exact {
      toGrounded := grounded.2 orderly.toGrounded
      rolls := fun differs =>
        (Cache.stands_cons_iff (fun _ => rfl) (elsewhere differs)).2 (orderly.rolls differs)
      boosts := fun differs =>
        (Cache.stands_cons_iff (fun _ => rfl) (elsewhere differs)).2 (orderly.boosts differs) }

section Draws

variable {ε : Type} {p : Projection EventId ε} {make : Event → Option ε} {c : CacheOf p}

/-- One of the caches of draws of an engine. -/
structure CacheOf.OfDraws (c : CacheOf p) (kind : EventKind) (make : Event → Option ε) : Prop where
  /-- It is a part of the engine. -/
  proper : c.Proper
  /-- It is about draws. -/
  draws : p.IsDraws kind make
  /-- They are rolls or boosts. -/
  isDraw : kind = .rollCreated ∨ kind = .boostCreated
  /-- It stands as the log and the tokens say. -/
  stands : ∀ {terms : Terms} {more : Nat} {e : Engine} {tokens : Multiset Token},
    Orderly terms more e tokens → (c.get e).Stands kind tokens e.log.events
  /-- With all else in order, that is all there is to say. -/
  orderly : ∀ {terms : Terms} {more : Nat} {e : Engine} {tokens : Multiset Token},
    OrderlyBut kind terms more e tokens → (c.get e).Stands kind tokens e.log.events →
      Orderly terms more e tokens
  /-- It may be replaced. -/
  but_set : ∀ {terms : Terms} {more : Nat} {e : Engine} {tokens : Multiset Token}
    {cache : Cache p}, OrderlyBut kind terms more e tokens →
      OrderlyBut kind terms more (c.set e cache) tokens

theorem rollCache_ofDraws :
    rollCache.OfDraws .rollCreated fun e => Projection.rollTransition e none where
  proper := rollCache_proper
  draws := Projection.rolls_isDraws
  isDraw := Or.inl rfl
  stands := Orderly.rolls
  orderly but rolls := { but with rolls, boosts := but.boosts (by decide) }
  but_set but := { but with rolls := fun differs => absurd rfl differs }

theorem boostCache_ofDraws :
    boostCache.OfDraws .boostCreated fun e => Projection.boostTransition e none where
  proper := boostCache_proper
  draws := Projection.boosts_isDraws
  isDraw := Or.inr rfl
  stands := Orderly.boosts
  orderly but boosts := { but with rolls := but.rolls (by decide), boosts }
  but_set but := { but with boosts := fun differs => absurd rfl differs }

namespace CacheOf.OfDraws

variable {before fetched : List Event} {read : Option (List Event)}

/-- A cache of draws is replaced by one that stands as it should. -/
theorem set (ofDraws : c.OfDraws kind make) (but : OrderlyBut kind terms more e tokens)
    {f : Cache p → Cache p} (stands : (f (c.get e)).Stands kind tokens e.log.events) :
    Orderly terms more (c.modify f e) tokens :=
  ofDraws.orderly (ofDraws.but_set but) (by
    rw [CacheOf.modify, ofDraws.proper.get_set, ofDraws.proper.log_set]
    exact stands)

/-- A call begins to load a room's draws. -/
theorem claim (ofDraws : c.OfDraws kind make) (orderly : Orderly terms more e tokens)
    (unloaded : (c.get e).loaded? (.room room) = none)
    (idle : ¬ (c.get e).isPopulating (.room room)) :
    ∃ before, Orderly terms more (c.modify (·.claim (.room room)) e)
      (.load kind room before none ::ₘ tokens) := by
  obtain ⟨before, stands⟩ :=
    (ofDraws.stands orderly).claim (orderly.locks.existsUnique_isDue room) unloaded idle
  exact ⟨before, ofDraws.set (orderlyBut_load_iff.2 (orderly.but kind)) stands⟩

/-- A call that loads a room's draws reads the log. -/
theorem readLog (ofDraws : c.OfDraws kind make)
    (orderly : Orderly terms more e (.load kind room before none ::ₘ tokens)) :
    Orderly terms more e
      (.load kind room before (some (p.eventsIn (.room room) e.log.events)) ::ₘ tokens) :=
  ofDraws.orderly (orderlyBut_load_iff.2 (orderlyBut_load_iff.1 (orderly.but kind)))
    (ofDraws.stands orderly).read

/-- A call installs a room's draws as it has read them; with nothing due that is all there is. -/
theorem install (ofDraws : c.OfDraws kind make)
    (orderly : Orderly terms more e (.load kind room before (some fetched) ::ₘ tokens)) :
    Orderly terms more (c.modify (·.install (.room room) fetched) e) tokens ∧
      (IsDue tokens room [] → (c.get (c.modify (·.install (.room room) fetched) e)).loaded?
        (.room room) = some (.ofEvents p (p.eventsIn (.room room) e.log.events))) := by
  obtain ⟨stands, loaded⟩ := (ofDraws.stands orderly).install orderly.ids.nodup
  refine ⟨ofDraws.set (orderlyBut_load_iff.1 (orderly.but kind)) stands, fun isDue => ?_⟩
  rw [CacheOf.modify, ofDraws.proper.get_set]
  exact loaded isDue

/-- A call gives up the load of a room's draws. -/
theorem abandon (ofDraws : c.OfDraws kind make)
    (orderly : Orderly terms more e (.load kind room before read ::ₘ tokens)) :
    Orderly terms more (c.modify (·.abandon (.room room)) e) tokens :=
  ofDraws.set (orderlyBut_load_iff.1 (orderly.but kind)) (ofDraws.stands orderly).abandon

end CacheOf.OfDraws

end Draws

/-! ### Draws -/

/-- An event that is no draw is appended to the log. -/
theorem Orderly.append {event : Event} {log : EventLog}
    (orderly : Orderly terms more e (.drawn event.id ::ₘ tokens)) (noDraw : event.isDraw = false)
    (events : log.events = e.log.events ++ [event]) : Orderly terms more { e with log } tokens := by
  have sameDraws : ∀ room, drawsOf room log.events = drawsOf room e.log.events := fun room => by
    rw [events, drawsOf_concat_other (by simp [noDraw])]
  have rolls : ∀ room, Projection.rolls.eventsIn (.room room) log.events =
      Projection.rolls.eventsIn (.room room) e.log.events :=
    fun room => Projection.rolls_isDraws.eventsIn_congr (Or.inl rfl) (sameDraws room)
  have boosts : ∀ room, Projection.boosts.eventsIn (.room room) log.events =
      Projection.boosts.eventsIn (.room room) e.log.events :=
    fun room => Projection.boosts_isDraws.eventsIn_congr (Or.inr rfl) (sameDraws room)
  have after := orderly.forgetId
  exact {
    inForce := after.inForce
    locks := after.locks
    ids := events ▸ orderly.ids.append
    known := fun room number draws due isHeld =>
      (sameDraws room).trans (after.known room number draws due isHeld)
    within := fun metered room inOrder => by
      rw [Projection.listed, Projection.listed, rolls, boosts]
      exact after.within metered room (sameDraws room ▸ inOrder)
    rolls := after.rolls.congr (fun _ => rfl) rolls (fun _ => rfl) fun _ _ => id
    boosts := after.boosts.congr (fun _ => rfl) boosts (fun _ => rfl) fun _ _ => id }

/-- Whether rules let a draw follow others of its room: if those have been within the quota and it
comes last in order of time, then it leaves everybody within the quota. -/
def Allowed (rules : Rules Float) (known : List Event) (event : Event) : Prop :=
  (Loaded.ids (known ++ [event])).Nodup → InOrder (known ++ [event]) →
    History.WithinQuota rules (Projection.rolls.listed event.room known)
      (Projection.boosts.listed event.room known) →
    History.WithinQuota rules (Projection.rolls.listed event.room (known ++ [event]))
      (Projection.boosts.listed event.room (known ++ [event]))

/-- What is charged in a room depends on its draws only. -/
theorem withinQuota_drawsOf (rules : Rules Float) (room : RoomId) (events : List Event) :
    History.WithinQuota rules (Projection.rolls.listed room (drawsOf room events))
        (Projection.boosts.listed room (drawsOf room events)) ↔
      History.WithinQuota rules (Projection.rolls.listed room events)
        (Projection.boosts.listed room events) := by
  rw [Projection.rolls_isDraws.listed_drawsOf (Or.inl rfl),
    Projection.boosts_isDraws.listed_drawsOf (Or.inr rfl)]

/-- A draw that is allowed after the draws of its room leaves all rooms within the quota. -/
theorem Allowed.within {rules : Rules Float} {event : Event} {known events : List Event}
    (allowed : Allowed rules known event) (isDraw : event.isDraw) (isKnown : drawsOf event.room events = known)
    (distinct : (Loaded.ids (events ++ [event])).Nodup)
    (within : ∀ room, InOrder (drawsOf room events) →
      History.WithinQuota rules (Projection.rolls.listed room events)
        (Projection.boosts.listed room events)) (room : RoomId)
    (inOrder : InOrder (drawsOf room (events ++ [event]))) :
    History.WithinQuota rules (Projection.rolls.listed room (events ++ [event]))
      (Projection.boosts.listed room (events ++ [event])) := by
  rw [← withinQuota_drawsOf]
  by_cases same : room = event.room
  · subst same
    have here := drawsOf_concat_own isDraw events
    have distinct' : (Loaded.ids (drawsOf event.room (events ++ [event]))).Nodup :=
      distinct.sublist (List.filter_sublist.map _)
    rw [here, isKnown] at inOrder distinct' ⊢
    refine allowed distinct' inOrder ?_
    rw [← isKnown, withinQuota_drawsOf]
    refine within event.room ?_
    rw [isKnown]
    exact inOrder.sublist (List.sublist_append_left _ _)
  · have other : ¬ (event.isDraw ∧ event.room = room) := fun both => same both.2.symm
    rw [drawsOf_concat_other other] at inOrder ⊢
    rw [withinQuota_drawsOf]
    exact within room inOrder

/-- The holder of a room's lock appends a draw that is allowed to the log. -/
theorem Orderly.appendDraw {event : Event} {log : EventLog} {known : List Event}
    (orderly : Orderly terms more e
      (.drawn event.id ::ₘ .lock event.room number known [] ::ₘ tokens))
    (isDraw : event.isDraw) (allowed : Allowed terms.rules known event)
    (events : log.events = e.log.events ++ [event]) :
    Orderly terms more { e with log }
      (.lock event.room number (known ++ [event]) [event] ::ₘ tokens) := by
  have after := orderly.forgetId
  have alone : ∀ n draws due, Token.lock event.room n draws due ∉ tokens :=
    fun _ _ _ => after.locks.alone
  have isKnown : drawsOf event.room e.log.events = known :=
    after.known event.room number known [] (Multiset.mem_cons_self _ _)
  have ids : IdsSound e.ids log.events tokens more := by
    rw [events]
    exact (IdsSound.cons_iff rfl).1 orderly.ids.append
  refine {
    inForce := after.inForce
    locks := after.locks.exchange rfl fun _ => rfl
    ids := (IdsSound.cons_iff rfl).2 ids
    known := ?_
    within := ?_
    rolls := events ▸ after.rolls.append Projection.rolls_isDraws rfl alone
    boosts := events ▸ after.boosts.append Projection.boosts_isDraws rfl alone }
  · intro room n draws due isHeld
    show drawsOf room log.events = draws
    rw [events]
    rcases Multiset.mem_cons.1 isHeld with same | isHeld
    · cases same
      rw [drawsOf_concat_own isDraw, isKnown]
    · -- who holds the lock of another room knows its draws as before
      have differs : room ≠ event.room := by
        rintro rfl
        exact alone _ _ _ isHeld
      rw [drawsOf_concat_other fun both => differs both.2.symm]
      exact after.known room n draws due (Multiset.mem_cons_of_mem isHeld)
  · intro metered room inOrder
    have distinct := ids.nodup
    simp only [events] at distinct inOrder ⊢
    exact allowed.within isDraw isKnown distinct (after.within metered) room inOrder

/-- The draw that is due is shown to the cache of its kind; then nothing is due. -/
theorem CacheOf.OfDraws.observe {ε : Type} {p : Projection EventId ε} {make : Event → Option ε}
    {c : CacheOf p} (ofDraws : c.OfDraws kind make) {event : Event} {known : List Event}
    (isKind : event.kind = kind)
    (orderly : Orderly terms more e (.lock event.room number known [event] ::ₘ tokens)) :
    Orderly terms more (c.modify (·.observe event) e)
      (.lock event.room number known [] ::ₘ tokens) := by
  have alone : ∀ n draws due, Token.lock event.room n draws due ∉ tokens :=
    fun _ _ _ => orderly.locks.alone
  refine ofDraws.set { toGrounded := ?_, rolls := fun differs => ?_, boosts := fun differs => ?_ }
    ((ofDraws.stands orderly).observe ofDraws.draws isKind rfl alone orderly.ids.nodup)
  · exact { orderly with
      locks := orderly.locks.exchange rfl fun _ => rfl
      ids := (IdsSound.cons_iff rfl).2 ((IdsSound.cons_iff rfl).1 orderly.ids)
      known := fun room n draws due isHeld => by
        rcases Multiset.mem_cons.1 isHeld with same | isHeld
        · cases same
          exact orderly.known _ _ _ _ (Multiset.mem_cons_self _ _)
        · exact orderly.known room n draws due (Multiset.mem_cons_of_mem isHeld) }
  · exact orderly.rolls.settle Projection.rolls_isDraws (isKind ▸ differs) alone
  · exact orderly.boosts.settle Projection.boosts_isDraws (isKind ▸ differs) alone

/-- A draw of another kind does not concern a cache. -/
theorem alike_observe_rolls {event : Event} (otherKind : event.kind ≠ .rollCreated) (e : Engine) :
    Alike e (rollCache.modify (·.observe event) e) :=
  ⟨rfl, rfl, rfl, rfl, Cache.observe_other Projection.rolls_isDraws otherKind, rfl⟩

theorem alike_observe_boosts {event : Event} (otherKind : event.kind ≠ .boostCreated) (e : Engine) :
    Alike e (boostCache.modify (·.observe event) e) :=
  ⟨rfl, rfl, rfl, rfl, rfl, Cache.observe_other Projection.boosts_isDraws otherKind⟩

end Engine

end NoonDraw
