import Mathlib.Data.Multiset.Filter
import NoonDraw.Proofs.CacheInvariant
import NoonDraw.Proofs.Draws
import NoonDraw.Proofs.Tokens

/-!
# Slots of draws among calls

Rolls and boosts of a room are added by who holds its lock, one at a time, each shown to the caches
before the lock is let go of.  So at most one draw of a room is due at any time, and none is while the
lock is free.  Meanwhile any call may load the scope.

`Slot.Standing` says what may stand in a slot of draws, given the loads under way, and `Cache.Stands`
says so of all slots of a cache, given the tokens that calls hold.  Each is kept by what calls do, one
lemma for each instant; a scope that is loaded while nothing is due holds all that is in the log
(`Cache.Stands.loaded_eq`, `Cache.Stands.install`).
-/

namespace NoonDraw

/-! ### One slot -/

namespace Slot

variable {κ ε : Type} [Key κ] {p : Projection κ ε} {shown due : List Event}
  {loads : Multiset (List Event × Option (List Event))} {s : Slot κ ε}

/-- A slot that has been shown some events of its scope while others are due.  At most one load is
under way; it knows what had been shown when it began, and what it has read. -/
structure Standing (p : Projection κ ε) (shown due : List Event)
    (loads : Multiset (List Event × Option (List Event))) (s : Slot κ ε) : Prop where
  /-- The slot follows the log. -/
  follows : Follows p shown due s
  /-- No two calls load the scope. -/
  once : loads.card ≤ 1
  /-- A call that loads the scope has claimed it, and has read what had been shown by then. -/
  loading : ∀ load ∈ loads, ClaimedAfter load.1 shown s ∧
    ∀ read, load.2 = some read → load.1 <+: read ∧ read <+: shown ++ due

namespace Standing

theorem empty : Standing p shown due 0 ({} : Slot κ ε) :=
  ⟨follows_empty, Nat.zero_le 1, by simp⟩

/-- While a load is under way, it is the only one. -/
theorem rest_eq {load : List Event × Option (List Event)}
    (standing : Standing p shown due (load ::ₘ loads) s) : loads = 0 := by
  have once := standing.once
  rw [Multiset.card_cons] at once
  exact Multiset.card_eq_zero.1 (by omega)

/-- A slot that is cold is not being loaded. -/
theorem loads_eq (standing : Standing p shown due loads s) (cold : s.collection = .cold) :
    loads = 0 := by
  apply Multiset.eq_zero_of_forall_notMem
  intro load hload
  obtain ⟨observed, -, populating⟩ := (standing.loading load hload).1
  rw [cold] at populating
  cases populating

/-- A load begins. -/
theorem claim (standing : Standing p shown due loads s) (cold : s.collection = .cold) :
    Standing p shown due ((shown, none) ::ₘ loads) { s with collection := .populating [] } := by
  refine ⟨standing.follows.claim cold, ?_, ?_⟩
  · simp [standing.loads_eq cold]
  · rw [standing.loads_eq cold]
    simpa using claimedAfter_claim

/-- A load takes the events of the log. -/
theorem read {before : List Event} (standing : Standing p shown due ((before, none) ::ₘ loads) s) :
    Standing p shown due ((before, some (shown ++ due)) ::ₘ loads) s := by
  obtain rfl := standing.rest_eq
  have claimed := (standing.loading (before, none) (by simp)).1
  refine ⟨standing.follows, by simp, fun load hload => ?_⟩
  rw [Multiset.mem_cons, or_iff_left (Multiset.notMem_zero load)] at hload
  subst hload
  refine ⟨claimed, ?_⟩
  rintro read ⟨⟩
  obtain ⟨observed, rfl, -⟩ := claimed
  exact ⟨by simp [List.append_assoc], List.prefix_refl _⟩

/-- A load installs what it has read; with nothing due that is all there is. -/
theorem install {before read : List Event}
    (standing : Standing p shown due ((before, some read) ::ₘ loads) s)
    (distinct : (Loaded.ids (shown ++ due)).Nodup) :
    Standing p shown due loads (s.install p read) ∧
      (due = [] → (s.install p read).collection = .ready (.ofEvents p shown)) := by
  obtain rfl := standing.rest_eq
  obtain ⟨claimed, reads⟩ := standing.loading (before, some read) (by simp)
  obtain ⟨beforeRead, readLog⟩ := reads read rfl
  obtain ⟨follows, ahead, prefixed, ready⟩ := claimed.install distinct beforeRead readLog
  refine ⟨⟨follows, Nat.zero_le 1, by simp⟩, ?_⟩
  rintro rfl
  rw [ready, List.prefix_nil.1 prefixed, List.append_nil]

/-- A load is given up. -/
theorem abandon {load : List Event × Option (List Event)}
    (standing : Standing p shown due (load ::ₘ loads) s) : Standing p shown due loads s.abandon := by
  obtain rfl := standing.rest_eq
  exact ⟨standing.follows.abandon, Nat.zero_le 1, by simp⟩

/-- An event is appended to the log. -/
theorem append (standing : Standing p shown due loads s) (e : Event) :
    Standing p shown (due ++ [e]) loads s := by
  refine ⟨standing.follows.append e, standing.once, fun load hload => ?_⟩
  obtain ⟨claimed, reads⟩ := standing.loading load hload
  refine ⟨claimed, fun read isRead => ?_⟩
  obtain ⟨beforeRead, readLog⟩ := reads read isRead
  rw [← List.append_assoc]
  exact ⟨beforeRead, readLog.trans (List.prefix_append _ [e])⟩

/-- The event that is due is shown. -/
theorem observe [DecidableEq κ] (replayable : p.Replayable) {e : Event}
    (standing : Standing p shown [e] loads s) (distinct : (Loaded.ids (shown ++ [e])).Nodup)
    (reads : p.reads e.kind) : Standing p (shown ++ [e]) [] loads (s.observe p e) := by
  refine ⟨standing.follows.observe replayable distinct reads, standing.once, fun load hload => ?_⟩
  obtain ⟨claimed, reads⟩ := standing.loading load hload
  refine ⟨claimed.observe e, fun read isRead => ?_⟩
  rw [List.append_nil]
  exact reads read isRead

end Standing

end Slot

/-! ### What is due -/

/-- What of the draws of a room is due: what the holder of its lock says, and nothing if there is
none. -/
def IsDue (tokens : Multiset Token) (room : RoomId) (due : List Event) : Prop :=
  due ∈ tokens.filterMap (Token.due? room) ∨ tokens.filterMap (Token.due? room) = 0 ∧ due = []

namespace IsDue

variable {tokens : Multiset Token} {room : RoomId} {number : Nat} {draws due due' : List Event}
  {t : Token}

/-- What is not the lock of a room tells nothing of it. -/
theorem cons_iff (silent : t.due? room = none) :
    IsDue (t ::ₘ tokens) room due ↔ IsDue tokens room due := by
  rw [IsDue, IsDue, Multiset.filterMap_cons_none _ _ silent]

/-- If nobody holds the lock of a room, nobody tells of it. -/
theorem filterMap_eq_zero (nobody : ∀ n draws due, Token.lock room n draws due ∉ tokens) :
    tokens.filterMap (Token.due? room) = 0 := by
  apply Multiset.eq_zero_of_forall_notMem
  intro told isTold
  obtain ⟨t, ht, tells⟩ := (Multiset.mem_filterMap _ _).1 isTold
  cases t with
  | lock r n draws due =>
    obtain rfl : r = room := by
      by_contra differs
      simp [Token.due?, differs] at tells
    exact nobody n draws due ht
  | handle | load | drawn => cases tells

/-- Nothing is due of a room whose lock nobody holds. -/
theorem nobody_iff (nobody : ∀ n draws due, Token.lock room n draws due ∉ tokens) :
    IsDue tokens room due ↔ due = [] := by
  rw [IsDue, filterMap_eq_zero nobody]
  simp

/-- Who holds the lock of a room tells what is due. -/
theorem lock_iff (alone : ∀ n draws due, Token.lock room n draws due ∉ tokens) :
    IsDue (.lock room number draws due ::ₘ tokens) room due' ↔ due' = due := by
  have tells : Token.due? room (.lock room number draws due) = some due := by simp [Token.due?]
  rw [IsDue, Multiset.filterMap_cons_some _ _ _ tells, filterMap_eq_zero alone]
  simp

end IsDue

/-- The tokens tell one thing of what is due in a room. -/
theorem LocksSound.existsUnique_isDue {l : RoomLocks} {tokens : Multiset Token}
    (sound : LocksSound l tokens) (room : RoomId) : ∃! due, IsDue tokens room due := by
  by_cases held : ∃ n draws due, Token.lock room n draws due ∈ tokens
  · obtain ⟨n, draws, due, isHeld⟩ := held
    obtain ⟨others, rfl⟩ := Multiset.exists_cons_of_mem isHeld
    have tells : ∀ due', IsDue (.lock room n draws due ::ₘ others) room due' ↔ due' = due :=
      fun due' => IsDue.lock_iff fun _ _ _ => sound.alone
    exact ⟨due, (tells due).2 rfl, fun due' isDue => (tells due').1 isDue⟩
  · have tells : ∀ due, IsDue tokens room due ↔ due = [] :=
      fun due => IsDue.nobody_iff fun n draws due isHeld => held ⟨n, draws, due, isHeld⟩
    exact ⟨[], (tells []).2 rfl, fun due isDue => (tells due).1 isDue⟩

/-! ### A cache -/

namespace Cache

open Projection

variable {ε : Type} {p : Projection EventId ε} {kind : EventKind} {make : Event → Option ε}
  {c c' : Cache p} {tokens tokens' : Multiset Token} {room : RoomId} {number : Nat}
  {events before fetched : List Event}

/-- A cache of the draws of a kind whose slots stand as the log and the tokens say. -/
def Stands (kind : EventKind) (tokens : Multiset Token) (events : List Event) (c : Cache p) : Prop :=
  ∀ room due, IsDue tokens room due → ∃ shown,
    p.eventsIn (.room room) events = shown ++ p.eventsIn (.room room) due ∧
      (c.slot (.room room)).Standing p shown (p.eventsIn (.room room) due)
        (tokens.filterMap (Token.load? kind room))

theorem stands_empty (events : List Event) : (∅ : Cache p).Stands kind 0 events := by
  intro room due isDue
  obtain rfl := (IsDue.nobody_iff (by simp)).1 isDue
  exact ⟨p.eventsIn (.room room) events, (List.append_nil _).symm, .empty⟩

/-- Tokens and events count only as far as they are about the draws of the kind. -/
theorem Stands.congr (stands : c.Stands kind tokens events) {events' : List Event}
    (slots : ∀ room, c'.slot (.room room) = c.slot (.room room))
    (sameEvents : ∀ room, p.eventsIn (.room room) events' = p.eventsIn (.room room) events)
    (loads : ∀ room, tokens'.filterMap (Token.load? kind room) =
      tokens.filterMap (Token.load? kind room))
    (dues : ∀ room due, IsDue tokens' room due → IsDue tokens room due) :
    c'.Stands kind tokens' events' := by
  intro room due isDue
  rw [slots, sameEvents, loads]
  exact stands room due (dues room due isDue)

/-- One room's slot changes, and with it what is known of its loads. -/
theorem Stands.change (stands : c.Stands kind tokens events) (room : RoomId)
    (others : ∀ other, other ≠ room → c'.slot (.room other) = c.slot (.room other))
    (loads : ∀ other, other ≠ room → tokens'.filterMap (Token.load? kind other) =
      tokens.filterMap (Token.load? kind other))
    (dues : ∀ other due, IsDue tokens' other due ↔ IsDue tokens other due)
    (changed : ∀ shown due, IsDue tokens room due →
      p.eventsIn (.room room) events = shown ++ p.eventsIn (.room room) due →
      (c.slot (.room room)).Standing p shown (p.eventsIn (.room room) due)
        (tokens.filterMap (Token.load? kind room)) →
      (c'.slot (.room room)).Standing p shown (p.eventsIn (.room room) due)
        (tokens'.filterMap (Token.load? kind room))) : c'.Stands kind tokens' events := by
  intro other due isDue
  have isDue' := (dues other due).1 isDue
  obtain ⟨shown, split, standing⟩ := stands other due isDue'
  refine ⟨shown, split, ?_⟩
  by_cases same : other = room
  · subst same
    exact changed shown due isDue' split standing
  · rw [others other same, loads other same]
    exact standing

/-! ### Loads -/

/-- What is known of loads, with one more of them. -/
theorem filterMap_load (kind : EventKind) (room other : RoomId) (before : List Event)
    (read : Option (List Event)) (tokens : Multiset Token) :
    (Token.load kind room before read ::ₘ tokens).filterMap (Token.load? kind other) =
      if other = room then (before, read) ::ₘ tokens.filterMap (Token.load? kind other)
      else tokens.filterMap (Token.load? kind other) := by
  split
  next same => exact Multiset.filterMap_cons_some _ _ _ (by simp [Token.load?, same])
  next differs => exact Multiset.filterMap_cons_none _ _ (by simp [Token.load?, Ne.symm differs])

/-- A call begins to load a room's draws. -/
theorem Stands.claim (stands : c.Stands kind tokens events)
    (unique : ∃! due, IsDue tokens room due) (unloaded : c.loaded? (.room room) = none)
    (idle : ¬ c.isPopulating (.room room)) :
    ∃ before, (c.claim (.room room)).Stands kind (.load kind room before none ::ₘ tokens) events := by
  have cold := collection_eq_cold unloaded idle
  obtain ⟨due, isDue, only⟩ := unique
  obtain ⟨before, split, -⟩ := stands room due isDue
  refine ⟨before, stands.change room (fun other differs => ?_) (fun other differs => ?_)
    (fun other due => IsDue.cons_iff rfl) fun shown due' isDue' split' standing => ?_⟩
  · rw [slot_claim, if_neg (by simpa using differs)]
  · rw [filterMap_load, if_neg differs]
  · rw [slot_claim, if_pos rfl, filterMap_load, if_pos rfl]
    obtain rfl := only due' isDue'
    obtain rfl := List.append_cancel_right (split.symm.trans split')
    exact standing.claim cold

/-- A call that loads a room's draws reads the log. -/
theorem Stands.read (stands : c.Stands kind (.load kind room before none ::ₘ tokens) events) :
    c.Stands kind (.load kind room before (some (p.eventsIn (.room room) events)) ::ₘ tokens)
      events := by
  refine stands.change room (fun _ _ => rfl) (fun other differs => ?_)
    (fun other due => by rw [IsDue.cons_iff rfl, IsDue.cons_iff rfl])
    fun shown due isDue split standing => ?_
  · rw [filterMap_load, filterMap_load, if_neg differs, if_neg differs]
  · rw [filterMap_load, if_pos rfl] at standing ⊢
    rw [split]
    exact standing.read

/-- A call installs a room's draws as it has read them; with nothing due that is all there is. -/
theorem Stands.install
    (stands : c.Stands kind (.load kind room before (some fetched) ::ₘ tokens) events)
    (distinct : (Loaded.ids events).Nodup) :
    (c.install (.room room) fetched).Stands kind tokens events ∧
      (IsDue tokens room [] → (c.install (.room room) fetched).loaded? (.room room) =
        some (.ofEvents p (p.eventsIn (.room room) events))) := by
  have distinctIn := ids_eventsIn_nodup p (.room room) distinct
  constructor
  · refine stands.change room (fun other differs => ?_) (fun other differs => ?_)
      (fun other due => (IsDue.cons_iff rfl).symm) fun shown due isDue split standing => ?_
    · rw [slot_install, if_neg (by simpa using differs)]
    · rw [filterMap_load, if_neg differs]
    · rw [slot_install, if_pos rfl]
      rw [filterMap_load, if_pos rfl] at standing
      rw [split] at distinctIn
      exact (standing.install distinctIn).1
  · intro isDue
    -- nothing is due, so what had been shown when the log was read was all of it
    obtain ⟨shown, split, standing⟩ := stands room [] ((IsDue.cons_iff rfl).2 isDue)
    rw [filterMap_load, if_pos rfl] at standing
    rw [split] at distinctIn
    rw [loaded?_eq_some, slot_install, if_pos rfl, (standing.install distinctIn).2 rfl, split]
    exact congrArg (fun x => Collection.ready (.ofEvents p x)) (List.append_nil shown).symm

/-- A call gives up the load of a room's draws. -/
theorem Stands.abandon {read : Option (List Event)}
    (stands : c.Stands kind (.load kind room before read ::ₘ tokens) events) :
    (c.abandon (.room room)).Stands kind tokens events := by
  refine stands.change room (fun other differs => ?_) (fun other differs => ?_)
    (fun other due => (IsDue.cons_iff rfl).symm) fun shown due isDue split standing => ?_
  · rw [slot_abandon, if_neg (by simpa using differs)]
  · rw [filterMap_load, if_neg differs]
  · rw [slot_abandon, if_pos rfl]
    rw [filterMap_load, if_pos rfl] at standing
    exact standing.abandon

/-- While nothing is due, what is loaded of a room's draws is all that is in the log. -/
theorem Stands.loaded_eq (stands : c.Stands kind tokens events) (isDue : IsDue tokens room [])
    {l : Loaded EventId ε} (loaded : c.loaded? (.room room) = some l) :
    l = .ofEvents p (p.eventsIn (.room room) events) := by
  obtain ⟨shown, split, standing⟩ := stands room [] isDue
  rw [split, show shown ++ p.eventsIn (.room room) [] = shown from List.append_nil shown]
  exact standing.follows.loaded_eq (loaded?_eq_some.1 loaded)

/-! ### Draws -/

/-- The holder of a room's lock learns of its draws and changes what is due; nobody else is
concerned. -/
theorem Stands.ofLock {known known' due due' : List Event}
    (alone : ∀ n draws due, Token.lock room n draws due ∉ tokens) {events' : List Event}
    (stands : c.Stands kind (.lock room number known due ::ₘ tokens) events)
    (others : ∀ other, other ≠ room → c'.slot (.room other) = c.slot (.room other) ∧
      p.eventsIn (.room other) events' = p.eventsIn (.room other) events)
    (changed : ∀ shown, p.eventsIn (.room room) events = shown ++ p.eventsIn (.room room) due →
      (c.slot (.room room)).Standing p shown (p.eventsIn (.room room) due)
        (tokens.filterMap (Token.load? kind room)) →
      ∃ shown', p.eventsIn (.room room) events' = shown' ++ p.eventsIn (.room room) due' ∧
        (c'.slot (.room room)).Standing p shown' (p.eventsIn (.room room) due')
          (tokens.filterMap (Token.load? kind room))) :
    c'.Stands kind (.lock room number known' due' ::ₘ tokens) events' := by
  intro other told isDue
  rw [Multiset.filterMap_cons_none _ _ rfl]
  by_cases same : other = room
  · subst same
    obtain rfl := (IsDue.lock_iff alone).1 isDue
    obtain ⟨shown, split, standing⟩ := stands other due ((IsDue.lock_iff alone).2 rfl)
    rw [Multiset.filterMap_cons_none _ _ rfl] at standing
    exact changed shown split standing
  -- the lock tells nothing of another room
  · have silent : ∀ known due, Token.due? other (.lock room number known due) = none :=
      fun known due => by simp [Token.due?, Ne.symm same]
    obtain ⟨shown, split, standing⟩ := stands other told
      ((IsDue.cons_iff (silent _ _)).2 ((IsDue.cons_iff (silent _ _)).1 isDue))
    rw [Multiset.filterMap_cons_none _ _ rfl] at standing
    rw [(others other same).1, (others other same).2]
    exact ⟨shown, split, standing⟩

/-- The holder of a room's lock appends a draw to the log. -/
theorem Stands.append (draws : p.IsDraws kind make) {known known' : List Event} {e : Event}
    (inRoom : e.room = room) (alone : ∀ n draws due, Token.lock room n draws due ∉ tokens)
    (stands : c.Stands kind (.lock room number known [] ::ₘ tokens) events) :
    c.Stands kind (.lock room number known' [e] ::ₘ tokens) (events ++ [e]) := by
  refine stands.ofLock alone (fun other differs => ⟨rfl, ?_⟩) fun shown split standing =>
    ⟨shown, ?_, ?_⟩
  · have outside : ¬ (e.kind = kind ∧ e.room = other) :=
      fun both => differs (both.2.symm.trans inRoom)
    rw [eventsIn_append, draws.eventsIn_singleton, if_neg outside, List.append_nil]
  · rw [eventsIn_append, split, show p.eventsIn (.room room) [] = [] from rfl, List.append_nil]
  · rw [draws.eventsIn_singleton]
    split
    · exact standing.append e
    · exact standing

/-- The draw that is due is shown to the cache of its kind. -/
theorem Stands.observe (draws : p.IsDraws kind make) {known : List Event} {e : Event}
    (isKind : e.kind = kind) (inRoom : e.room = room)
    (alone : ∀ n draws due, Token.lock room n draws due ∉ tokens)
    (distinct : (Loaded.ids events).Nodup)
    (stands : c.Stands kind (.lock room number known [e] ::ₘ tokens) events) :
    (c.observe e).Stands kind (.lock room number known [] ::ₘ tokens) events := by
  have own : p.eventsIn (.room room) [e] = [e] := by
    rw [draws.eventsIn_singleton, if_pos ⟨isKind, inRoom⟩]
  have isIn : p.isIn (.room room) e := draws.isIn_iff.2 ⟨isKind, inRoom⟩
  refine stands.ofLock alone (fun other differs => ⟨?_, rfl⟩) fun shown split standing =>
    ⟨shown ++ [e], ?_, ?_⟩
  · rw [slot_observe, if_neg]
    rw [draws.isIn_iff, inRoom]
    exact fun both => differs both.2.symm
  · rw [split, own]
    exact (List.append_nil _).symm
  · rw [own] at standing split
    rw [slot_observe, if_pos isIn]
    exact standing.observe draws.cached.replayable (split ▸ ids_eventsIn_nodup p _ distinct)
      (reads_of_isIn isIn)

/-- A draw of another kind is no longer due. -/
theorem Stands.settle (draws : p.IsDraws kind make) {known : List Event} {e : Event}
    (otherKind : e.kind ≠ kind) (alone : ∀ n draws due, Token.lock room n draws due ∉ tokens)
    (stands : c.Stands kind (.lock room number known [e] ::ₘ tokens) events) :
    c.Stands kind (.lock room number known [] ::ₘ tokens) events := by
  have none' : p.eventsIn (.room room) [e] = [] := by
    rw [draws.eventsIn_singleton, if_neg fun both => otherKind both.1]
  refine stands.ofLock alone (fun _ _ => ⟨rfl, rfl⟩) fun shown split standing => ⟨shown, ?_, ?_⟩
  · rw [split, none']
    rfl
  · rw [none'] at standing
    exact standing

/-- An event that is no draw of the kind does not concern the cache. -/
theorem observe_other (draws : p.IsDraws kind make) {e : Event} (otherKind : e.kind ≠ kind) :
    c.observe e = c := by
  rw [observe, if_neg]
  simpa [reads, draws.kinds] using otherKind

/-! ### Locks -/

/-- The lock of a room is taken, or let go of with nothing due. -/
theorem stands_lock_iff {known : List Event}
    (alone : ∀ n draws due, Token.lock room n draws due ∉ tokens) :
    c.Stands kind (.lock room number known [] ::ₘ tokens) events ↔ c.Stands kind tokens events := by
  have loads : ∀ other, (Token.lock room number known [] ::ₘ tokens).filterMap
      (Token.load? kind other) = tokens.filterMap (Token.load? kind other) :=
    fun other => Multiset.filterMap_cons_none _ _ rfl
  have dues : ∀ other due, IsDue (.lock room number known [] ::ₘ tokens) other due ↔
      IsDue tokens other due := by
    intro other due
    by_cases same : other = room
    · subst same
      rw [IsDue.lock_iff alone, IsDue.nobody_iff alone]
    · exact IsDue.cons_iff (by simp [Token.due?, Ne.symm same])
  constructor
  · intro stands
    exact stands.congr (fun _ => rfl) (fun _ => rfl) (fun other => (loads other).symm)
      fun other due => (dues other due).2
  · intro stands
    exact stands.congr (fun _ => rfl) (fun _ => rfl) loads
      fun other due => (dues other due).1

/-- A token that is neither a lock nor a load of the kind does not concern the cache. -/
theorem stands_cons_iff {t : Token} (noLock : ∀ room, t.due? room = none)
    (noLoad : ∀ room, t.load? kind room = none) :
    c.Stands kind (t ::ₘ tokens) events ↔ c.Stands kind tokens events := by
  have loads : ∀ other, (t ::ₘ tokens).filterMap (Token.load? kind other) =
      tokens.filterMap (Token.load? kind other) :=
    fun other => Multiset.filterMap_cons_none _ _ (noLoad other)
  constructor
  · intro stands
    exact stands.congr (fun _ => rfl) (fun _ => rfl) (fun other => (loads other).symm)
      fun other due => (IsDue.cons_iff (noLock other)).2
  · intro stands
    exact stands.congr (fun _ => rfl) (fun _ => rfl) loads
      fun other due => (IsDue.cons_iff (noLock other)).1

end Cache

end NoonDraw
