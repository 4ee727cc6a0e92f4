import NoonDraw.Cache
import NoonDraw.Proofs.SlotInvariant

/-!
# The log, and the slots of a cache

What accesses to the log do to its events, and one equation through `slot` for each function of a
cache: it changes one slot and leaves the others alone.  A cache agrees with a log if all its slots do
(`Cache.Agrees`); calls that have the cache to themselves keep it so, and so does every write that is
shown to the cache right after its append (`Cache.Agrees.observe`).
-/

namespace NoonDraw

namespace EventLog

variable {log log' : EventLog} {scope : Scope} {kinds : List EventKind} {error : StoreError}

theorem append_ok {e : Event} (appended : log.append e = (.ok (), log')) :
    log'.events = log.events ++ [e] := by
  cases met : log.outages.append log.accesses with
  | some error => simp [append, met] at appended
  | none =>
    simp only [append, met, Prod.mk.injEq, true_and] at appended
    rw [← appended]

theorem append_error {e : Event} (refused : log.append e = (.error error, log')) :
    log'.events = log.events := by
  cases met : log.outages.append log.accesses with
  | none => simp [append, met] at refused
  | some error =>
    simp only [append, met, Prod.mk.injEq] at refused
    rw [← refused.2]

theorem events_beginRead (log : EventLog) (scope : Scope) (kinds : List EventKind) :
    (log.beginRead scope kinds).2.events = log.events := by
  simp only [beginRead]
  split <;> rfl

theorem beginRead_ok {read : OpenRead} (begun : (log.beginRead scope kinds).1 = .ok read) :
    read.events = select log.events scope kinds := by
  cases met : log.outages.read log.accesses with
  | some error => simp [beginRead, met] at begun
  | none =>
    simp only [beginRead, met, Except.ok.injEq] at begun
    rw [← begun]

theorem events_endRead (log : EventLog) (read : OpenRead) :
    (log.endRead read).2.events = log.events := by
  simp only [endRead]
  split <;> rfl

theorem endRead_ok {read : OpenRead} {events : List Event}
    (ended : (log.endRead read).1 = .ok events) : events = read.events := by
  cases met : log.outages.read log.accesses with
  | some error => simp [endRead, met] at ended
  | none =>
    simp only [endRead, met, Except.ok.injEq] at ended
    exact ended.symm

end EventLog

namespace Cache

variable {κ ε : Type} [Key κ] {p : Projection κ ε}

/-! ### What each function does to a slot -/

theorem slot_setSlot (c : Cache p) (scope : Scope) (s : Slot κ ε) (other : Scope) :
    (c.setSlot scope s).slot other = if other = scope then s else c.slot other := by
  by_cases same : other = scope
  · simp [slot, setSlot, same]
  · simp [slot, setSlot, Table.get?_insert_of_ne _ _ same, same]

theorem slot_claim (c : Cache p) (scope other : Scope) :
    (c.claim scope).slot other =
      if other = scope then { c.slot scope with collection := .populating [] } else c.slot other :=
  slot_setSlot c scope _ other

theorem slot_install (c : Cache p) (scope : Scope) (fetched : List Event) (other : Scope) :
    (c.install scope fetched).slot other =
      if other = scope then (c.slot scope).install p fetched else c.slot other :=
  slot_setSlot c scope _ other

theorem slot_abandon (c : Cache p) (scope other : Scope) :
    (c.abandon scope).slot other =
      if other = scope then (c.slot scope).abandon else c.slot other := by
  rw [Cache.abandon]
  cases found : c.slots.get? scope with
  | some s =>
    have there : c.slot scope = s := by simp [slot, found]
    rw [there]
    exact slot_setSlot c scope s.abandon other
  | none =>
    by_cases same : other = scope
    · simp [slot, same, found, Slot.abandon]
    · simp [same]

theorem slot_record (c : Cache p) (scope : Scope) (key : κ) (begun : UInt64) (fetched : List Event)
    (other : Scope) :
    (c.record scope key begun fetched).slot other =
      if other = scope then
        (c.slot scope).record key begun fetched ((p.materialize fetched).get? key)
      else c.slot other :=
  slot_setSlot c scope _ other

theorem slot_observe (c : Cache p) (e : Event) (scope : Scope) :
    (c.observe e).slot scope =
      if p.isIn scope e then (c.slot scope).observe p e else c.slot scope := by
  unfold observe Projection.isIn
  by_cases reads : p.reads e.kind
  · rw [if_pos reads, slot_setSlot]
    by_cases same : p.scope e = scope
    · simp [reads, same]
    · simp [same, Ne.symm same]
  · simp [reads]

/-- A scope is claimed and loaded with what has been read. -/
theorem slot_load (c : Cache p) (scope : Scope) (fetched : List Event) (other : Scope) :
    ((c.claim scope).install scope fetched).slot other =
      if other = scope then
        Slot.install p { c.slot scope with collection := .populating [] } fetched
      else c.slot other := by
  rw [slot_install, slot_claim, slot_claim, if_pos rfl]
  split <;> rfl

/-- A scope is claimed, and the claim given up. -/
theorem slot_giveUp (c : Cache p) (scope other : Scope) :
    ((c.claim scope).abandon scope).slot other =
      if other = scope then
        Slot.abandon { c.slot scope with collection := .populating [] }
      else c.slot other := by
  rw [slot_abandon, slot_claim, slot_claim, if_pos rfl]
  split <;> rfl

theorem loaded?_eq_some {c : Cache p} {scope : Scope} {l : Loaded κ ε} :
    c.loaded? scope = some l ↔ (c.slot scope).collection = .ready l := by
  unfold loaded?
  split <;> simp_all

theorem isPopulating_iff {c : Cache p} {scope : Scope} :
    c.isPopulating scope = true ↔ ∃ observed, (c.slot scope).collection = .populating observed := by
  unfold isPopulating
  split <;> simp_all

theorem isPopulating_eq_false {c : Cache p} {scope : Scope} :
    c.isPopulating scope = false ↔
      ∀ observed, (c.slot scope).collection ≠ .populating observed := by
  rw [Bool.eq_false_iff, ne_eq, isPopulating_iff, not_exists]

/-- A scope that is neither loaded nor being loaded is cold. -/
theorem collection_eq_cold {c : Cache p} {scope : Scope} (unloaded : c.loaded? scope = none)
    (idle : ¬ c.isPopulating scope) : (c.slot scope).collection = .cold := by
  cases state : (c.slot scope).collection with
  | cold => rfl
  | populating observed => exact absurd (isPopulating_iff.2 ⟨observed, state⟩) idle
  | ready l => rw [loaded?_eq_some.2 state] at unloaded; cases unloaded

/-! ### Agreement with a log -/

/-- A cache all whose slots say of their scopes what the log says. -/
def Agrees (events : List Event) (c : Cache p) : Prop :=
  ∀ scope, p.IsScope scope → (c.slot scope).Agrees p (p.eventsIn scope events)

variable {c : Cache p} {events : List Event} {scope : Scope}

theorem agrees_empty (events : List Event) : (∅ : Cache p).Agrees events :=
  fun _ _ => Slot.agrees_empty _

theorem Agrees.loaded?_eq (agrees : c.Agrees events) (isScope : p.IsScope scope) {l : Loaded κ ε}
    (loaded : c.loaded? scope = some l) : l = .ofEvents p (p.eventsIn scope events) :=
  (agrees scope isScope).loaded l (loaded?_eq_some.1 loaded)

theorem Agrees.not_populating (agrees : c.Agrees events) (isScope : p.IsScope scope) :
    c.isPopulating scope = false :=
  isPopulating_eq_false.2 (agrees scope isScope).idle

theorem Agrees.lookup_eq (agrees : c.Agrees events) (isScope : p.IsScope scope) {key : κ}
    {entry : Option ε} (found : c.lookup scope key = some entry) :
    entry = (p.materialize (p.eventsIn scope events)).get? key :=
  (agrees scope isScope).lookup_eq found

theorem Agrees.miss (agrees : c.Agrees events) : c.miss.Agrees events := agrees

/-- Agreement is kept by a change of one slot that agrees again. -/
theorem Agrees.of_slot (agrees : c.Agrees events) (scope : Scope) {c' : Cache p} {s : Slot κ ε}
    (changed : ∀ other, c'.slot other = if other = scope then s else c.slot other)
    (again : p.IsScope scope → s.Agrees p (p.eventsIn scope events)) : c'.Agrees events := by
  intro other isScope
  rw [changed]
  split
  next same => exact same ▸ again (same ▸ isScope)
  next => exact agrees other isScope

theorem Agrees.giveUp (agrees : c.Agrees events) (unloaded : c.loaded? scope = none)
    (idle : c.isPopulating scope = false) : ((c.claim scope).abandon scope).Agrees events := by
  have cold := collection_eq_cold unloaded (by simp [idle])
  exact agrees.of_slot scope (slot_giveUp c scope) fun isScope => (agrees scope isScope).giveUp cold

/-- A scope is loaded by a call that has the cache to itself. -/
theorem Agrees.load (agrees : c.Agrees events) (scope : Scope) :
    ((c.claim scope).install scope (p.eventsIn scope events)).Agrees events ∧
      ((c.claim scope).install scope (p.eventsIn scope events)).loaded? scope =
        some (.ofEvents p (p.eventsIn scope events)) := by
  obtain ⟨again, ready⟩ := Slot.agrees_load (p := p) (s := c.slot scope) (p.eventsIn scope events)
  refine ⟨agrees.of_slot scope (slot_load c scope _) fun _ => again, ?_⟩
  rw [loaded?_eq_some, slot_load, if_pos rfl, ready]

variable [DecidableEq κ]

theorem Agrees.record (replayable : p.Replayable) (agrees : c.Agrees events) (scope : Scope)
    (key : κ) (begun : UInt64) :
    (c.record scope key begun (p.eventsIn scope events)).Agrees events :=
  agrees.of_slot scope (slot_record c scope key begun _) fun isScope =>
    (agrees scope isScope).record replayable key begun

/-- A cache goes on to agree with the log if every event is shown to it right after its append. -/
theorem Agrees.observe (cached : p.IsCached) (agrees : c.Agrees events) {e : Event}
    (distinct : (Loaded.ids (events ++ [e])).Nodup) : (c.observe e).Agrees (events ++ [e]) := by
  intro scope isScope
  have distinctIn := Projection.ids_eventsIn_nodup p scope distinct
  rw [Projection.eventsIn_append, cached.eventsIn_singleton isScope] at distinctIn ⊢
  rw [slot_observe]
  by_cases isIn : p.isIn scope e
  · rw [if_pos isIn] at distinctIn ⊢
    rw [if_pos isIn]
    exact (agrees scope isScope).observe cached.replayable distinctIn
      (Projection.reads_of_isIn isIn)
  · rw [if_neg isIn, if_neg isIn, List.append_nil]
    exact agrees scope isScope

end Cache

end NoonDraw
