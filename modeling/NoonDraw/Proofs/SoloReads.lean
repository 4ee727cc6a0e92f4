import NoonDraw.Proofs.EngineSpec

/-!
# Reads that have an engine to themselves

Such a read comes to its end unless the scope is being loaded, and what it answers depends on the slot
of its scope and on the log, whether the two agree or not.  What is cached goes before what is in the
log (`Slot.inFull`, `Slot.entry`); what is read off the log is kept (`Slot.readInFull`,
`Slot.lookedUp`).  Nothing but that slot changes in any cache (`Engine.CacheOf.Leaves`).
-/

namespace NoonDraw

variable {κ ε : Type} [Key κ] {p : Projection κ ε}

/-! ### The slot of a scope -/

namespace Slot

variable {events : List Event} {s : Slot κ ε} {key : κ}

/-- The scope in full, as it is answered. -/
def inFull (p : Projection κ ε) (events : List Event) (s : Slot κ ε) : Loaded κ ε :=
  match s.collection with
  | .ready loaded => loaded
  | .cold | .populating _ => .ofEvents p events

/-- The slot after that. -/
def readInFull (p : Projection κ ε) (events : List Event) (s : Slot κ ε) : Slot κ ε :=
  match s.collection with
  | .ready _ => s
  | .cold | .populating _ => install p { s with collection := .populating [] } events

/-- The entity with a key, as it is answered. -/
def entry (p : Projection κ ε) (events : List Event) (s : Slot κ ε) (key : κ) : Option ε :=
  (s.lookup key).getD ((p.materialize events).get? key)

/-- The slot after that. -/
def lookedUp (p : Projection κ ε) (events : List Event) (s : Slot κ ε) (key : κ) : Slot κ ε :=
  if (s.lookup key).isSome then s
  else s.record key s.generation events ((p.materialize events).get? key)

theorem readInFull_idle : ∀ observed, (s.readInFull p events).collection ≠ .populating observed := by
  intro observed
  unfold readInFull
  cases state : s.collection with
  | ready l => simp [state]
  | cold | populating => simp [(agrees_load (p := p) (s := s) events).2]

theorem lookedUp_collection : (s.lookedUp p events key).collection = s.collection := by
  unfold lookedUp record
  split
  · rfl
  · split <;> rfl

/-- Of a slot that agrees with the log, what the log says is answered. -/
theorem Agrees.inFull_eq (agrees : Agrees p events s) : s.inFull p events = .ofEvents p events := by
  unfold inFull
  cases state : s.collection with
  | ready l => exact agrees.loaded l state
  | cold | populating => rfl

theorem Agrees.readInFull (agrees : Agrees p events s) : Agrees p events (s.readInFull p events) := by
  unfold Slot.readInFull
  cases s.collection with
  | ready l => exact agrees
  | cold | populating => exact (agrees_load events).1

theorem Agrees.entry_eq (agrees : Agrees p events s) :
    s.entry p events key = (p.materialize events).get? key := by
  unfold entry
  cases found : s.lookup key with
  | none => rfl
  | some entry => exact agrees.lookup_eq found

theorem Agrees.lookedUp [DecidableEq κ] (replayable : p.Replayable) (agrees : Agrees p events s)
    (key : κ) : Agrees p events (s.lookedUp p events key) := by
  unfold Slot.lookedUp
  split
  · exact agrees
  · exact agrees.record replayable key s.generation

end Slot

theorem Cache.inFull_slot {c : Cache p} {scope : Scope} {events : List Event} :
    (c.slot scope).inFull p events = (c.loaded? scope).getD (.ofEvents p events) := by
  unfold Slot.inFull loaded?
  cases (c.slot scope).collection <;> rfl

namespace Engine

section

variable {e e' : Engine} {c : CacheOf p} {scope : Scope} {s : Slot κ ε} {β : Type}

/-- An engine after a read: the log has been accessed, and the slot of a scope may have changed. -/
def CacheOf.Leaves (c : CacheOf p) (scope : Scope) (e : Engine) (s : Slot κ ε) (e' : Engine) : Prop :=
  ∃ cache log, e' = { c.set e cache with log } ∧ SameLog e.log log ∧
    ∀ other, cache.slot other = if other = scope then s else (c.get e).slot other

/-- A read that finds what it asks for leaves all as it was. -/
theorem CacheOf.leaves_same (proper : c.Proper) :
    c.Leaves scope e ((c.get e).slot scope) e := by
  refine ⟨c.get e, e.log, by rw [proper.set_get], ⟨rfl, rfl, rfl⟩, fun other => ?_⟩
  split
  next same => rw [same]
  next => rfl

/-- What is read off a scope while nobody is loading it. -/
theorem run_readLoaded (proper : c.Proper) (ungated : e.log.gated = false)
    (idle : (c.get e).isPopulating scope = false) (view : Loaded κ ε → β) :
    ∃ r e' s, (readLoaded c scope view).run e = (some r, e') ∧ c.Leaves scope e s e' ∧
      (r = .ok (view (((c.get e).slot scope).inFull p (p.eventsIn scope e.log.events))) ∧
          s = ((c.get e).slot scope).readInFull p (p.eventsIn scope e.log.events) ∨
        ¬ e.Reliable ∧ (∃ cause, r = .error cause) ∧ s = (c.get e).slot scope) := by
  cases loaded : (c.get e).loaded? scope with
  | some l =>
    have ready := Cache.loaded?_eq_some.1 loaded
    refine ⟨_, _, _, run_readLoaded_ready loaded view, CacheOf.leaves_same proper, .inl ⟨?_, ?_⟩⟩
    · simp only [Slot.inFull, ready]
    · simp only [Slot.readInFull, ready]
  | none =>
    have cold := Cache.collection_eq_cold loaded (by simp [idle])
    obtain ⟨log, same, ran | ⟨unreliable, cause, ran⟩⟩ :=
      run_readLoaded_cold proper ungated loaded idle view
    · refine ⟨_, _, _, ran, ⟨_, log, rfl, same, Cache.slot_load _ scope _⟩, .inl ⟨?_, ?_⟩⟩
      · simp only [Slot.inFull, cold]
      · simp only [Slot.readInFull, cold]
    · refine ⟨_, _, _, ran, ⟨_, log, rfl, same, Cache.slot_giveUp _ scope⟩,
        .inr ⟨unreliable, ⟨cause, rfl⟩, ?_⟩⟩
      rw [Slot.abandon, ← cold]

/-- What a look-up of a key finds. -/
theorem run_readEntry (proper : c.Proper) (ungated : e.log.gated = false) (scope : Scope) (key : κ) :
    ∃ r e' s, (readEntry c scope key).run e = (some r, e') ∧ c.Leaves scope e s e' ∧
      (r = .ok (((c.get e).slot scope).entry p (p.eventsIn scope e.log.events) key) ∧
          s = ((c.get e).slot scope).lookedUp p (p.eventsIn scope e.log.events) key ∨
        ¬ e.Reliable ∧ (∃ cause, r = .error cause) ∧ s = (c.get e).slot scope) := by
  cases found : (c.get e).lookup scope key with
  | some entry =>
    have cached : ((c.get e).slot scope).lookup key = some entry := found
    refine ⟨_, _, _, run_readEntry_cached found, CacheOf.leaves_same proper, .inl ⟨?_, ?_⟩⟩
    · rw [Slot.entry, cached, Option.getD_some]
    · rw [Slot.lookedUp, cached, Option.isSome_some, if_pos rfl]
  | none =>
    have missing : ((c.get e).slot scope).lookup key = none := found
    obtain ⟨log, same, ran | ⟨unreliable, cause, ran⟩⟩ := run_readEntry_missing proper ungated found
    · refine ⟨_, _, _, ran, ⟨_, log, rfl, same, Cache.slot_record _ scope key _ _⟩, .inl ⟨?_, ?_⟩⟩
      · rw [Slot.entry, missing, Option.getD_none]
      · rw [Slot.lookedUp, missing]
        rfl
    · refine ⟨_, _, _, ran, ⟨_, log, rfl, same, fun other => ?_⟩,
        .inr ⟨unreliable, ⟨cause, rfl⟩, rfl⟩⟩
      split
      next same => rw [same]; rfl
      next => rfl

end

end Engine

end NoonDraw
