import NoonDraw.Proofs.SlotInvariant

/-!
# Entries that stand alone

The five projections change one entry at a time, by what the event makes of the entry that was there
(`Projection.IsLocal`).  So it makes no difference whether an event is applied to a whole table or to
a single entry that stands alone, which is how a slot keeps up the entries it has cached one by one:
whichever events it is shown, they stay those of the table (`Slot.Mirrors.observeAll`).

An event that has been applied leaves no trace of its first application once it is applied again.  So
a tail of events may be folded twice, whatever it creates, removes and creates again
(`Projection.IsCached.local_and_repeatable`).
-/

namespace NoonDraw

variable {κ ε : Type} [Key κ] {p : Projection κ ε} {transition : Event → Option ε → Option ε}

namespace Projection

/-- Whether an event changes nothing of a table but the entry of its key, and makes of that entry what
`transition` says, whatever else there is. -/
structure IsLocal (p : Projection κ ε) (transition : Event → Option ε → Option ε) : Prop where
  /-- An event without a key changes nothing. -/
  keyless : ∀ (state : Table κ ε) (e : Event), p.key e = none → p.apply state e = state
  /-- The entries of other keys stay as they are. -/
  other : ∀ (state : Table κ ε) (e : Event) (k : κ), p.key e ≠ some k →
    (p.apply state e).get? k = state.get? k
  /-- The entry of its key is worked out from the one before. -/
  own : ∀ (state : Table κ ε) (e : Event) (k : κ), p.key e = some k →
    (p.apply state e).get? k = transition e (state.get? k)
  /-- The same is made of an entry that stands alone. -/
  alone : ∀ (e : Event) (k : κ) (entry : Option ε), p.key e = some k →
    Slot.stepEntry p e k entry = transition e entry

theorem Lawful.isLocal [DecidableEq κ] (lawful : p.Lawful transition) : p.IsLocal transition where
  keyless state e keyless := by
    apply Table.ext_get?
    intro k
    simp [lawful.get?_apply, keyless]
  other state e k other := by rw [lawful.get?_apply, if_neg other]
  own state e k touches := by rw [lawful.get?_apply, if_pos touches]
  alone e k entry touches := by
    cases entry <;> simp [Slot.stepEntry, lawful.get?_apply, touches]

end Projection

namespace Slot

variable {s : Slot κ ε} {state : Table κ ε}

/-- Whether each entry that is cached by itself, also one that says there is nothing, is that of a
table. -/
def Mirrors (s : Slot κ ε) (state : Table κ ε) : Prop :=
  ∀ k entry, s.keys.get? k = some entry → entry = state.get? k

/-- The slot after some events, while the scope is not loaded. -/
def observeAll (p : Projection κ ε) (s : Slot κ ε) (events : List Event) : Slot κ ε :=
  events.foldl (fun s e => s.observeKey p e) s

/-- An event is shown to a slot that is not loaded, and applied to the table that its entries
mirror. -/
theorem Mirrors.observeKey (mirrors : s.Mirrors state) (isLocal : p.IsLocal transition) (e : Event) :
    (s.observeKey p e).Mirrors (p.apply state e) := by
  intro k entry found
  obtain ⟨-, -, ⟨other, cached⟩ | ⟨old, touches, cached, rfl⟩⟩ := get?_observeKey found
  · rw [isLocal.other state e k other]
    exact mirrors k entry cached
  · rw [isLocal.alone e k old touches, isLocal.own state e k touches, ← mirrors k old cached]

/-- Whichever events are shown to a slot that is not loaded, its entries stay those of the table. -/
theorem Mirrors.observeAll (mirrors : s.Mirrors state) (isLocal : p.IsLocal transition)
    (events : List Event) : (s.observeAll p events).Mirrors (events.foldl p.apply state) := by
  induction events generalizing s state with
  | nil => exact mirrors
  | cons e events ih => exact ih (mirrors.observeKey isLocal e)

end Slot

namespace Projection

/-- Each of the five projections changes one entry at a time, by a transition of that entry alone.  So
the entries that a slot caches one by one stay those of the table, whichever events it is shown.  And
a tail of events that is folded twice adds up to what it adds up to once. -/
theorem IsCached.local_and_repeatable (cached : p.IsCached) :
    (∃ transition, p.IsLocal transition) ∧
      (∀ (s : Slot κ ε) (state : Table κ ε) (events : List Event), s.Mirrors state →
        (s.observeAll p events).Mirrors (events.foldl p.apply state)) ∧
      ∀ s t : List Event, p.fold (s ++ t ++ t) = p.fold (s ++ t) := by
  classical
  obtain ⟨transition, lawful, -⟩ := cached.replayable
  have isLocal := lawful.isLocal
  refine ⟨⟨transition, isLocal⟩, fun s state events mirrors => mirrors.observeAll isLocal events,
    fun s t => ?_⟩
  exact cached.replayable.fold_skip s fun e he => he

/-- A user opens, joins or leaves a room, at a second. -/
def moveAt (kind : EventKind) (room seconds : Nat) : Event :=
  { id := ⟨.ofNat seconds⟩, actor := ⟨"anna"⟩, room := ⟨.ofNat room⟩, kind,
    time := .ofSeconds seconds }

/-- The user leaves the room and joins it again, joins and leaves another, and leaves a third without
having joined it. -/
theorem local_and_repeatable_rejoined :
    let opened := [moveAt .roomCreated 1 0]
    let rejoined := [moveAt .roomLeft 1 1, moveAt .roomJoined 1 2, moveAt .roomJoined 2 3,
      moveAt .roomLeft 2 4, moveAt .roomLeft 3 5]
    memberships.IsCached ∧ (∃ transition, memberships.IsLocal transition) ∧
      memberships.fold (opened ++ rejoined ++ rejoined) = memberships.fold (opened ++ rejoined) ∧
      memberships.fold (opened ++ rejoined) =
        (∅ : Table RoomId Membership).insert ⟨.ofNat 1⟩ ⟨⟨.ofNat 1⟩, .ofSeconds 2⟩ := by
  intro opened rejoined
  obtain ⟨isLocal, -, again⟩ := IsCached.memberships.local_and_repeatable
  exact ⟨.memberships, isLocal, again opened rejoined, by decide +kernel⟩

end Projection

end NoonDraw
