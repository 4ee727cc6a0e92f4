import Mathlib.Data.Fin.VecNotation
import NoonDraw.Proofs.ReplayOrder
import NoonDraw.Proofs.Transitions

/-!
# Replay in another order

Events tie if they stand at the same instant, are of kinds that a projection reads, and touch the
same key (`Projection.Tied`).  Of the order in which events are given, only that of events that tie
counts: the same events in any other order in which these stand as they did add up to the same
(`IsCached.materialize_reorder`).

An entry is made by the events that touch its key, and these are replayed in order of time.  So all
that is needed of a list is what it holds for each key at each instant, in which order
(`Lawful.materialize_congr`).
-/

namespace NoonDraw

namespace Event

/-- Events with each of them moved to the place that a permutation gives it. -/
def reorder (events : List Event) (σ : Equiv.Perm (Fin events.length)) : List Event :=
  (List.finRange events.length).map fun i => events[σ.symm i]

/-- A list moved about holds the same events of a class in the same order, if no two of the class
change places. -/
theorem filter_reorder {q : Event → Bool} {events : List Event}
    {σ : Equiv.Perm (Fin events.length)}
    (keeps : ∀ i j, i < j → q events[i] → q events[j] → σ i < σ j) :
    (reorder events σ).filter q = events.filter q := by
  have size : events.length = (reorder events σ).length := by simp [reorder]
  refine (filter_eq_of_equiv (σ.trans (finCongr size)) (fun i => ?_) keeps).symm
  have moved : (reorder events σ)[σ.trans (finCongr size) i] = events[σ.symm (σ i)] := by
    simp only [reorder, Fin.getElem_fin, List.getElem_map, List.getElem_finRange]
    rfl
  simpa only [σ.symm_apply_apply] using moved.symm

end Event

namespace Projection

variable {κ ε : Type} [Key κ] [DecidableEq κ] {p : Projection κ ε}

omit [DecidableEq κ] in
/-- Whether two events that stand at the same instant are of kinds that matter and touch the same
key. -/
structure Tied (p : Projection κ ε) (a b : Event) : Prop where
  /-- They stand at the same instant. -/
  time : a.time = b.time
  /-- The first matters. -/
  reads : p.reads a.kind
  /-- So does the second. -/
  reads' : p.reads b.kind
  /-- They touch a key. -/
  touches : (p.key a).isSome
  /-- It is the same for both. -/
  key : p.key a = p.key b

instance (p : Projection κ ε) (a b : Event) : Decidable (p.Tied a b) :=
  decidable_of_iff (a.time = b.time ∧ p.reads a.kind ∧ p.reads b.kind ∧ (p.key a).isSome ∧
      p.key a = p.key b)
    ⟨fun ⟨time, reads, reads', touches, key⟩ => ⟨time, reads, reads', touches, key⟩,
      fun tied => ⟨tied.time, tied.reads, tied.reads', tied.touches, tied.key⟩⟩

/-- The events that matter and touch a key, in the order given. -/
def touching (p : Projection κ ε) (k : κ) (events : List Event) : List Event :=
  events.filter fun e => p.reads e.kind && decide (p.key e = some k)

/-- Two lists add up to the same if they hold the same events for each key at each instant, in the
same order. -/
theorem Lawful.materialize_congr {transition : Event → Option ε → Option ε}
    (lawful : p.Lawful transition) {xs ys : List Event}
    (same : ∀ k t, Event.atTime t (p.touching k xs) = Event.atTime t (p.touching k ys)) :
    p.materialize xs = p.materialize ys := by
  apply Table.ext_get?
  intro k
  have sorted : p.touching k (Event.sortByTime xs) = p.touching k (Event.sortByTime ys) := by
    rw [touching, touching, Event.filter_sortByTime, Event.filter_sortByTime]
    exact Event.sortByTime_eq_iff.2 (same k)
  rw [materialize, materialize, lawful.get?_fold, lawful.get?_fold]
  exact congrArg (List.foldl _ none) sorted

/-- Events may be given in any order in which those that tie stand as they did. Events of different
keys, of kinds that do not matter, and events without a key never tie, whatever their instants. -/
theorem IsCached.materialize_reorder (cached : p.IsCached) (events : List Event)
    (σ : Equiv.Perm (Fin events.length))
    (keeps : ∀ i j, i < j → p.Tied events[i] events[j] → σ i < σ j) :
    p.materialize (Event.reorder events σ) = p.materialize events := by
  obtain ⟨transition, lawful, -⟩ := cached.replayable
  refine lawful.materialize_congr fun k t => ?_
  simp only [Event.atTime, touching, List.filter_filter]
  apply Event.filter_reorder
  intro i j before hi hj
  simp only [Bool.and_eq_true, decide_eq_true_eq] at hi hj
  obtain ⟨timeI, readsI, keyI⟩ := hi
  obtain ⟨timeJ, readsJ, keyJ⟩ := hj
  have touches : (p.key events[i]).isSome := by rw [keyI]; rfl
  exact keeps i j before ⟨timeI.trans timeJ.symm, readsI, readsJ, touches, keyI.trans keyJ.symm⟩

/-- At one instant a room is opened, joined and given a place, and another room is opened. -/
def openedTogether : List Event :=
  [{ id := ⟨.ofNat 1⟩, actor := ⟨"anna"⟩, room := ⟨.ofNat 1⟩, kind := .roomCreated,
      time := default, payload := "lunch" },
    { id := ⟨.ofNat 2⟩, actor := ⟨"bert"⟩, room := ⟨.ofNat 1⟩, kind := .roomJoined,
      time := default },
    { id := ⟨.ofNat 3⟩, actor := ⟨"anna"⟩, room := ⟨.ofNat 1⟩, kind := .placeCreated,
      time := default, place := some ⟨.ofNat 4⟩, payload := "pizza" },
    { id := ⟨.ofNat 5⟩, actor := ⟨"carl"⟩, room := ⟨.ofNat 6⟩, kind := .roomCreated,
      time := default, payload := "supper" }]

/-- The other room comes first, and the place before the user who joins. -/
def apart : Equiv.Perm (Fin 4) where
  toFun := ![1, 3, 2, 0]
  invFun := ![3, 0, 2, 1]
  left_inv i := by revert i; decide
  right_inv i := by revert i; decide

/-- Only the opening of the first room and its joining tie, and they do not change places. -/
theorem materialize_reorder_openedTogether :
    (∀ i j, i < j → rooms.Tied openedTogether[i] openedTogether[j] → apart i < apart j) ∧
      rooms.materialize (Event.reorder openedTogether apart) =
        rooms.materialize openedTogether := by
  have keeps : ∀ i j, i < j → rooms.Tied openedTogether[i] openedTogether[j] →
      apart i < apart j := by decide
  exact ⟨keeps, IsCached.rooms.materialize_reorder openedTogether apart keeps⟩

end Projection

end NoonDraw
