import NoonDraw.Event
import NoonDraw.Table

/-!
# Projections

A projection says what the events of one scope add up to: a table of entities, one for each key. It
names the kinds of event it reads, the scope an event belongs to, the key an event touches, and how
one event changes the table.

## Main definitions

* `Scope`: the part of the log that one table covers.
* `Projection`: the rules of one kind of entity.
* `Projection.fold`: the table of events already in replay order.
* `Projection.materialize`: the table of events in any order: the stable sort by time, then the fold.
* `Projection.Lawful`: an event changes at most the entry of its key, and the new entry depends on
  nothing but the old one. This is what caching single keys rests on, and `Lawful.get?_fold` draws
  the consequence: an entry is the fold of `transition` over the events of its key.
-/

namespace NoonDraw

universe u v

/-- A part of the log: the events of a room, or those caused by a user. -/
inductive Scope where
  /-- The events of a room. -/
  | room (id : RoomId)
  /-- The events caused by a user, in any room. -/
  | user (id : UserId)
  deriving DecidableEq

namespace Scope

/-- Rooms come before users. -/
protected def compare : Scope → Scope → Ordering
  | room a, room b => compare a b
  | room _, user _ => .lt
  | user _, room _ => .gt
  | user a, user b => compare a b

instance : Key Scope where
  compare := Scope.compare
  eq_swap {a b} := by
    cases a <;> cases b <;> first | exact Std.OrientedOrd.eq_swap | rfl
  isLE_trans {a b c} hab hbc := by
    cases a <;> cases b <;> cases c <;>
      first | exact Std.TransOrd.isLE_trans hab hbc | contradiction | rfl
  compare_self {a} := by cases a <;> exact Std.ReflOrd.compare_self
  eq_of_compare {a b} h := by
    cases a <;> cases b <;>
      first | exact congrArg _ (Std.LawfulEqOrd.eq_of_compare h) | contradiction

/-- The text that identifies a scope. -/
def toText : Scope → String
  | room id => id.id.toText
  | user id => id.text

/-- Whether an event belongs to a scope. -/
def holds (s : Scope) (e : Event) : Bool :=
  match s with
  | room id => e.room = id
  | user id => e.actor = id

end Scope

/-- The rules by which events add up to entities of one kind. -/
structure Projection (κ : Type u) (ε : Type v) [Key κ] where
  /-- The name of the kind of entity. -/
  name : String
  /-- The kinds of event that matter. -/
  kinds : List EventKind
  /-- The scope of an event. -/
  scope : Event → Scope
  /-- The entity that an event touches, if any. -/
  key : Event → Option κ
  /-- The table after one more event. -/
  apply : Table κ ε → Event → Table κ ε

namespace Projection

variable {κ : Type u} {ε : Type v} [Key κ] (p : Projection κ ε)

/-- Whether a kind of event matters. -/
def reads (kind : EventKind) : Bool := p.kinds.contains kind

/-- The table after one more event, which changes nothing if its kind does not matter. -/
def step (state : Table κ ε) (e : Event) : Table κ ε :=
  if p.reads e.kind then p.apply state e else state

/-- The table that events in replay order add up to. -/
def fold (events : List Event) : Table κ ε := events.foldl p.step ∅

/-- The table that events in any order add up to. -/
def materialize (events : List Event) : Table κ ε := p.fold (Event.sortByTime events)

variable [DecidableEq κ]

/-- Each event changes at most the entry of its key, by a transition of that entry alone. -/
structure Lawful (transition : Event → Option ε → Option ε) : Prop where
  /-- The entries after an event. -/
  get?_apply : ∀ (state : Table κ ε) (e : Event) (k : κ),
    (p.apply state e).get? k =
      if p.key e = some k then transition e (state.get? k) else state.get? k

variable {p}

omit [DecidableEq κ] in
theorem fold_append (s t : List Event) : p.fold (s ++ t) = t.foldl p.step (p.fold s) :=
  List.foldl_append

theorem Lawful.get?_step {transition : Event → Option ε → Option ε} (hp : p.Lawful transition)
    (state : Table κ ε) (e : Event) (k : κ) :
    (p.step state e).get? k =
      if p.reads e.kind ∧ p.key e = some k then transition e (state.get? k) else state.get? k := by
  unfold step
  split
  next h => rw [hp.get?_apply]; simp [h]
  next h => simp [h]

/-- An entry of the table after some events is worked out from the events of its key alone. -/
theorem Lawful.get?_foldl {transition : Event → Option ε → Option ε} (hp : p.Lawful transition)
    (events : List Event) (state : Table κ ε) (k : κ) :
    (events.foldl p.step state).get? k =
      (events.filter fun e => p.reads e.kind && p.key e = some k).foldl
        (fun entry e => transition e entry) (state.get? k) := by
  induction events generalizing state with
  | nil => rfl
  | cons e es ih =>
    rw [List.foldl_cons, ih, hp.get?_step]
    by_cases h : p.reads e.kind ∧ p.key e = some k
    · simp [h.1, h.2]
    · rw [if_neg h, List.filter_cons_of_neg (by simpa using h)]

/-- The entry of a key is the fold of its events. -/
theorem Lawful.get?_fold {transition : Event → Option ε → Option ε} (hp : p.Lawful transition)
    (events : List Event) (k : κ) :
    (p.fold events).get? k =
      (events.filter fun e => p.reads e.kind && p.key e = some k).foldl
        (fun entry e => transition e entry) none := by
  rw [fold, hp.get?_foldl, Table.get?_empty]

end Projection

end NoonDraw
