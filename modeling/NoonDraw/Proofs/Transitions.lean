import Mathlib.Tactic.Common
import NoonDraw.Cache.Slot
import NoonDraw.EventLog
import NoonDraw.Projection.Entities

/-!
# What caching rests on

Three properties of the five projections, and what follows from them for a fold of events.

* An event changes at most the entry of its key, by a transition of that entry alone
  (`Projection.Lawful`).
* A transition leaves no trace once it is made again later (`Overriding`).  So events that a fold
  meets again later may as well be left out, and folding a tail twice is folding it once
  (`Replayable.fold_skip`).
* The scope of an event is the part of the log in which a read finds it (`mem_eventsIn`).

`Projection.IsCached` names the five; `IsCached.replayable` has the first two properties of each.
-/

namespace NoonDraw.Projection

/-- The projections that are cached. -/
inductive IsCached : ∀ {κ ε : Type} [Key κ], Projection κ ε → Prop
  /-- The places of a room. -/
  | places : IsCached places
  /-- The rolls of a room. -/
  | rolls : IsCached rolls
  /-- The boosts of a room. -/
  | boosts : IsCached boosts
  /-- A room. -/
  | rooms : IsCached rooms
  /-- The memberships of a user. -/
  | memberships : IsCached memberships

/-- A transition that is made again later leaves no trace: making it twice is making it once, and
what it makes equal stays so whatever comes between. -/
structure Overriding {ε : Type} (transition : Event → Option ε → Option ε) : Prop where
  /-- Twice in a row is once. -/
  twice : ∀ e x, transition e (transition e x) = transition e x
  /-- Entries that an event makes equal are made equal by it after any other event too. -/
  between : ∀ e b x y, transition e x = transition e y →
    transition e (transition b x) = transition e (transition b y)

theorem placeTransition_overriding : Overriding placeTransition where
  twice e x := by cases h : e.kind <;> cases x <;> simp [placeTransition, h]
  between e b x y same := by
    cases he : e.kind <;> cases hb : b.kind <;> cases x <;> cases y <;>
      simp_all [placeTransition]

theorem rollTransition_overriding : Overriding rollTransition where
  twice e x := by cases h : e.kind <;> cases hp : e.place <;> simp [rollTransition, h, hp]
  between e b x y same := by
    cases he : e.kind <;> cases hp : e.place <;> simp_all [rollTransition]

theorem boostTransition_overriding : Overriding boostTransition where
  twice e x := by cases h : e.kind <;> cases hp : e.place <;> simp [boostTransition, h, hp]
  between e b x y same := by
    cases he : e.kind <;> cases hp : e.place <;> simp_all [boostTransition]

theorem membershipTransition_overriding : Overriding membershipTransition where
  twice e x := by cases h : e.kind <;> simp [membershipTransition, h]
  between e b x y same := by
    cases he : e.kind <;> cases hb : b.kind <;> simp_all [membershipTransition]

/-- What an event of a room does to its members, unless it opens the room. -/
def memberStep (e : Event) (members : KeySet UserId) : KeySet UserId :=
  match e.kind with
  | .roomJoined => members.add e.actor
  | .roomLeft => members.erase e.actor
  | _ => members

theorem get?_memberStep (e : Event) (members : KeySet UserId) (user : UserId) :
    (memberStep e members).get? user =
      if user = e.actor ∧ e.kind = .roomJoined then some ()
      else if user = e.actor ∧ e.kind = .roomLeft then none
      else members.get? user := by
  cases h : e.kind <;> by_cases hu : user = e.actor <;>
    simp [memberStep, h, hu, KeySet.add, Table.get?_insert, Table.get?_erase]

theorem roomTransition_eq (e : Event) (entry : Option Room) :
    roomTransition e entry =
      if e.kind = .roomCreated then some (newRoom e)
      else entry.map fun room => { room with members := memberStep e room.members } := by
  cases h : e.kind <;> cases entry <;> simp [roomTransition, memberStep, h]

theorem memberStep_twice (e : Event) (members : KeySet UserId) :
    memberStep e (memberStep e members) = memberStep e members := by
  apply Table.ext_get?
  intro user
  simp only [get?_memberStep]
  split
  · rfl
  · split <;> rfl

theorem memberStep_between (e b : Event) {s t : KeySet UserId}
    (same : memberStep e s = memberStep e t) :
    memberStep e (memberStep b s) = memberStep e (memberStep b t) := by
  apply Table.ext_get?
  intro user
  have known := congrArg (fun members => Table.get? members user) same
  simp only [get?_memberStep] at known ⊢
  split
  · rfl
  · split
    · rfl
    · simp_all

theorem roomTransition_overriding : Overriding roomTransition where
  twice e x := by
    simp only [roomTransition_eq]
    split
    · rfl
    · cases x <;> simp [memberStep_twice]
  between e b x y same := by
    simp only [roomTransition_eq] at same ⊢
    split at same
    case isTrue => simp_all
    case isFalse opens =>
      rw [if_neg opens, if_neg opens]
      split
      · rfl
      · cases x <;> cases y <;> simp_all
        exact memberStep_between e b same.2.2.2.2

/-! ### Folds that meet an event again -/

/-- An entry after some events. -/
def replay {ε : Type} (transition : Event → Option ε → Option ε) (events : List Event)
    (entry : Option ε) : Option ε :=
  events.foldl (fun entry e => transition e entry) entry

theorem replay_cons {ε : Type} (transition : Event → Option ε → Option ε) (e : Event)
    (events : List Event) (entry : Option ε) :
    replay transition (e :: events) entry = replay transition events (transition e entry) := rfl

theorem replay_concat {ε : Type} (transition : Event → Option ε → Option ε) (e : Event)
    (events : List Event) (entry : Option ε) :
    replay transition (events ++ [e]) entry = transition e (replay transition events entry) := by
  rw [replay, List.foldl_append]
  rfl

/-- What each of some events leaves true of an entry is true of it after them. -/
theorem forall_replay {ε : Type} {transition : Event → Option ε → Option ε} {P : ε → Prop}
    {events : List Event}
    (keeps : ∀ e ∈ events, ∀ entry : Option ε, (∀ x, entry = some x → P x) →
      ∀ x, transition e entry = some x → P x)
    {entry : Option ε} (before : ∀ x, entry = some x → P x) {x : ε}
    (found : replay transition events entry = some x) : P x := by
  induction events generalizing entry with
  | nil => exact before x found
  | cons e events ih =>
    have rest := fun a ha => keeps a (List.mem_cons_of_mem e ha)
    exact ih rest (keeps e List.mem_cons_self entry before) found

namespace Overriding

variable {ε : Type} {transition : Event → Option ε → Option ε}

/-- What an event makes equal it makes equal after any number of events. -/
theorem replay_between (overriding : Overriding transition) (e : Event) (events : List Event)
    (x y : Option ε) (same : transition e x = transition e y) :
    transition e (replay transition events x) = transition e (replay transition events y) := by
  induction events generalizing x y with
  | nil => exact same
  | cons b events ih => exact ih _ _ (overriding.between e b x y same)

/-- An event that is met again later may be left out. -/
theorem replay_skip (overriding : Overriding transition) {e : Event} {events : List Event}
    (again : e ∈ events) (entry : Option ε) :
    replay transition events (transition e entry) = replay transition events entry := by
  obtain ⟨before, after, rfl⟩ := List.append_of_mem again
  have same := overriding.replay_between e before _ _ (overriding.twice e entry)
  unfold replay at same ⊢
  simp only [List.foldl_append, List.foldl_cons, same]

/-- Events that are all met again later may be left out. -/
theorem replay_append_of_subset (overriding : Overriding transition) {first rest : List Event}
    (again : ∀ e ∈ first, e ∈ rest) (entry : Option ε) :
    replay transition (first ++ rest) entry = replay transition rest entry := by
  induction first generalizing entry with
  | nil => rfl
  | cons e first ih =>
    have inRest : ∀ a ∈ first, a ∈ rest := fun a ha => again a (List.mem_cons_of_mem e ha)
    calc replay transition (e :: first ++ rest) entry
        = replay transition (first ++ rest) (transition e entry) := rfl
      _ = replay transition rest (transition e entry) := ih inRest _
      _ = replay transition rest entry :=
        overriding.replay_skip (again e List.mem_cons_self) entry

end Overriding

section Replayable

variable {κ ε : Type} [Key κ] [DecidableEq κ] {p : Projection κ ε}

/-- An event changes at most the entry of its key, by a transition that leaves no trace once it is
made again. -/
def Replayable (p : Projection κ ε) : Prop :=
  ∃ transition, p.Lawful transition ∧ Overriding transition

theorem IsCached.replayable (cached : p.IsCached) : p.Replayable := by
  cases cached with
  | places => exact ⟨placeTransition, by convert places_lawful, placeTransition_overriding⟩
  | rolls => exact ⟨rollTransition, by convert rolls_lawful, rollTransition_overriding⟩
  | boosts => exact ⟨boostTransition, by convert boosts_lawful, boostTransition_overriding⟩
  | rooms => exact ⟨roomTransition, by convert rooms_lawful, roomTransition_overriding⟩
  | memberships =>
    exact ⟨membershipTransition, by convert memberships_lawful, membershipTransition_overriding⟩

/-- Events that a fold meets again later may be left out of it. -/
theorem Replayable.fold_skip (replayable : p.Replayable) (start : List Event)
    {first rest : List Event} (again : ∀ e ∈ first, e ∈ rest) :
    p.fold (start ++ first ++ rest) = p.fold (start ++ rest) := by
  obtain ⟨transition, lawful, overriding⟩ := replayable
  apply Table.ext_get?
  intro k
  rw [lawful.get?_fold, lawful.get?_fold]
  simp only [List.filter_append, List.append_assoc, List.foldl_append]
  rw [← List.foldl_append]
  refine overriding.replay_append_of_subset (fun e he => ?_) _
  obtain ⟨inFirst, touches⟩ := List.mem_filter.1 he
  exact List.mem_filter.2 ⟨again e inFirst, touches⟩

/-- An event leaves the entries of all other keys as they are. -/
theorem Replayable.get?_fold_concat_of_ne (replayable : p.Replayable) (events : List Event)
    {e : Event} {k : κ} (other : p.key e ≠ some k) :
    (p.fold (events ++ [e])).get? k = (p.fold events).get? k := by
  obtain ⟨transition, lawful, -⟩ := replayable
  rw [fold_append, List.foldl_cons, List.foldl_nil, lawful.get?_step]
  simp [other]

/-- What an event makes of an entry by itself is what it makes of it among all others. -/
theorem Replayable.stepEntry_fold (replayable : p.Replayable) (events : List Event) {e : Event}
    {k : κ} (reads : p.reads e.kind) (touches : p.key e = some k) :
    Slot.stepEntry p e k ((p.fold events).get? k) = (p.fold (events ++ [e])).get? k := by
  obtain ⟨transition, lawful, -⟩ := replayable
  rw [fold_append, List.foldl_cons, List.foldl_nil, lawful.get?_step, if_pos ⟨reads, touches⟩]
  cases (p.fold events).get? k <;> simp [Slot.stepEntry, lawful.get?_apply, touches]

end Replayable

/-! ### The events of a scope -/

section Scopes

variable {κ ε : Type} [Key κ] {p : Projection κ ε}

/-- The events of a scope that matter, in the order of the log. -/
def eventsIn (p : Projection κ ε) (scope : Scope) (events : List Event) : List Event :=
  EventLog.select events scope p.kinds

/-- Whether a part of the log is one that the projection divides it into. -/
def IsScope (p : Projection κ ε) (scope : Scope) : Prop := ∃ e, p.scope e = scope

/-- Whether an event is one of a scope that matter. -/
def isIn (p : Projection κ ε) (scope : Scope) (e : Event) : Bool :=
  p.reads e.kind && decide (p.scope e = scope)

/-- A read of a scope finds the events whose scope it is. -/
theorem IsCached.eventsIn_eq (cached : p.IsCached) {scope : Scope} (isScope : p.IsScope scope)
    (events : List Event) : p.eventsIn scope events = events.filter (p.isIn scope) := by
  obtain ⟨witness, rfl⟩ := isScope
  apply List.filter_congr
  intro e _
  cases cached <;>
    simp [isIn, Scope.holds, Event.matchesKinds, reads, Projection.places, Projection.rolls,
      Projection.boosts, Projection.rooms, Projection.memberships, roomKinds, Bool.and_comm]

theorem eventsIn_append (scope : Scope) (xs ys : List Event) :
    p.eventsIn scope (xs ++ ys) = p.eventsIn scope xs ++ p.eventsIn scope ys :=
  List.filter_append xs ys

theorem IsCached.eventsIn_singleton (cached : p.IsCached) {scope : Scope}
    (isScope : p.IsScope scope) (e : Event) :
    p.eventsIn scope [e] = if p.isIn scope e then [e] else [] := by
  rw [cached.eventsIn_eq isScope, List.filter_cons, List.filter_nil]

theorem reads_of_isIn {scope : Scope} {e : Event} (isIn : p.isIn scope e) : p.reads e.kind :=
  (Bool.and_eq_true_iff.1 isIn).1

/-- The events of a scope have identifiers of their own if all events do. -/
theorem ids_eventsIn_nodup (p : Projection κ ε) (scope : Scope) {events : List Event}
    (distinct : (events.map Event.id).Nodup) : ((p.eventsIn scope events).map Event.id).Nodup :=
  distinct.sublist (List.filter_sublist.map _)

end Scopes

end NoonDraw.Projection
