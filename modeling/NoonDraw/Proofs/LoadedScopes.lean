import NoonDraw.Proofs.ReplayOrder
import NoonDraw.Proofs.Transitions

/-!
# Loaded scopes are replays

A scope that is loaded from some events and then shown one more is in the very state that loading it
from all of them gives, whichever way the event was taken in (`Loaded.push_ofEvents`).  An event whose
identifier is already there changes nothing (`Loaded.push_seen`).

So a scope that is shown any events, in any order and with any repetitions, is what loading it afresh
gives, from the events it began with and the first that was shown with each new identifier
(`Loaded.pushAll_ofEvents`).  What such a load holds is put together in `Loaded.pushAll_replays`.
-/

namespace NoonDraw

namespace KeySet

variable {κ : Type} [Key κ] [DecidableEq κ]

theorem get?_foldl_add (keys : List κ) (s : KeySet κ) (k : κ) :
    (keys.foldl add s).get? k = if k ∈ keys then some () else s.get? k := by
  induction keys generalizing s with
  | nil => simp
  | cons key keys ih =>
    rw [List.foldl_cons, ih, add, Table.get?_insert]
    by_cases inRest : k ∈ keys
    · simp [inRest]
    · by_cases hk : k = key <;> simp [inRest, hk]

theorem get?_ofList (keys : List κ) (k : κ) :
    (ofList keys).get? k = if k ∈ keys then some () else none := by
  rw [ofList, get?_foldl_add, Table.get?_empty]

@[simp] theorem contains_ofList (keys : List κ) (k : κ) :
    (ofList keys).contains k = decide (k ∈ keys) := by
  rw [Table.contains, get?_ofList]
  by_cases h : k ∈ keys <;> simp [h]

end KeySet

namespace Loaded

variable {κ ε : Type} [Key κ] {p : Projection κ ε}

/-- The identifiers of some events. -/
abbrev ids (events : List Event) : List EventId := events.map Event.id

theorem mem_ids_sortByTime {id : EventId} {events : List Event} :
    id ∈ ids (Event.sortByTime events) ↔ id ∈ ids events :=
  ((Event.sortByTime_perm events).map Event.id).mem_iff

@[simp] theorem seen_ofEvents (events : List Event) (id : EventId) :
    (ofEvents p events).seen.contains id = decide (id ∈ ids events) := by
  rw [ofEvents, KeySet.contains_ofList]
  exact decide_eq_decide.2 mem_ids_sortByTime

/-- An event is in order among others iff none of them is later. -/
theorem isInOrder_sortByTime {e : Event} {events : List Event} :
    isInOrder e (Event.sortByTime events) = true ↔ ∀ x ∈ events, x.time ≤ e.time := by
  unfold isInOrder
  split
  next none =>
    have : events = [] := by
      have empty := List.getLast?_eq_none_iff.1 none
      simpa [empty] using (Event.sortByTime_perm events).symm
    simp [this]
  next last found =>
    obtain ⟨before, split⟩ := List.getLast?_eq_some_iff.1 found
    have ordered := Event.inOrder_sortByTime events
    rw [split, Event.inOrder_concat] at ordered
    have members : ∀ x, x ∈ events ↔ x ∈ before ∨ x = last := fun x => by
      rw [← Event.mem_sortByTime, split]
      simp
    constructor
    · intro lastLe x hx
      rcases (members x).1 hx with earlier | rfl
      · exact Instant.le_trans (ordered.2 x earlier) (by simpa using lastLe)
      · simpa using lastLe
    · intro all
      simpa using all last ((members last).2 (Or.inr rfl))

/-- An event whose identifier is there already is left out. -/
theorem push_seen {events : List Event} {e : Event} (seen : e.id ∈ ids events) :
    (ofEvents p events).push p e = (ofEvents p events, false) := by
  rw [push, seen_ofEvents, if_pos (by simpa using seen)]

/-- Taking in one more event gives what loading all of them gives. -/
theorem push_ofEvents {events : List Event} {e : Event} (new : e.id ∉ ids events)
    (reads : p.reads e.kind) :
    (ofEvents p events).push p e =
      (ofEvents p (events ++ [e]), !isInOrder e (Event.sortByTime events)) := by
  have seen : (ofEvents p events).seen.add e.id = (ofEvents p (events ++ [e])).seen := by
    apply Table.ext_get?
    intro id
    simp only [ofEvents, KeySet.add, Table.get?_insert, KeySet.get?_ofList, mem_ids_sortByTime]
    by_cases hid : id = e.id <;> simp [hid]
  rw [push, seen_ofEvents, if_neg (by simpa using new), seen]
  cases ordered : isInOrder e (Event.sortByTime events) with
  | true =>
    have notLater : ∀ x ∈ events, ∀ y ∈ [e], x.time ≤ y.time := by
      simpa using isInOrder_sortByTime.1 ordered
    have sorted : Event.sortByTime (events ++ [e]) = Event.sortByTime events ++ [e] := by
      rw [Event.sortByTime_append notLater]
      exact congrArg _ (Event.sortByTime_of_inOrder (List.pairwise_singleton _ e))
    simp only [ofEvents, ordered, if_true, sorted, Projection.fold_append, List.foldl_cons,
      List.foldl_nil, Projection.step, reads, Bool.not_true]
  | false =>
    simp only [ofEvents, ordered, Event.sortByTime_concat, Bool.not_false, Bool.false_eq_true,
      if_false]

/-! ### Where a late event is put -/

/-- Between the events that are not later and those that are, a late event is put. -/
theorem insertByTime_append {e : Event} {before after : List Event}
    (notLater : ∀ x ∈ before, x.time ≤ e.time) (later : ∀ x ∈ after, e.time < x.time) :
    insertByTime e (before ++ after) = before ++ e :: after := by
  have passes : ∀ x ∈ before, decide (x.time ≤ e.time) = true := by simpa using notLater
  rw [insertByTime, List.takeWhile_append_of_pos passes, List.dropWhile_append_of_pos passes]
  cases after with
  | nil => simp
  | cons x after =>
    have stops : ¬ x.time ≤ e.time := Instant.not_le.2 (later x List.mem_cons_self)
    simp [stops]

/-- Events in order of time are those that are not later than any given event, followed by those that
are. -/
theorem exists_parted {events : List Event} (ordered : Event.InOrder events) (e : Event) :
    ∃ before after, events = before ++ after ∧ (∀ x ∈ before, x.time ≤ e.time) ∧
      ∀ x ∈ after, e.time < x.time :=
  ⟨_, _, List.takeWhile_append_dropWhile.symm, fun x hx => by simpa using List.mem_takeWhile_imp hx,
    fun x => ordered.lt_of_mem_dropWhile⟩

/-! ### Events shown one after another -/

/-- The state after more events, one after another. -/
def pushAll (p : Projection κ ε) (l : Loaded κ ε) (events : List Event) : Loaded κ ε :=
  events.foldl (fun l e => (l.push p e).1) l

/-- Of the events whose identifiers are not among those of `known`, the first with each identifier. -/
def newcomers (known events : List Event) : List Event :=
  (events.filter fun e => e.id ∉ ids known).eraseDupsBy fun a b => a.id == b.id

theorem newcomers_cons_known {known events : List Event} {e : Event} (seen : e.id ∈ ids known) :
    newcomers known (e :: events) = newcomers known events := by
  rw [newcomers, List.filter_cons_of_neg (by simpa using seen), newcomers]

theorem newcomers_cons_new {known events : List Event} {e : Event} (new : e.id ∉ ids known) :
    newcomers known (e :: events) = e :: newcomers (known ++ [e]) events := by
  rw [newcomers, List.filter_cons_of_pos (by simpa using new), List.eraseDupsBy_cons,
    List.filter_filter, newcomers]
  congr 2
  -- both sides leave out what was known, and what repeats `e`
  refine List.filter_congr fun a _ => ?_
  simp [ids, Bool.and_comm]

/-- A scope that was loaded and then shown more events is as if it had been loaded from those it was
loaded from and the newcomers. -/
theorem pushAll_ofEvents (initial : List Event) {pushed : List Event}
    (reads : ∀ e ∈ pushed, p.reads e.kind) :
    (ofEvents p initial).pushAll p pushed = ofEvents p (initial ++ newcomers initial pushed) := by
  induction pushed generalizing initial with
  | nil => simp [pushAll, newcomers]
  | cons e pushed ih =>
    have readsRest : ∀ a ∈ pushed, p.reads a.kind := fun a ha => reads a (List.mem_cons_of_mem e ha)
    -- the first event is either left out, or one more that the scope might have been loaded from
    change ((ofEvents p initial).push p e).1.pushAll p pushed = _
    by_cases seen : e.id ∈ ids initial
    · rw [push_seen seen, newcomers_cons_known seen]
      exact ih initial readsRest
    · rw [push_ofEvents seen (reads e List.mem_cons_self), newcomers_cons_new seen]
      simpa using ih (initial ++ [e]) readsRest

/-- A loaded scope that is shown more events keeps up with a fresh load.  Its events are those it was
loaded from and the newcomers, in order of time and otherwise as they arrived; the identifiers it has
seen are theirs, and its table is their fold.  They are parted by any further event, so that a search
by bisection finds where a late one is put. -/
theorem pushAll_replays (initial pushed : List Event) (reads : ∀ e ∈ pushed, p.reads e.kind) :
    let l := (ofEvents p initial).pushAll p pushed
    l.events = Event.sortByTime (initial ++ newcomers initial pushed) ∧
      (∀ id, l.seen.contains id ↔ id ∈ ids l.events) ∧
      l.state = p.fold l.events ∧
      ∀ e, ∃ before after, l.events = before ++ after ∧ (∀ x ∈ before, x.time ≤ e.time) ∧
        (∀ x ∈ after, e.time < x.time) ∧ insertByTime e l.events = before ++ e :: after := by
  intro l
  have fresh : l = ofEvents p (initial ++ newcomers initial pushed) := pushAll_ofEvents initial reads
  rw [fresh]
  refine ⟨rfl, fun id => ?_, rfl, fun e => ?_⟩
  · rw [seen_ofEvents, decide_eq_true_iff]
    exact mem_ids_sortByTime.symm
  · obtain ⟨before, after, parted, notLater, later⟩ :=
      exists_parted (Event.inOrder_sortByTime (initial ++ newcomers initial pushed)) e
    refine ⟨before, after, parted, notLater, later, ?_⟩
    rw [← insertByTime_append notLater later, ← parted]
    rfl

/-- A user joins a room of the same number. -/
def joinAt (n : Nat) (seconds : Int) : Event :=
  { id := ⟨.ofNat n⟩, actor := ⟨"anna"⟩, room := ⟨.ofNat n⟩, kind := .roomJoined,
    time := .ofSeconds seconds }

/-- Shown are an event that ties with the newest, a late one, two with identifiers that are there
already, and another that ties. -/
theorem pushAll_replays_lateAndTied :
    let initial := [joinAt 1 20]
    let pushed := [joinAt 2 20, joinAt 3 15, joinAt 2 5, joinAt 1 30, joinAt 4 20]
    let l := (ofEvents .memberships initial).pushAll .memberships pushed
    (∀ e ∈ pushed, Projection.memberships.reads e.kind) ∧
      newcomers initial pushed = [joinAt 2 20, joinAt 3 15, joinAt 4 20] ∧
      l.events = [joinAt 3 15, joinAt 1 20, joinAt 2 20, joinAt 4 20] ∧
      l.events = Event.sortByTime (initial ++ newcomers initial pushed) ∧
      (∀ id, l.seen.contains id ↔ id ∈ ids l.events) ∧
      l.state = Projection.memberships.fold l.events := by
  intro initial pushed l
  have reads : ∀ e ∈ pushed, Projection.memberships.reads e.kind := by decide
  obtain ⟨events, seen, state, -⟩ := pushAll_replays (p := .memberships) initial pushed reads
  exact ⟨reads, by decide +kernel, by decide +kernel, events, seen, state⟩

end Loaded

end NoonDraw
