import Mathlib.Data.List.Induction
import NoonDraw.Engine.Reads
import NoonDraw.Proofs.CacheInvariant
import NoonDraw.Proofs.Crowd

/-!
# Writers

Any number of writes that go on at once, as a crowd whose schedule says who takes the next turn.  The
first turn of a writer is its append; each of the following shows its event to one more cache.  So the
events reach the log in the order of the first turns, and each cache in the order of a later turn
(`shownTo`).

`Written` says what the writers have done after their turns in a schedule; every turn keeps it so
(`Written.step`), hence every schedule leads there (`writeAll_written`).  Once all writes have
returned, each cache has been shown what was appended, in an order of its own
(`Written.shown_perm`).
-/

namespace NoonDraw.Engine

/-! ### Turns -/

/-- The members that take their turn number `k` while a schedule goes on, in order, if `before` has
been scheduled already. -/
def turnsAfter (k : Nat) : List Nat → List Nat → List Nat
  | _, [] => []
  | before, i :: rest =>
    (if before.count i = k then [i] else []) ++ turnsAfter k (before ++ [i]) rest

/-- The members in the order in which they take their turn number `k`, counted from zero. -/
def turns (k : Nat) (schedule : List Nat) : List Nat := turnsAfter k [] schedule

section Turns

variable {k i : Nat}

theorem turnsAfter_concat (k i : Nat) (before schedule : List Nat) :
    turnsAfter k before (schedule ++ [i]) =
      turnsAfter k before schedule ++ if (before ++ schedule).count i = k then [i] else [] := by
  induction schedule generalizing before with
  | nil => simp [turnsAfter]
  | cons j rest ih =>
    simp only [List.cons_append, turnsAfter, ih, List.append_assoc, List.nil_append]

@[simp] theorem turns_nil : turns k [] = [] := rfl

theorem turns_concat (k i : Nat) (schedule : List Nat) :
    turns k (schedule ++ [i]) = turns k schedule ++ if schedule.count i = k then [i] else [] :=
  turnsAfter_concat k i [] schedule

/-- A member has taken its turn number `k` iff it has been scheduled more often than that. -/
theorem mem_turns {schedule : List Nat} : i ∈ turns k schedule ↔ k < schedule.count i := by
  induction schedule using List.reverseRecOn with
  | nil => simp
  | append_singleton schedule j ih =>
    rw [turns_concat, List.mem_append, ih, List.count_append]
    by_cases same : i = j
    · subst same
      by_cases now : schedule.count i = k <;> simp [now]
      omega
    · have other : ¬ i ∈ (if schedule.count j = k then [j] else []) := by
        split <;> simp [same]
      simp [other, Ne.symm same]

theorem nodup_turns (k : Nat) (schedule : List Nat) : (turns k schedule).Nodup := by
  induction schedule using List.reverseRecOn with
  | nil => simp
  | append_singleton schedule j ih =>
    rw [turns_concat]
    split
    next now =>
      refine List.nodup_append.2 ⟨ih, List.nodup_singleton j, ?_⟩
      rintro a ha b hb rfl
      -- who takes the turn now has not taken it before
      have taken := mem_turns.1 ha
      rw [List.mem_singleton.1 hb] at taken
      omega
    next => simpa using ih

end Turns

/-! ### Writers -/

/-- A write, as a member of a crowd. -/
def writer (event : Event) : Process Engine Unit := (ExceptT.run (store event)).discard

/-- Some writes, after their turns in the order of a schedule. -/
def writeAll (e : Engine) (events : List Event) (schedule : List Nat) : Crowd Engine :=
  schedule.foldl Crowd.step ⟨e, events.map writer⟩

theorem discard_steps {α : Type} (acts : List (Engine → Engine)) (a : α) :
    ((Process.steps acts).bind fun _ => .done a).discard = Process.steps acts := by
  rw [Process.discard, Process.bind_bind]
  exact Process.bind_done _

/-- A write appends its event and then shows it to the caches, unless the append failed. -/
theorem writer_eq (event : Event) :
    writer event = .await (fun _ => true) (fun e => { e with log := (e.log.append event).2 })
      (fun e => match (e.log.append event).1 with
        | .ok () => .steps (observers event)
        | .error _ => .done ()) [] := by
  refine congrArg (fun next => Process.await _ _ next []) (funext fun e => ?_)
  cases met : (e.log.append event).1 with
  | error cause =>
    simp only [met]
    rfl
  | ok =>
    simp only [met]
    exact discard_steps (observers event) (Except.ok () : Except Failure Unit)

/-! ### The order in which events are shown -/

/-- The events that were appended, in the order in which their writers took turn number `k`. -/
def takenAt (events appended : List Event) (k : Nat) (schedule : List Nat) : List Event :=
  ((turns k schedule).filterMap fun i => events[i]?).filter fun e => decide (e ∈ appended)

/-- The events that were appended, in the order in which the observer of a number was shown them.  A
writer's turn number 0 is its append; after that come the observers. -/
def shownTo (events appended : List Event) (schedule : List Nat) (observer : Nat) : List Event :=
  takenAt events appended (observer + 1) schedule

section Taken

variable {events appended : List Event} {k i : Nat} {schedule : List Nat} {e : Event}

theorem mem_takenAt :
    e ∈ takenAt events appended k schedule ↔
      e ∈ appended ∧ ∃ i, events[i]? = some e ∧ k < schedule.count i := by
  simp only [takenAt, List.mem_filter, List.mem_filterMap, mem_turns, decide_eq_true_eq]
  constructor
  · rintro ⟨⟨i, late, found⟩, isAppended⟩
    exact ⟨isAppended, i, found, late⟩
  · rintro ⟨isAppended, i, found, late⟩
    exact ⟨⟨i, late, found⟩, isAppended⟩

theorem takenAt_concat (events appended : List Event) (k i : Nat) (schedule : List Nat) :
    takenAt events appended k (schedule ++ [i]) = takenAt events appended k schedule ++
      if schedule.count i = k then events[i]?.toList.filter (fun e => decide (e ∈ appended))
      else [] := by
  rw [takenAt, turns_concat, List.filterMap_append, List.filter_append, takenAt]
  congr 1
  split
  · cases found : events[i]? <;> simp [found]
  · simp

/-- An event that nobody has taken that turn with makes no difference. -/
theorem takenAt_appended (new : ∀ i, events[i]? = some e → schedule.count i ≤ k) :
    takenAt events (appended ++ [e]) k schedule = takenAt events appended k schedule := by
  apply List.filter_congr
  intro a ha
  obtain ⟨i, taken, found⟩ := List.mem_filterMap.1 ha
  have other : a ≠ e := by
    rintro rfl
    exact absurd (new i found) (Nat.not_le.2 (mem_turns.1 taken))
  simp [other]

theorem eq_of_getElem? (distinct : events.Nodup) {j : Nat} (hi : events[i]? = some e)
    (hj : events[j]? = some e) : i = j := by
  obtain ⟨hi', rfl⟩ := List.getElem?_eq_some_iff.1 hi
  obtain ⟨hj', same⟩ := List.getElem?_eq_some_iff.1 hj
  exact ((distinct.getElem_inj_iff).1 same).symm

theorem nodup_takenAt (distinct : events.Nodup) : (takenAt events appended k schedule).Nodup := by
  refine List.Nodup.filter _ (List.Nodup.filterMap ?_ (nodup_turns k schedule))
  exact fun i j e hi hj => eq_of_getElem? distinct hi hj

end Taken

/-- An engine whose caches have been shown some events, each cache in an order of its own. -/
def withShown (e : Engine) (shown : Nat → List Event) : Engine :=
  { e with
    places := (shown 0).foldl Cache.observe e.places
    rolls := (shown 1).foldl Cache.observe e.rolls
    boosts := (shown 2).foldl Cache.observe e.boosts
    rooms := (shown 3).foldl Cache.observe e.rooms
    memberships := (shown 4).foldl Cache.observe e.memberships }

theorem withShown_congr {e : Engine} {shown shown' : Nat → List Event}
    (same : ∀ k < 5, shown k = shown' k) : e.withShown shown = e.withShown shown' := by
  simp only [withShown, same 0 (by decide), same 1 (by decide), same 2 (by decide),
    same 3 (by decide), same 4 (by decide)]

/-- An observer shows an event to its own cache. -/
theorem observer_withShown {e : Engine} {event : Event} {k : Nat} {act : Engine → Engine}
    {rest : List (Engine → Engine)} (next : (observers event).drop k = act :: rest)
    {shown shown' : Nat → List Event} (log : EventLog)
    (one : ∀ j < 5, shown' j = shown j ++ if k = j then [event] else []) :
    act { e.withShown shown with log } = { e.withShown shown' with log } := by
  have now := withShown_congr (e := e) one
  rw [now]
  match k with
  | 0 | 1 | 2 | 3 | 4 =>
    obtain ⟨rfl, -⟩ := List.cons.inj next
    simp [withShown, CacheOf.modify, placeCache, rollCache, boostCache, roomCache,
      membershipCache]
  | k + 5 => simp [observers] at next

/-! ### What the writers have done -/

/-- What is left of a write once it has taken so many turns. -/
def writerAfter (appended : List Event) (event : Event) : Nat → Process Engine Unit
  | 0 => writer event
  | n + 1 => .steps (if event ∈ appended then (observers event).drop n else [])

/-- How far some writes have come in a schedule, once these events have been appended. -/
structure Written (e : Engine) (events appended : List Event) (schedule : List Nat)
    (c : Crowd Engine) : Prop where
  /-- The caches have been shown what is appended, so far as the observers have had their turns. -/
  state : c.state = { e.withShown (shownTo events appended schedule) with log := c.state.log }
  /-- The log has the events appended. -/
  log : c.state.log.events = e.log.events ++ appended
  /-- The gate of the log stands as it did. -/
  gated : c.state.log.gated = e.log.gated
  /-- What is appended was appended by a writer. -/
  taken : ∀ a ∈ appended, ∃ i, events[i]? = some a ∧ 0 < schedule.count i
  /-- Nothing is appended twice. -/
  once : appended.Nodup
  /-- There is a member for each event. -/
  size : c.members.length = events.length
  /-- Each member has come as far as it has had turns. -/
  members : ∀ i event, events[i]? = some event →
    c.members[i]? = some (writerAfter appended event (schedule.count i))

section Written

variable {e : Engine} {events appended : List Event} {schedule : List Nat} {c : Crowd Engine}
  {i : Nat}

theorem written_nil (e : Engine) (events : List Event) :
    Written e events [] [] ⟨e, events.map writer⟩ where
  state := rfl
  log := (List.append_nil _).symm
  gated := rfl
  taken := by simp
  once := .nil
  size := List.length_map _
  members i event found := by simp [found, writerAfter]

theorem Written.taken_concat (written : Written e events appended schedule c) (i : Nat) :
    ∀ a ∈ appended, ∃ j, events[j]? = some a ∧ 0 < (schedule ++ [i]).count j := fun a ha =>
  let ⟨j, found, late⟩ := written.taken a ha
  ⟨j, found, by simp only [List.count_append]; omega⟩

theorem Written.state_log (written : Written e events appended schedule c)
    {appended' : List Event} {schedule' : List Nat}
    (same : ∀ k < 5, shownTo events appended' schedule' k = shownTo events appended schedule k)
    (log : EventLog) :
    { c.state with log } = { e.withShown (shownTo events appended' schedule') with log } := by
  rw [written.state, withShown_congr same]

/-- The members after one of them has taken its turn. -/
theorem Written.members_set (written : Written e events appended schedule c) {event : Event}
    (found : events[i]? = some event) {appended' : List Event}
    (others : ∀ j a, events[j]? = some a → i ≠ j → (a ∈ appended' ↔ a ∈ appended))
    {p : Process Engine Unit} (now : p = writerAfter appended' event (schedule.count i + 1)) :
    ∀ j a, events[j]? = some a →
      (c.members.set i p)[j]? = some (writerAfter appended' a ((schedule ++ [i]).count j)) := by
  intro j a there
  by_cases isMember : i = j
  · subst isMember
    obtain rfl := Option.some.inj (found.symm.trans there)
    have inside : i < c.members.length := by
      rw [written.size]
      exact (List.getElem?_eq_some_iff.1 found).1
    rw [List.getElem?_set_self inside, now, List.count_append]
    simp
  · rw [List.getElem?_set_ne isMember, written.members j a there, List.count_append]
    simp only [List.count_singleton, beq_iff_eq, isMember, if_false, Nat.add_zero]
    cases schedule.count j with
    | zero => rfl
    | succ n => simp only [writerAfter, others j a there isMember]

/-- A turn of a member that has nothing to do any more. -/
theorem Written.idle (written : Written e events appended schedule c)
    (ended : ∀ event, events[i]? = some event → ∃ n, schedule.count i = n + 1 ∧
      (event ∈ appended → (observers event).drop n = [])) :
    Written e events appended (schedule ++ [i]) c where
  state := by
    refine written.state_log (fun k hk => ?_) c.state.log
    rw [shownTo, shownTo, takenAt_concat]
    split
    next now =>
      cases found : events[i]? with
      | none => simp
      | some event =>
        obtain ⟨n, count, nothing⟩ := ended event found
        obtain rfl : n = k := by omega
        have new : event ∉ appended := fun old => by
          have few := List.drop_eq_nil_iff.1 (nothing old)
          simp only [observers, List.length_cons, List.length_nil] at few
          omega
        simp [new]
    next => simp
  log := written.log
  gated := written.gated
  taken := written.taken_concat i
  once := written.once
  size := written.size
  members j event found := by
    rw [written.members j event found, List.count_append]
    by_cases isMember : i = j
    · subst isMember
      obtain ⟨n, count, nothing⟩ := ended event found
      by_cases old : event ∈ appended
      · have later : (observers event).drop (n + 1) = [] := by
          rw [← List.drop_drop, nothing old, List.drop_nil]
        simp [count, writerAfter, old, nothing old, later]
      · simp [count, writerAfter, old]
    · simp [isMember]

/-- The first turn of a member is its append. -/
theorem Written.append (written : Written e events appended schedule c) (distinct : events.Nodup)
    {event : Event} (found : events[i]? = some event) (first : schedule.count i = 0) :
    ∃ appended', Written e events appended' (schedule ++ [i]) (c.step i) := by
  have new : event ∉ appended := fun old => by
    obtain ⟨j, there, late⟩ := written.taken event old
    obtain rfl := eq_of_getElem? distinct found there
    omega
  have untaken : ∀ appended k, shownTo events appended (schedule ++ [i]) k =
      shownTo events appended schedule k := by
    intro appended k
    rw [shownTo, shownTo, takenAt_concat, if_neg (by omega), List.append_nil]
  have gated : (c.state.log.append event).2.gated = e.log.gated := by
    rw [← written.gated, EventLog.append]
    split <;> rfl
  have member := written.members i event found
  rw [first, writerAfter, writer_eq] at member
  simp only [Crowd.step, member, Process.step?, if_true]
  cases met : (c.state.log.append event).1 with
  | error cause =>
    -- the append fails, and nothing is left to do
    have kept := EventLog.append_error (Prod.ext met rfl :
      c.state.log.append event = (.error cause, (c.state.log.append event).2))
    refine ⟨appended, written.state_log (fun k _ => untaken appended k) _, kept.trans written.log,
      gated, written.taken_concat i, written.once, by simpa using written.size, ?_⟩
    refine written.members_set found (fun _ _ _ _ => Iff.rfl) ?_
    simp only [first, writerAfter, if_neg new, Process.steps]
  | ok =>
    -- the event is in the log, and all observers are left to take their turns
    have kept := EventLog.append_ok (Prod.ext met rfl :
      c.state.log.append event = (.ok (), (c.state.log.append event).2))
    refine ⟨appended ++ [event], written.state_log (fun k _ => ?_) _, ?_, gated, ?_, ?_,
      by simpa using written.size, ?_⟩
    · rw [untaken]
      apply takenAt_appended
      intro j there
      rw [← eq_of_getElem? distinct found there, first]
      exact Nat.zero_le _
    · rw [kept, written.log, List.append_assoc]
    · intro a ha
      rcases List.mem_append.1 ha with old | last
      · exact written.taken_concat i a old
      · rw [List.mem_singleton.1 last]
        exact ⟨i, found, by simp⟩
    · refine List.nodup_append.2 ⟨written.once, List.nodup_singleton event, ?_⟩
      rintro a ha b hb rfl
      exact new (List.mem_singleton.1 hb ▸ ha)
    · refine written.members_set found (fun j a there others => ?_) ?_
      · have other : a ≠ event := by
          rintro rfl
          exact others (eq_of_getElem? distinct found there)
        simp [other]
      · simp [first, writerAfter]

/-- Each further turn of a member shows its event to one more cache. -/
theorem Written.observe (written : Written e events appended schedule c)
    {event : Event} (found : events[i]? = some event) {n : Nat} (turn : schedule.count i = n + 1)
    (isAppended : event ∈ appended) {act : Engine → Engine} {rest : List (Engine → Engine)}
    (next : (observers event).drop n = act :: rest) :
    Written e events appended (schedule ++ [i]) (c.step i) := by
  have member := written.members i event found
  rw [turn, writerAfter, if_pos isAppended, next, Process.steps] at member
  simp only [Crowd.step, member, Process.step?]
  have now : act c.state =
      { e.withShown (shownTo events appended (schedule ++ [i])) with log := c.state.log } := by
    rw [written.state]
    refine observer_withShown next c.state.log ?_
    intro k _
    rw [shownTo, shownTo, takenAt_concat, turn, found]
    simp [isAppended]
  have log : (act c.state).log = c.state.log := by rw [now]
  refine ⟨by rw [log]; exact now, by rw [log]; exact written.log, by rw [log]; exact written.gated,
    written.taken_concat i, written.once, by simpa using written.size, ?_⟩
  refine written.members_set found (fun _ _ _ _ => Iff.rfl) ?_
  rw [turn, writerAfter, if_pos isAppended, ← List.drop_drop, next]
  rfl

/-- A turn of any member. -/
theorem Written.step (written : Written e events appended schedule c) (distinct : events.Nodup)
    (i : Nat) : ∃ appended', Written e events appended' (schedule ++ [i]) (c.step i) := by
  cases found : events[i]? with
  | none =>
    have outside : c.members[i]? = none := by
      rw [List.getElem?_eq_none_iff, written.size]
      exact List.getElem?_eq_none_iff.1 found
    simp only [Crowd.step, outside]
    exact ⟨appended, written.idle (by simp [found])⟩
  | some event =>
    have member := written.members i event found
    cases turn : schedule.count i with
    | zero => exact written.append distinct found turn
    | succ n =>
      by_cases isAppended : event ∈ appended
      · cases left : (observers event).drop n with
        | cons act rest => exact ⟨appended, written.observe found turn isAppended left⟩
        | nil =>
          -- every cache has been shown the event
          rw [turn, writerAfter, if_pos isAppended, left] at member
          simp only [Crowd.step, member]
          refine ⟨appended, written.idle fun a there => ⟨n, turn, fun _ => ?_⟩⟩
          obtain rfl := Option.some.inj (found.symm.trans there)
          exact left
      -- the append has failed
      · rw [turn, writerAfter, if_neg isAppended] at member
        simp only [Crowd.step, member]
        refine ⟨appended, written.idle fun a there => ⟨n, turn, fun old => ?_⟩⟩
        obtain rfl := Option.some.inj (found.symm.trans there)
        exact absurd old isAppended

/-- What some writes have done after their turns in a schedule. -/
theorem writeAll_written (e : Engine) (distinct : events.Nodup) (schedule : List Nat) :
    ∃ appended, Written e events appended schedule (writeAll e events schedule) := by
  induction schedule using List.reverseRecOn with
  | nil => exact ⟨[], written_nil e events⟩
  | append_singleton schedule i ih =>
    obtain ⟨appended, written⟩ := ih
    obtain ⟨appended', again⟩ := written.step distinct i
    exact ⟨appended', by simpa [writeAll] using again⟩

/-- Once all calls have returned, every observer has been shown what was appended. -/
theorem Written.shown_perm (written : Written e events appended schedule c)
    (distinct : events.Nodup) (returned : ∀ p ∈ c.members, p = .done ()) {k : Nat} (hk : k < 5) :
    (shownTo events appended schedule k).Perm appended := by
  refine (List.perm_ext_iff_of_nodup (nodup_takenAt distinct) written.once).2 ?_
  intro a
  rw [mem_takenAt]
  refine ⟨And.left, fun isAppended => ⟨isAppended, ?_⟩⟩
  obtain ⟨i, found, late⟩ := written.taken a isAppended
  refine ⟨i, found, ?_⟩
  have member := written.members i a found
  have ended := returned _ (List.mem_of_getElem? member)
  obtain ⟨n, turn⟩ := Nat.exists_eq_succ_of_ne_zero late.ne'
  rw [turn, writerAfter, if_pos isAppended] at ended
  cases left : (observers a).drop n with
  | cons act rest => simp [left, Process.steps] at ended
  | nil =>
    have few := List.drop_eq_nil_iff.1 left
    simp only [observers, List.length_cons, List.length_nil] at few
    omega

end Written

end NoonDraw.Engine
