import Mathlib.Data.List.FinRange
import Mathlib.Data.List.Sort
import Mathlib.Data.List.TakeWhile
import NoonDraw.Cache.Loaded

/-!
# The order of replay

Replay puts events in order of time and leaves those of one instant as they were given.  Two facts
carry everything else here: a list in order of time is determined by what it holds at each instant
(`Instant.eq_of_pairwise_le`), and sorting changes nothing of that (`Instant.filter_mergeSort_le`).

## Main statements

* `sortByTime_eq_iff`: two lists replay in the same order iff they agree at every instant.
* `filter_sortByTime`: choosing events and sorting them may be exchanged.
* `sortByTime_concat`: one more event is put after all those that are not later.
* `sortByTime_append`: a list followed by events that are not earlier.
-/

namespace NoonDraw

namespace Instant

protected theorem le_refl (a : Instant) : a ≤ a := Int.le_refl a.rank

protected theorem le_trans {a b c : Instant} (hab : a ≤ b) (hbc : b ≤ c) : a ≤ c :=
  Int.le_trans (le_def.1 hab) (le_def.1 hbc)

protected theorem le_antisymm {a b : Instant} (hab : a ≤ b) (hba : b ≤ a) : a = b :=
  rank_injective a b (Int.le_antisymm (le_def.1 hab) (le_def.1 hba))

protected theorem not_le {a b : Instant} : ¬ a ≤ b ↔ b < a := by
  rw [le_def, lt_def]
  exact Int.not_le

protected theorem le_of_lt {a b : Instant} (h : a < b) : a ≤ b := by
  rw [lt_def] at h
  exact le_def.2 (Int.le_of_lt h)

protected theorem not_lt {a b : Instant} : ¬ a < b ↔ b ≤ a := by
  rw [le_def, lt_def]
  exact Int.not_lt

protected theorem le_max_left (a b : Instant) : a ≤ max a b := by
  simp only [Instant.le_def, Max.max]
  split <;> omega

protected theorem le_max_right (a b : Instant) : b ≤ max a b := by
  simp only [Instant.le_def, Max.max]
  split <;> omega

end Instant

/-- The items that pass a test are those at the positions that pass it. -/
theorem filter_eq_map_finRange {α : Type} (q : α → Bool) (xs : List α) :
    xs.filter q = ((List.finRange xs.length).filter fun i => q xs[i]).map fun i => xs[i] := by
  conv_lhs => rw [← List.map_get_finRange xs, List.filter_map]
  rfl

/-- Two lists of the same items hold those of a class in the same order, if no two of the class change
places. -/
theorem filter_eq_of_equiv {α : Type} {q : α → Bool} {xs ys : List α}
    (σ : Fin xs.length ≃ Fin ys.length) (same : ∀ i, xs[i] = ys[σ i])
    (keeps : ∀ i j, i < j → q xs[i] → q xs[j] → σ i < σ j) : xs.filter q = ys.filter q := by
  -- the places of the class in the one list and in the other
  let before := (List.finRange xs.length).filter fun i => q xs[i]
  let after := (List.finRange ys.length).filter fun j => q ys[j]
  have moved : before.map σ = after := by
    have ascending : (before.map σ).Pairwise (· < ·) := by
      refine List.pairwise_map.2 (List.Pairwise.imp_of_mem ?_
        ((List.pairwise_lt_finRange _).sublist List.filter_sublist))
      intro i j hi hj lt
      exact keeps i j lt (List.mem_filter.1 hi).2 (List.mem_filter.1 hj).2
    have ascending' : after.Pairwise (· < ·) :=
      (List.pairwise_lt_finRange _).sublist List.filter_sublist
    refine List.Perm.eq_of_pairwise (fun a b _ _ lt gt => absurd lt gt.asymm) ascending
      ascending' ((List.perm_ext_iff_of_nodup ascending.nodup ascending'.nodup).2 fun j => ?_)
    simp only [before, after, List.mem_map, List.mem_filter, List.mem_finRange, true_and]
    exact ⟨by rintro ⟨i, hi, rfl⟩; exact same i ▸ hi,
      fun hj => ⟨σ.symm j, by simpa [same] using hj, σ.apply_symm_apply j⟩⟩
  calc xs.filter q
      = before.map fun i => xs[i] := filter_eq_map_finRange q xs
    _ = before.map fun i => ys[σ i] := List.map_congr_left fun i _ => same i
    _ = after.map fun j => ys[j] := by
        rw [← moved, List.map_map]
        rfl
    _ = ys.filter q := (filter_eq_map_finRange q ys).symm

/-- A stable sort keeps the order of items any two of which are as good as equal. -/
theorem filter_mergeSort {α : Type} {le : α → α → Bool}
    (trans : ∀ a b c, le a b → le b c → le a c) (total : ∀ a b, (le a b || le b a) = true)
    {q : α → Bool} (tied : ∀ a b, q a → q b → le a b) (xs : List α) :
    (xs.mergeSort le).filter q = xs.filter q := by
  have pairwise : (xs.filter q).Pairwise fun a b => le a b = true :=
    List.pairwise_of_forall_mem_list fun a ha b hb =>
      tied a b (List.mem_filter.1 ha).2 (List.mem_filter.1 hb).2
  have within : (xs.filter q).Sublist (xs.mergeSort le) :=
    List.sublist_mergeSort trans total pairwise List.filter_sublist
  have sub : (xs.filter q).Sublist ((xs.mergeSort le).filter q) := by
    have chosen := within.filter q
    simpa only [List.filter_filter, Bool.and_self] using chosen
  exact (sub.eq_of_length ((List.mergeSort_perm xs le).filter q).length_eq.symm).symm

namespace Instant

variable {α : Type} {time : α → Instant}

/-- Two lists in order of time that hold the same items at every instant, in the same order, are the
same list. -/
theorem eq_of_pairwise_le :
    ∀ {xs ys : List α}, xs.Pairwise (fun a b => time a ≤ time b) →
      ys.Pairwise (fun a b => time a ≤ time b) →
      (∀ t, xs.filter (fun a => time a = t) = ys.filter fun a => time a = t) → xs = ys
  | [], [], _, _, _ => rfl
  | [], y :: ys, _, _, same => by simpa using same (time y)
  | x :: xs, [], _, _, same => by simpa using same (time x)
  | x :: xs, y :: ys, hx, hy, same => by
    obtain ⟨xFirst, hxs⟩ := List.pairwise_cons.1 hx
    obtain ⟨yFirst, hys⟩ := List.pairwise_cons.1 hy
    have yLe : time y ≤ time x := by
      have found : x ∈ y :: ys :=
        (List.mem_filter.1 (same (time x) ▸ List.mem_filter.2 ⟨by simp, by simp⟩)).1
      rcases List.mem_cons.1 found with rfl | later
      · exact Instant.le_refl _
      · exact yFirst x later
    have xLe : time x ≤ time y := by
      have found : y ∈ x :: xs :=
        (List.mem_filter.1 ((same (time y)).symm ▸ List.mem_filter.2 ⟨by simp, by simp⟩)).1
      rcases List.mem_cons.1 found with rfl | later
      · exact Instant.le_refl _
      · exact xFirst y later
    have sameTime : time y = time x := Instant.le_antisymm yLe xLe
    have heads := same (time x)
    simp only [sameTime, List.filter_cons, decide_true, if_true, List.cons.injEq] at heads
    obtain ⟨rfl, -⟩ := heads
    refine congrArg _ (eq_of_pairwise_le hxs hys fun t => ?_)
    have tails := same t
    by_cases ht : time x = t
    · simpa [ht] using tails
    · simpa [ht] using tails

variable (time)

theorem pairwise_le_mergeSort (xs : List α) :
    (xs.mergeSort fun a b => decide (time a ≤ time b)).Pairwise fun a b => time a ≤ time b := by
  have sorted : (xs.mergeSort fun a b => decide (time a ≤ time b)).Pairwise fun a b =>
      decide (time a ≤ time b) = true := List.pairwise_mergeSort
    (fun a b c hab hbc => by
      simp only [decide_eq_true_eq] at *
      exact Instant.le_trans hab hbc)
    (fun a b => by
      simp only [Bool.or_eq_true, decide_eq_true_eq, Instant.le_def]
      omega)
    xs
  exact sorted.imp fun h => by simpa using h

/-- Sorting by time is stable: the items of one instant keep their order. -/
theorem filter_mergeSort_le (t : Instant) (xs : List α) :
    (xs.mergeSort fun a b => decide (time a ≤ time b)).filter (fun a => time a = t) =
      xs.filter fun a => time a = t := by
  refine filter_mergeSort (fun a b c hab hbc => ?_) (fun a b => ?_) (fun a b ha hb => ?_) xs
  · simp only [decide_eq_true_eq] at *
    exact Instant.le_trans hab hbc
  · simp only [Bool.or_eq_true, decide_eq_true_eq, Instant.le_def]
    omega
  · simp only [decide_eq_true_eq] at *
    rw [ha, hb]
    exact Instant.le_refl t

variable {time}

/-- Lists that hold the same items at every instant, in the same order, are sorted alike. -/
theorem mergeSort_le_congr {xs ys : List α}
    (same : ∀ t, xs.filter (fun a => time a = t) = ys.filter fun a => time a = t) :
    (xs.mergeSort fun a b => decide (time a ≤ time b)) =
      ys.mergeSort fun a b => decide (time a ≤ time b) := by
  refine eq_of_pairwise_le (pairwise_le_mergeSort time xs) (pairwise_le_mergeSort time ys) fun t => ?_
  rw [filter_mergeSort_le, filter_mergeSort_le, same t]

end Instant

namespace Event

/-- Whether events stand in order of time. -/
def InOrder (events : List Event) : Prop := events.Pairwise fun a b => a.time ≤ b.time

/-- The events of one instant, in the order given. -/
def atTime (t : Instant) (events : List Event) : List Event := events.filter fun e => e.time = t

@[simp] theorem atTime_append (t : Instant) (xs ys : List Event) :
    atTime t (xs ++ ys) = atTime t xs ++ atTime t ys :=
  List.filter_append xs ys

/-! ### Lists in order -/

theorem InOrder.sublist {xs ys : List Event} (h : InOrder ys) (sub : xs.Sublist ys) : InOrder xs :=
  List.Pairwise.sublist sub h

theorem inOrder_append {xs ys : List Event} :
    InOrder (xs ++ ys) ↔ InOrder xs ∧ InOrder ys ∧ ∀ x ∈ xs, ∀ y ∈ ys, x.time ≤ y.time :=
  List.pairwise_append

theorem inOrder_concat {xs : List Event} {e : Event} :
    InOrder (xs ++ [e]) ↔ InOrder xs ∧ ∀ x ∈ xs, x.time ≤ e.time := by
  rw [inOrder_append]
  simp [InOrder]

/-- Two lists in order of time that hold the same events at every instant, in the same order, are
the same list. -/
theorem eq_of_inOrder {xs ys : List Event} (hx : InOrder xs) (hy : InOrder ys)
    (same : ∀ t, atTime t xs = atTime t ys) : xs = ys :=
  Instant.eq_of_pairwise_le hx hy same

/-! ### Sorting -/

theorem inOrder_sortByTime (events : List Event) : InOrder (sortByTime events) :=
  Instant.pairwise_le_mergeSort time events

theorem sortByTime_perm (events : List Event) : (sortByTime events).Perm events :=
  List.mergeSort_perm _ _

@[simp] theorem mem_sortByTime {e : Event} {events : List Event} :
    e ∈ sortByTime events ↔ e ∈ events :=
  (sortByTime_perm events).mem_iff

/-- Sorting is stable: the events of one instant keep their order. -/
@[simp] theorem atTime_sortByTime (t : Instant) (events : List Event) :
    atTime t (sortByTime events) = atTime t events :=
  Instant.filter_mergeSort_le time t events

/-- A list in order is its own replay. -/
theorem sortByTime_of_inOrder {events : List Event} (h : InOrder events) :
    sortByTime events = events :=
  eq_of_inOrder (inOrder_sortByTime events) h (by simp)

/-- Two lists replay in the same order iff they hold the same events at every instant, in the same
order. -/
theorem sortByTime_eq_iff {xs ys : List Event} :
    sortByTime xs = sortByTime ys ↔ ∀ t, atTime t xs = atTime t ys := by
  constructor
  · intro h t
    rw [← atTime_sortByTime t xs, h, atTime_sortByTime]
  · exact Instant.mergeSort_le_congr

/-- Choosing events and putting them in order may be exchanged. -/
theorem filter_sortByTime (q : Event → Bool) (events : List Event) :
    (sortByTime events).filter q = sortByTime (events.filter q) := by
  refine eq_of_inOrder ((inOrder_sortByTime events).sublist List.filter_sublist)
    (inOrder_sortByTime _) fun t => ?_
  rw [atTime_sortByTime]
  calc atTime t ((sortByTime events).filter q)
      = (atTime t (sortByTime events)).filter q := List.filter_comm _ _ _
    _ = (atTime t events).filter q := by rw [atTime_sortByTime]
    _ = atTime t (events.filter q) := List.filter_comm _ _ _

/-- Events that are not earlier than any before them replay after those. -/
theorem sortByTime_append {xs ys : List Event} (later : ∀ x ∈ xs, ∀ y ∈ ys, x.time ≤ y.time) :
    sortByTime (xs ++ ys) = sortByTime xs ++ sortByTime ys := by
  refine eq_of_inOrder (inOrder_sortByTime _) ?_ (by simp)
  rw [inOrder_append]
  exact ⟨inOrder_sortByTime xs, inOrder_sortByTime ys, by simpa using later⟩

/-- What is left of a list in order, after the events that are not later than some event, is later. -/
theorem InOrder.lt_of_mem_dropWhile {events : List Event} (ordered : InOrder events) {e x : Event}
    (left : x ∈ events.dropWhile fun x => decide (x.time ≤ e.time)) : e.time < x.time := by
  induction events with
  | nil => cases left
  | cons first rest ih =>
    obtain ⟨firstLe, restOrdered⟩ := List.pairwise_cons.1 ordered
    rw [List.dropWhile_cons] at left
    split at left
    · exact ih restOrdered left
    next notBefore =>
      have firstLater : e.time < first.time := Instant.not_le.1 (by simpa using notBefore)
      rcases List.mem_cons.1 left with rfl | left
      · exact firstLater
      · have le := firstLe x left
        rw [Instant.lt_def] at *
        exact Int.lt_of_lt_of_le firstLater (Instant.le_def.1 le)

/-- One more event is put after all those that are not later. -/
theorem sortByTime_concat (events : List Event) (e : Event) :
    sortByTime (events ++ [e]) = Loaded.insertByTime e (sortByTime events) := by
  have ordered := inOrder_sortByTime events
  have later : ∀ x ∈ (sortByTime events).dropWhile fun x => decide (x.time ≤ e.time),
      e.time < x.time := fun x => ordered.lt_of_mem_dropWhile
  rw [Loaded.insertByTime]
  set before := (sortByTime events).takeWhile fun x => decide (x.time ≤ e.time)
  set after := (sortByTime events).dropWhile fun x => decide (x.time ≤ e.time)
  have split : sortByTime events = before ++ after := List.takeWhile_append_dropWhile.symm
  have notLater : ∀ x ∈ before, x.time ≤ e.time := fun x hx => by
    simpa using List.mem_takeWhile_imp hx
  rw [split, inOrder_append] at ordered
  obtain ⟨orderedBefore, orderedAfter, beforeLe⟩ := ordered
  -- both sides are in order and hold the same events at every instant
  refine eq_of_inOrder (inOrder_sortByTime _) ?_ fun t => ?_
  · rw [inOrder_append]
    refine ⟨orderedBefore, List.pairwise_cons.2 ⟨fun x hx => ?_, orderedAfter⟩, fun x hx y hy => ?_⟩
    · exact Instant.le_of_lt (later x hx)
    · rcases List.mem_cons.1 hy with rfl | hy
      · exact notLater x hx
      · exact beforeLe x hx y hy
  · rw [atTime_sortByTime, atTime_append, ← atTime_sortByTime t events, split, atTime_append,
      atTime_append]
    by_cases ht : e.time = t
    · have none : atTime t after = [] := by
        apply List.filter_eq_nil_iff.2
        intro x hx
        have := later x hx
        rw [Instant.lt_def] at this
        simp only [decide_eq_true_eq]
        rintro rfl
        rw [ht] at this
        omega
      have consAfter : atTime t (e :: after) = e :: atTime t after := by simp [atTime, ht]
      rw [consAfter, none]
      simp [atTime, ht]
    · simp [atTime, ht]

end Event

end NoonDraw
