import Mathlib.Algebra.BigOperators.Ring.List
import Mathlib.Algebra.Order.BigOperators.Group.List
import Mathlib.Algebra.Order.Field.Basic
import Mathlib.Algebra.Order.Field.Rat
import Mathlib.Order.Interval.Set.Basic
import Mathlib.Tactic.Linarith
import Mathlib.Tactic.Ring
import NoonDraw.Proofs.FreeRolls
import NoonDraw.Proofs.Verdicts

/-!
# Fair draws

On exact weights the chance shown of a place is the chance that it is drawn.  The numbers below the
total that fall on a place are an interval (`span`), which begins where those of the places before it
end and is as long as the place is heavy.  The walk along the places takes a number off by the weights
one by one; at each place it has come to what the number exceeds the weights before by
(`landing?_append`), and there it stops exactly on the numbers of the span (`drawn?_eq_some_iff`).

## Main definitions

* `drawn?`: the place drawn with a number, on weights of any type; a lottery draws so
  (`pick_eq_drawn?`).
* `weightBefore`, `span`: where the interval of a place begins, and the interval.

## Main results

* `drawn?_eq_some_iff`: which numbers draw a place.
* `exists_drawn`: each number below the total draws one, without the fallback to the last place.
* `draws_follow_chances`: the draws and the chances, on all weights with a sum above zero.
-/

namespace NoonDraw

namespace Lottery

section Draws

variable {W : Type} [Weight W]

/-- The place drawn with a number: none if the weights have no finite sum above zero. -/
def drawn? (weights : Table PlaceId W) (number : W) : Option PlaceId :=
  if Weight.isUsable (total weights) then place? weights number else none

/-- A lottery draws with its next random number, spread over the sum of the weights. -/
theorem pick_eq_drawn? (l : Lottery) (weights : Table PlaceId Float) :
    (l.pick weights).1 = drawn? weights (l.generator.unit.1 * total weights + 0.0) := by
  unfold pick drawn?
  dsimp only
  split <;> rfl

/-- The weights of the places before a place, added up. -/
def weightBefore (weights : Table PlaceId W) (place : PlaceId) : W :=
  total (weights.filter fun other _ => compare other place == .lt)

end Draws

/-- The numbers that fall to a place: as many as it weighs, after those of the places before it. -/
def span (weights : Table PlaceId Rat) (place : PlaceId) : Set Rat :=
  Set.Ico (weightBefore weights place)
    (weightBefore weights place + (weights.get? place).getD 0)

/-! ### The walk along the places -/

section Walk

variable {number : Rat} {xs ys : List (PlaceId × Rat)}

/-- The weights of some entries, added up. -/
def load (xs : List (PlaceId × Rat)) : Rat := (xs.map Prod.snd).sum

theorem total_eq_load (weights : Table PlaceId Rat) : total weights = load weights.entries :=
  List.sum_eq_foldl.symm

/-- A walk that stops at none of the first places goes on with what they leave of the number. -/
theorem landing?_append : landing? number (xs ++ ys) =
    (landing? number xs).or (landing? (number - load xs) ys) := by
  induction xs generalizing number with
  | nil => simp [landing?, load]
  | cons entry rest ih =>
    have left : number - load (entry :: rest) = number - entry.2 - load rest := by
      rw [load, List.map_cons, List.sum_cons, load]
      ring
    rw [List.cons_append, landing?, landing?, left]
    split
    · rfl
    · exact ih

theorem load_nonneg (nonneg : ∀ entry ∈ xs, 0 ≤ entry.2) : 0 ≤ load xs := by
  apply List.sum_nonneg
  intro weight isWeight
  obtain ⟨entry, isEntry, rfl⟩ := List.mem_map.1 isWeight
  exact nonneg entry isEntry

/-- A number that is no less than all the weights together falls on none of the places. -/
theorem landing?_eq_none (nonneg : ∀ entry ∈ xs, 0 ≤ entry.2) (past : load xs ≤ number) :
    landing? number xs = none := by
  induction xs generalizing number with
  | nil => rfl
  | cons entry rest ih =>
    have rest_nonneg : ∀ other ∈ rest, 0 ≤ other.2 := fun other isOther =>
      nonneg other (List.mem_cons_of_mem _ isOther)
    have past_first : entry.2 + load rest ≤ number := past
    have above : ¬ number - entry.2 < (Weight.zero : Rat) := by
      have := load_nonneg rest_nonneg
      change ¬ number - entry.2 < 0
      linarith
    rw [landing?, if_neg above]
    apply ih rest_nonneg
    linarith

/-- A number that reaches past the places before, but not past the next, falls on that one. -/
theorem landing?_split {place : PlaceId} {weight : Rat} (nonneg : ∀ entry ∈ xs, 0 ≤ entry.2)
    (past : load xs ≤ number) (within : number < load xs + weight) :
    landing? number (xs ++ (place, weight) :: ys) = some place := by
  have stops : number - load xs - weight < (Weight.zero : Rat) := by
    change number - load xs - weight < 0
    linarith
  rw [landing?_append, landing?_eq_none nonneg past, Option.none_or, landing?, if_pos stops]

/-- Each number below all the weights together reaches past some places, but not past the next. -/
theorem exists_split (low : 0 ≤ number) (high : number < load xs) :
    ∃ before place weight after, xs = before ++ (place, weight) :: after ∧
      load before ≤ number ∧ number < load before + weight := by
  induction xs generalizing number with
  | nil => exact absurd high (not_lt.2 low)
  | cons entry rest ih =>
    by_cases first : number < entry.2
    · exact ⟨[], entry.1, entry.2, rest, rfl, low, by simpa [load] using first⟩
    · have high' : number < entry.2 + load rest := high
      obtain ⟨before, place, weight, after, rfl, past, within⟩ :=
        @ih (number - entry.2) (by linarith) (by linarith)
      have load_before : load (entry :: before) = entry.2 + load before := rfl
      exact ⟨entry :: before, place, weight, after, rfl, by linarith, by linarith⟩

end Walk

/-! ### Which numbers draw a place -/

section Spans

variable {weights : Table PlaceId Rat} {number : Rat} {place : PlaceId}

/-- The entries before that of a place are those of the places before it. -/
theorem weightBefore_eq_load {before after : List (PlaceId × Rat)} {weight : Rat}
    (split : weights.entries = before ++ (place, weight) :: after) :
    weightBefore weights place = load before := by
  have ascending := weights.ascending
  rw [split] at ascending
  obtain ⟨_, from_place, from_before⟩ := List.pairwise_append.1 ascending
  -- as the places ascend, the test keeps what stands before the place, and nothing else
  have keeps : before.filter (fun entry => compare entry.1 place == .lt) = before := by
    apply List.filter_eq_self.2
    intro entry isBefore
    exact beq_iff_eq.2 (from_before entry isBefore _ List.mem_cons_self)
  have drops : after.filter (fun entry => compare entry.1 place == .lt) = [] := by
    apply List.filter_eq_nil_iff.2
    intro entry isAfter lt
    have gt := (List.pairwise_cons.1 from_place).1 entry isAfter
    have := Std.TransCmp.lt_trans gt (beq_iff_eq.1 lt)
    rw [Std.ReflOrd.compare_self] at this
    cases this
  rw [weightBefore, total_eq_load]
  apply congrArg load
  calc weights.entries.filter (fun entry => compare entry.1 place == .lt)
      = before.filter _ ++ ((place, weight) :: after).filter _ := by
        rw [split, List.filter_append]
    _ = before := by
        rw [keeps, List.filter_cons_of_neg (by simp), drops, List.append_nil]

/-- The weight of a place stands between those before it and those after. -/
theorem exists_entries {weight : Rat} (found : weights.get? place = some weight) :
    ∃ before after, weights.entries = before ++ (place, weight) :: after ∧
      weightBefore weights place = load before := by
  obtain ⟨before, after, split⟩ := List.append_of_mem (Table.get?_eq_some_iff.1 found)
  exact ⟨before, after, split, weightBefore_eq_load split⟩

theorem span_of_get? {weight : Rat} (found : weights.get? place = some weight) :
    span weights place = Set.Ico (weightBefore weights place)
      (weightBefore weights place + weight) := by
  rw [span, found, Option.getD_some]

theorem span_eq_empty (absent : weights.get? place = none) : span weights place = ∅ := by
  rw [span, absent, Option.getD_none, add_zero, Set.Ico_self]

/-- The spans cover the numbers below the total. -/
theorem exists_mem_span (low : 0 ≤ number) (high : number < total weights) :
    ∃ place ∈ weights.keys, number ∈ span weights place := by
  rw [total_eq_load] at high
  obtain ⟨before, place, weight, after, split, past, within⟩ := exists_split low high
  have isEntry : (place, weight) ∈ weights.entries := by
    rw [split]
    exact List.mem_append_right _ List.mem_cons_self
  refine ⟨place, List.mem_map.2 ⟨_, isEntry, rfl⟩, ?_⟩
  rw [span_of_get? (Table.get?_eq_some_iff.2 isEntry), weightBefore_eq_load split]
  exact ⟨past, within⟩

variable (nonneg : ∀ entry ∈ weights.entries, 0 ≤ entry.2)

include nonneg

/-- The walk stops at a place on every number of its span. -/
theorem landing?_of_mem_span (inSpan : number ∈ span weights place) :
    landing? number weights.entries = some place := by
  cases found : weights.get? place with
  | none =>
    rw [span_eq_empty found] at inSpan
    exact absurd inSpan (Set.notMem_empty _)
  | some weight =>
    obtain ⟨before, after, split, starts⟩ := exists_entries found
    rw [span_of_get? found, starts] at inSpan
    have nonneg_before : ∀ entry ∈ before, 0 ≤ entry.2 := by
      intro entry isBefore
      apply nonneg
      rw [split]
      exact List.mem_append_left _ isBefore
    rw [split]
    exact landing?_split nonneg_before inSpan.1 inSpan.2

/-- No span reaches below zero, or to the total. -/
theorem span_subset : span weights place ⊆ Set.Ico 0 (total weights) := by
  cases found : weights.get? place with
  | none => simp [span_eq_empty found]
  | some weight =>
    obtain ⟨before, after, split, starts⟩ := exists_entries found
    have sums : total weights = load before + (weight + load after) := by
      rw [total_eq_load, split, load, List.map_append, List.sum_append, List.map_cons,
        List.sum_cons, load, load]
    rw [split] at nonneg
    have before_nonneg : 0 ≤ load before := load_nonneg fun entry isBefore =>
      nonneg entry (List.mem_append_left _ isBefore)
    have after_nonneg : 0 ≤ load after := load_nonneg fun entry isAfter =>
      nonneg entry (List.mem_append_right _ (List.mem_cons_of_mem _ isAfter))
    rw [span_of_get? found, starts]
    apply Set.Ico_subset_Ico <;> linarith

/-- The walk alone decides a draw below the total: the last place is never fallen back to. -/
theorem drawn?_eq_landing? (low : 0 ≤ number) (high : number < total weights) :
    drawn? weights number = landing? number weights.entries := by
  obtain ⟨place, _, inSpan⟩ := exists_mem_span low high
  have usable : Weight.isUsable (total weights) = true := decide_eq_true (low.trans_lt high)
  rw [drawn?, if_pos usable, place?, landing?_of_mem_span nonneg inSpan]
  rfl

/-- A number below the total draws the place whose span it is in. -/
theorem drawn?_eq_some_iff (low : 0 ≤ number) (high : number < total weights) :
    drawn? weights number = some place ↔ number ∈ span weights place := by
  rw [drawn?_eq_landing? nonneg low high]
  constructor
  · intro landed
    -- the walk would have stopped at the place in whose span the number is
    obtain ⟨other, _, inSpan⟩ := exists_mem_span low high
    have same : some other = some place := (landing?_of_mem_span nonneg inSpan).symm.trans landed
    exact Option.some.inj same ▸ inSpan
  · exact landing?_of_mem_span nonneg

/-- Each number below the total draws the one place in whose span it is. -/
theorem exists_drawn (low : 0 ≤ number) (high : number < total weights) :
    ∃ place ∈ weights.keys, drawn? weights number = some place ∧
      landing? number weights.entries = some place ∧
      ∀ other, number ∈ span weights other ↔ other = place := by
  obtain ⟨place, isKey, inSpan⟩ := exists_mem_span low high
  have drawn := (drawn?_eq_some_iff nonneg low high).2 inSpan
  refine ⟨place, isKey, drawn, landing?_of_mem_span nonneg inSpan, fun other => ?_⟩
  rw [← drawn?_eq_some_iff nonneg low high, drawn, Option.some.injEq, eq_comm]

end Spans

/-! ### Chances -/

section Chances

variable {weights : Table PlaceId Rat}

theorem chances_eq (positive : 0 < total weights) :
    chances weights = weights.map fun _ weight => weight / total weights := by
  have above : (Weight.zero : Rat) < total weights := positive
  simp only [chances, if_pos above]

theorem keys_chances : (chances weights).keys = weights.keys := by
  simp [chances, Table.keys, Table.map]

/-- The chances of all places together are certainty. -/
theorem total_chances (positive : 0 < total weights) : total (chances weights) = 1 := by
  have shares : (chances weights).entries.map Prod.snd =
      (weights.entries.map Prod.snd).map (· / total weights) := by
    rw [chances_eq positive, Table.map, List.map_map, List.map_map]
    rfl
  calc total (chances weights)
      = ((weights.entries.map Prod.snd).map (· / total weights)).sum := by
        rw [total_eq_load, load, shares]
    _ = load weights.entries / total weights := by
        simp only [div_eq_mul_inv, List.sum_map_mul_right, List.map_id', load]
    _ = 1 := by
        rw [← total_eq_load, div_self positive.ne']

/-- On weights with a sum above zero, every number below it draws the one place in whose span it is,
and no draw gets past the last place.  The numbers that draw a place are an interval, whose length is
the chance of the place as a part of the sum; a place without weight has none.  The chances are those
of the places weighed, lie between zero and one, and add up to one. -/
theorem draws_follow_chances (weights : Table PlaceId Rat)
    (nonneg : ∀ entry ∈ weights.entries, 0 ≤ entry.2) (positive : 0 < total weights) :
    (∀ number, 0 ≤ number → number < total weights →
      ∃ place ∈ weights.keys, drawn? weights number = some place ∧
        landing? number weights.entries = some place ∧
        ∀ other, number ∈ span weights other ↔ other = place) ∧
    (chances weights).keys = weights.keys ∧
    (∀ place chance, (chances weights).get? place = some chance →
      0 ≤ chance ∧ chance ≤ 1 ∧
        {number | 0 ≤ number ∧ number < total weights ∧ drawn? weights number = some place} =
          Set.Ico (weightBefore weights place)
            (weightBefore weights place + chance * total weights)) ∧
    (∀ place number, weights.get? place = some 0 → 0 ≤ number → number < total weights →
      drawn? weights number ≠ some place) ∧
    total (chances weights) = 1 := by
  have numbers (place : PlaceId) :
      {number | 0 ≤ number ∧ number < total weights ∧ drawn? weights number = some place} =
        span weights place := by
    ext number
    constructor
    · rintro ⟨low, high, drawn⟩
      exact (drawn?_eq_some_iff nonneg low high).1 drawn
    · intro inSpan
      obtain ⟨low, high⟩ := span_subset nonneg inSpan
      exact ⟨low, high, (drawn?_eq_some_iff nonneg low high).2 inSpan⟩
  refine ⟨fun number low high => exists_drawn nonneg low high, keys_chances, ?_, ?_,
    total_chances positive⟩
  · intro place chance shown
    rw [chances_eq positive, Table.get?_map, Option.map_eq_some_iff] at shown
    obtain ⟨weight, found, rfl⟩ := shown
    have weight_nonneg : 0 ≤ weight := nonneg _ (Table.get?_eq_some_iff.1 found)
    have weight_le : weight ≤ total weights := by
      obtain ⟨before, after, split, -⟩ := exists_entries found
      rw [total_eq_load]
      apply List.single_le_sum
      · intro other isWeight
        obtain ⟨entry, isEntry, rfl⟩ := List.mem_map.1 isWeight
        exact nonneg entry isEntry
      · exact List.mem_map.2 ⟨_, Table.get?_eq_some_iff.1 found, rfl⟩
    refine ⟨div_nonneg weight_nonneg positive.le, (div_le_one positive).2 weight_le, ?_⟩
    rw [numbers, span_of_get? found, div_mul_cancel₀ weight positive.ne']
  · intro place number weightless low high drawn
    have inSpan := (drawn?_eq_some_iff nonneg low high).1 drawn
    rw [span_of_get? weightless, add_zero, Set.Ico_self] at inSpan
    exact inSpan

/-- Three places without weight around two that have one: they draw the two in proportion. -/
theorem draws_follow_chances_idlePlaces :
    let place (n : Nat) : PlaceId := ⟨.ofNat n⟩
    let weights : Table PlaceId Rat :=
      .ofList [(place 0, 0), (place 1, 1), (place 2, 0), (place 3, 3), (place 4, 0)]
    (∀ entry ∈ weights.entries, 0 ≤ entry.2) ∧ 0 < total weights ∧
      (chances weights).get? (place 3) = some (3 / 4) ∧
      {number | 0 ≤ number ∧ number < total weights ∧ drawn? weights number = some (place 3)} =
        Set.Ico 1 4 ∧
      total (chances weights) = 1 := by
  intro place weights
  have nonneg : ∀ entry ∈ weights.entries, 0 ≤ entry.2 := by decide +kernel
  have positive : 0 < total weights := by decide +kernel
  have chance : (chances weights).get? (place 3) = some (3 / 4) := by decide +kernel
  obtain ⟨_, _, numbers, _, sum⟩ := draws_follow_chances weights nonneg positive
  have starts : weightBefore weights (place 3) = 1 := by decide +kernel
  have ends : weightBefore weights (place 3) + 3 / 4 * total weights = 4 := by decide +kernel
  refine ⟨nonneg, positive, chance, ?_, sum⟩
  rw [(numbers _ _ chance).2.2, ends, starts]

end Chances

end Lottery

end NoonDraw
