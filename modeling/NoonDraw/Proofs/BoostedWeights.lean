import NoonDraw.Proofs.Freshness

/-!
# Boosted weights

In exact numbers a place weighs as much as it is fresh, times the multiplier for each of its active
boosts (`History.weight_eq`).  So of two places that were rolled last at the same time, the one with
more boosts weighs more if the multiplier is above one (`History.moreBoosts_weigh`).

Rules are accepted with any multiplier above zero.  Below one, a boost makes its place less likely, and
the place with more boosts weighs less (`History.not_moreBoosts_weigh_more`).

The engine runs on doubles.  The exact rules of an engine are those whose multiplier is the number that
its double stands for (`Rules.Exact`).
-/

namespace NoonDraw

namespace Rules

/-- Rules with the number that the multiplier of an engine stands for. -/
structure Exact (rules : Rules Float) (exact : Rules Rat) : Prop where
  weeklyPoints : exact.weeklyPoints = rules.weeklyPoints
  boostMultiplier : Double.Is rules.boostMultiplier exact.boostMultiplier
  offset : exact.offset = rules.offset

theorem Exact.unique {rules : Rules Float} {exact exact' : Rules Rat} (is : rules.Exact exact)
    (is' : rules.Exact exact') : exact = exact' := by
  obtain ⟨points, multiplier, offset⟩ := exact
  obtain ⟨points', multiplier', offset'⟩ := exact'
  have samePoints : points = points' := is.weeklyPoints.trans is'.weeklyPoints.symm
  have sameMultiplier : multiplier = multiplier' := is.boostMultiplier.unique is'.boostMultiplier
  have sameOffset : offset = offset' := is.offset.trans is'.offset.symm
  rw [samePoints, sameMultiplier, sameOffset]

/-- Rules that are accepted have a multiplier that is a number above zero. -/
theorem exists_exact {rules : Rules Float} (valid : rules.validate = .ok ()) :
    ∃ exact : Rules Rat, rules.Exact exact ∧ 0 < exact.boostMultiplier := by
  obtain ⟨multiplier, is, pos⟩ := exists_is_of_isUsable (isUsable_of_validate valid)
  exact ⟨⟨rules.weeklyPoints, multiplier, rules.offset⟩, ⟨rfl, is, rfl⟩, pos⟩

end Rules

namespace History

/-! ### Weights in exact numbers -/

section Exact

variable {h : History Rat} {total : Nat} {now : Instant} {place other : PlaceId}

theorem ofCount_pos {n : Nat} (pos : 0 < n) : (0 : Rat) < Weight.ofCount n := by
  change (0 : Rat) < (min n (UInt32.size - 1) : Nat)
  exact_mod_cast Nat.lt_min.2 ⟨pos, by decide⟩

/-- Every active boost multiplies the weight. -/
theorem weight_eq (h : History Rat) (total : Nat) (now : Instant) (place : PlaceId) :
    h.weight total now place = Weight.ofCount (h.freshness total now place) *
      h.rules.boostMultiplier ^ (h.activeBoosts place).length := by
  rw [weight_eq_iterate, mul_right_iterate]

theorem weight_pos (pos : 0 < total) (multiplier : 0 < h.rules.boostMultiplier) (now : Instant)
    (place : PlaceId) : 0 < h.weight total now place := by
  rw [weight_eq]
  exact mul_pos (ofCount_pos (h.freshness_pos now pos place)) (pow_pos multiplier _)

/-- The weights of places rolled last at the same time differ by the boosts that one has more. -/
theorem weight_eq_mul (same : h.lastRolled place = h.lastRolled other)
    (fewer : (h.activeBoosts place).length ≤ (h.activeBoosts other).length) :
    h.weight total now other = h.weight total now place *
      h.rules.boostMultiplier ^ ((h.activeBoosts other).length - (h.activeBoosts place).length) := by
  rw [weight_eq, weight_eq, freshness_congr same, mul_assoc, ← pow_add, Nat.add_sub_of_le fewer]

end Exact

/-- By rules that are accepted, of two places rolled last at the same time, the one with more active
boosts weighs more if the multiplier is above one, as much if it is one, and less if it is below. -/
theorem moreBoosts_weigh (rules : Rules Float) (valid : rules.validate = .ok ()) :
    ∃ exact : Rules Rat, rules.Exact exact ∧ 0 < exact.boostMultiplier ∧
      ∀ (h : History Rat) (places : List PlaceId) (now : Instant) (place other : PlaceId),
        h.rules = exact → place ∈ places → other ∈ places →
        h.lastRolled place = h.lastRolled other →
        (h.activeBoosts place).length < (h.activeBoosts other).length →
        ∃ w w', (h.weights places now).get? place = some w ∧
          (h.weights places now).get? other = some w' ∧ 0 < w ∧ 0 < w' ∧
          (w < w' ↔ 1 < exact.boostMultiplier) ∧ (w = w' ↔ exact.boostMultiplier = 1) ∧
          (w' < w ↔ exact.boostMultiplier < 1) := by
  obtain ⟨exact, is, multiplier⟩ := Rules.exists_exact valid
  refine ⟨exact, is, multiplier, ?_⟩
  rintro h places now place other rfl isPlace isOther same fewer
  have pos := weight_pos (List.length_pos_of_mem isPlace) multiplier now
  refine ⟨_, _, Table.get?_insertAll_map _ (.inl isPlace), Table.get?_insertAll_map _ (.inl isOther),
    pos place, pos other, ?_⟩
  have more : (h.activeBoosts other).length - (h.activeBoosts place).length ≠ 0 := by omega
  rw [weight_eq_mul same fewer.le]
  refine ⟨?_, ?_, ?_⟩
  · rw [lt_mul_iff_one_lt_right (pos place), one_lt_pow_iff_of_nonneg multiplier.le more]
  · rw [left_eq_mul₀ (pos place).ne', pow_eq_one_iff_of_nonneg multiplier.le more]
  · rw [mul_lt_iff_lt_one_right (pos place), pow_lt_one_iff_of_nonneg multiplier.le more]

/-- The place with a number. -/
def placeOf (n : Nat) : PlaceId := ⟨.ofNat n⟩

/-- A boost of the second place. -/
def secondBoosted : List Boost := [⟨default, default, placeOf 2, default, default⟩]

/-- By the usual rules a boosted place weighs more. -/
theorem moreBoosts_weigh_standard :
    let h : History Rat := build [] secondBoosted default ⟨1, 5, .utc⟩
    let places := [placeOf 1, placeOf 2]
    Rules.standard.validate = .ok () ∧ Rules.standard.Exact h.rules ∧
      placeOf 1 ∈ places ∧ placeOf 2 ∈ places ∧ h.lastRolled (placeOf 1) = h.lastRolled (placeOf 2) ∧
      (h.activeBoosts (placeOf 1)).length < (h.activeBoosts (placeOf 2)).length ∧
      ∃ w w', (h.weights places default).get? (placeOf 1) = some w ∧
        (h.weights places default).get? (placeOf 2) = some w' ∧ w < w' := by
  intro h places
  have valid : Rules.standard.validate = .ok () := rfl
  have five : Rules.standard.Exact h.rules := ⟨rfl, Rules.is_boostMultiplier_standard, rfl⟩
  have isFirst : placeOf 1 ∈ places := List.mem_cons_self
  have isSecond : placeOf 2 ∈ places := List.mem_cons_of_mem _ List.mem_cons_self
  have fewer : (h.activeBoosts (placeOf 1)).length < (h.activeBoosts (placeOf 2)).length := by decide
  obtain ⟨exact, is, -, weigh⟩ := moreBoosts_weigh Rules.standard valid
  obtain ⟨w, w', found, found', -, -, heavier, -⟩ :=
    weigh h places default _ _ (five.unique is) isFirst isSecond rfl fewer
  have above : 1 < exact.boostMultiplier := by
    rw [← five.unique is]
    exact (by norm_num : (1 : Rat) < 5)
  exact ⟨valid, five, isFirst, isSecond, rfl, fewer, w, w', found, found', heavier.2 above⟩

/-- The usual rules with a multiplier of one half. -/
def halvingRules : Rules Float := { Rules.standard with boostMultiplier := 0.5 }

theorem exact_halvingRules : halvingRules.Exact ⟨1, 1 / 2, .utc⟩ := by
  have unpacks : halvingRules.boostMultiplier.toModel.unpack =
      .finite .positive (2 ^ 52) (-53) (by norm_num) := rfl
  have is := Double.is_of_unpack unpacks
  norm_num at is
  exact ⟨rfl, is, rfl⟩

/-- More boosts do not weigh more by all rules that are accepted: halving the weight of one of two
places leaves it half as heavy as the other. -/
theorem not_moreBoosts_weigh_more :
    ¬ ∀ (rules : Rules Float) (exact : Rules Rat), rules.validate = .ok () → rules.Exact exact →
      ∀ (h : History Rat) (places : List PlaceId) (now : Instant) (place other : PlaceId),
        h.rules = exact → place ∈ places → other ∈ places →
        h.lastRolled place = h.lastRolled other →
        (h.activeBoosts place).length < (h.activeBoosts other).length →
        ∀ w w', (h.weights places now).get? place = some w →
          (h.weights places now).get? other = some w' → w < w' := by
  intro always
  let h : History Rat := build [] secondBoosted default ⟨1, 1 / 2, .utc⟩
  have valid : halvingRules.validate = .ok () := rfl
  have heavier : (2 : Rat) < 1 := always halvingRules _ valid exact_halvingRules h
    [placeOf 1, placeOf 2] default (placeOf 1) (placeOf 2) rfl (by simp) (by simp) rfl (by decide) 2 1
    (by decide +kernel) (by decide +kernel)
  exact absurd heavier (by norm_num)

end History

end NoonDraw
