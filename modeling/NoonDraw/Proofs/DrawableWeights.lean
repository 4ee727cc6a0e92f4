import NoonDraw.Proofs.AcceptedDraws
import NoonDraw.Proofs.Doubles
import NoonDraw.Proofs.Quota

/-!
# Weights to draw by

A roll finds no place to draw in two cases: there is no place, or the weights of the places have no
usable sum.  Weights have none exactly if their sum is too large for a number, or if all of them have
been rounded to zero (`Lottery.isUsable_total_iff`).  Every boost multiplies a weight by the multiplier
of the rules, so with enough boosts either can happen under most rules that are accepted
(`Engine.roll_noPlaces_iff`, `Engine.not_roll_noPlaces_live`).

How many boosts it takes, powers of two tell (`Double.Between`).  Having many places does not make it
fewer: a sum of numbers up to `2 ^ 969` stops growing at `2 ^ 1023`, however many they are
(`Double.exists_is_sum`).
-/

namespace NoonDraw

/-! ### Products and sums of doubles -/

namespace Double

theorem IsWeight.mul {x m : Float} {v : Rat} (weight : IsWeight x) (is : Is m v) (pos : 0 < v) :
    IsWeight (x * m) := by
  rcases weight with infinite | ⟨a, isX⟩
  · exact .inl (infinite.mul is pos)
  · exact (isX.mul is).isWeight

theorem IsWeight.add {x y : Float} (isX : IsWeight x) (isY : IsWeight y) : IsWeight (x + y) := by
  rcases isX with infinite | ⟨v, is⟩
  · exact .inl (infinite.add isY)
  · rcases isY with infinite | ⟨w, is'⟩
    · exact .inl (is.add_infinite infinite)
    · exact (is.add is').isWeight

/-- A sum is above zero iff one of the two is: nothing is lost in rounding. -/
theorem IsWeight.zero_lt_add_iff {x y : Float} (isX : IsWeight x) (isY : IsWeight y) :
    Float.ofNat 0 < x + y ↔ Float.ofNat 0 < x ∨ Float.ofNat 0 < y := by
  rcases isX with infinite | ⟨v, is⟩
  · exact iff_of_true (infinite.add isY).zero_lt (.inl infinite.zero_lt)
  rcases isY with infinite | ⟨w, is'⟩
  · exact iff_of_true (is.add_infinite infinite).zero_lt (.inr infinite.zero_lt)
  have nonneg := is.nonneg
  have nonneg' := is'.nonneg
  have visible : v + w = 0 ∨ (2 : Rat) ^ (-1074 : Int) ≤ v + w := by
    rcases nonneg.eq_or_lt with rfl | pos
    · rcases nonneg'.eq_or_lt with rfl | pos'
      · exact .inl (add_zero 0)
      · exact .inr ((is'.least pos').trans (le_add_of_nonneg_left nonneg))
    · exact .inr ((is.least pos).trans (le_add_of_nonneg_right nonneg'))
  rw [(is.add is').zero_lt_iff visible, is.zero_lt_iff, is'.zero_lt_iff]
  constructor
  · exact fun pos => or_iff_not_imp_left.2 fun none => by linarith
  · rintro (pos | pos) <;> linarith

/-- What weights add up to is a weight, and it is above zero iff one of them is. -/
theorem IsWeight.sum {ws : List Float} (weights : ∀ w ∈ ws, IsWeight w) {x : Float}
    (isX : IsWeight x) :
    IsWeight (ws.foldl (· + ·) x) ∧
      (Float.ofNat 0 < ws.foldl (· + ·) x ↔ Float.ofNat 0 < x ∨ ∃ w ∈ ws, Float.ofNat 0 < w) := by
  induction ws generalizing x with
  | nil => simpa using isX
  | cons w ws ih =>
    obtain ⟨isW, rest⟩ := List.forall_mem_cons.1 weights
    obtain ⟨isSum, above⟩ := ih rest (isX.add isW)
    refine ⟨isSum, above.trans ?_⟩
    rw [isX.zero_lt_add_iff isW, List.exists_mem_cons_iff, or_assoc]

/-- A sum of numbers that are not too large stops growing before it overflows. -/
theorem exists_is_sum {ws : List Float} (small : ∀ w ∈ ws, ∃ v, Is w v ∧ v ≤ 2 ^ (969 : Int))
    {x : Float} {a : Rat} (is : Is x a) (le : a ≤ 2 ^ (1023 : Int)) :
    ∃ b, Is (ws.foldl (· + ·) x) b := by
  induction ws generalizing x a with
  | nil => exact ⟨a, is⟩
  | cons w ws ih =>
    obtain ⟨⟨v, isW, least⟩, rest⟩ := List.forall_mem_cons.1 small
    -- what is added is too little to change a sum of this size
    have most : a + v ≤ 2 ^ (1023 : Int) + 2 ^ ((1023 : Int) - 54) := add_le_add le least
    obtain ⟨b, isSum, near⟩ := (is.add isW).exists_is (by norm_num) le_rfl most
    exact ih rest isSum (near.le 1023 (by norm_num) most)

/-- A double that is a number between two powers of two. -/
def Between (low high : Nat) (x : Float) : Prop :=
  ∃ v, Is x v ∧ 2 ^ (-low : Int) ≤ v ∧ v ≤ 2 ^ (high : Int)

theorem Between.zero_lt {low high : Nat} {x : Float} (between : Between low high x) :
    Float.ofNat 0 < x := by
  obtain ⟨v, is, least, -⟩ := between
  exact is.zero_lt_iff.2 (lt_of_lt_of_le (by positivity) least)

theorem Between.mono {a b low high : Nat} {x : Float} (between : Between a b x) (le : a ≤ low)
    (le' : b ≤ high) : Between low high x := by
  obtain ⟨v, is, least, most⟩ := between
  exact ⟨v, is, (zpow_le_zpow_right₀ one_le_two (by omega)).trans least,
    most.trans (zpow_le_zpow_right₀ one_le_two (by omega))⟩

theorem Between.mul {a b low high : Nat} {x m : Float} (isX : Between a b x)
    (isM : Between low high m) (least : a + low ≤ 1074) (most : b + high ≤ 1023) :
    Between (a + low) (b + high) (x * m) := by
  obtain ⟨v, is, lower, upper⟩ := isX
  obtain ⟨w, is', lower', upper'⟩ := isM
  have above : (2 : Rat) ^ (-(a + low : Nat) : Int) ≤ v * w := by
    rw [Nat.cast_add, neg_add, zpow_add₀ two_ne_zero]
    exact mul_le_mul lower lower' (by positivity) is.nonneg
  have below : v * w ≤ (2 : Rat) ^ ((b + high : Nat) : Int) := by
    rw [Nat.cast_add, zpow_add₀ two_ne_zero]
    exact mul_le_mul upper upper' is'.nonneg (by positivity)
  obtain ⟨c, isProduct, near⟩ := (is.mul is').exists_is (b := (b + high : Nat)) (by omega) (by omega)
    (below.trans (le_add_of_nonneg_right (by positivity)))
  exact ⟨c, isProduct, near.ge _ (by omega) above, near.le_two_zpow (by omega) below⟩

end Double

/-! ### What can be drawn by -/

theorem exists_is_of_isUsable {x : Float} (usable : Weight.isUsable x) :
    ∃ v, Double.Is x v ∧ 0 < v := by
  obtain ⟨finite, above⟩ := Bool.and_eq_true_iff.1 usable
  exact Double.exists_is_of_zero_lt finite (of_decide_eq_true above)

theorem Double.IsWeight.isUsable_iff {x : Float} (weight : IsWeight x) :
    Weight.isUsable x ↔ x.isInf = false ∧ Weight.zero < x := by
  change (x.isFinite && decide (Float.ofNat 0 < x)) = true ↔ x.isInf = false ∧ Float.ofNat 0 < x
  rw [Bool.and_eq_true_iff, decide_eq_true_iff]
  rcases weight with infinite | ⟨v, is⟩
  · simp [infinite.isFinite, infinite.isInf]
  · simp [is.isFinite, is.isInf]

namespace Lottery

/-- Weights that no place can be drawn by: their sum is too large for a number, or none of them is
above zero. -/
def Undrawable (weights : Table PlaceId Float) : Prop :=
  (total weights).isInf ∨ ∀ w ∈ weights.values, ¬ Weight.zero < w

theorem isUsable_total_iff {weights : Table PlaceId Float}
    (isWeight : ∀ w ∈ weights.values, Double.IsWeight w) :
    Weight.isUsable (total weights) ↔ ¬ Undrawable weights := by
  obtain ⟨isSum, above⟩ := Double.IsWeight.sum isWeight (.inr ⟨0, Double.is_zero⟩)
  have nothing : ¬ Float.ofNat 0 < Float.ofNat 0 := fun above =>
    lt_irrefl 0 (Double.is_zero.zero_lt_iff.1 above)
  have above : Weight.zero < total weights ↔ ∃ w ∈ weights.values, Weight.zero < w :=
    above.trans (or_iff_right nothing)
  have isSum : Double.IsWeight (total weights) := isSum
  rw [isSum.isUsable_iff, above, Undrawable, not_or, Bool.not_eq_true]
  simp

/-- Weights within powers of two can be drawn by, however many they are. -/
theorem not_undrawable {weights : Table PlaceId Float} (some : weights.entries ≠ [])
    (between : ∀ w ∈ weights.values, Double.Between 1074 969 w) : ¬ Undrawable weights := by
  have small : ∀ w ∈ weights.values, ∃ v, Double.Is w v ∧ v ≤ 2 ^ (969 : Int) := by
    intro w hw
    obtain ⟨v, is, -, most⟩ := between w hw
    exact ⟨v, is, most⟩
  obtain ⟨b, is⟩ := Double.exists_is_sum small Double.is_zero (by positivity)
  obtain ⟨e, he⟩ := List.exists_mem_of_ne_nil _ some
  rintro (infinite | none)
  · exact Bool.false_ne_true (is.isInf.symm.trans infinite)
  · have listed : e.2 ∈ weights.values := List.mem_map_of_mem he
    exact none _ listed (between _ listed).zero_lt

end Lottery

theorem Rules.is_boostMultiplier_standard : Double.Is standard.boostMultiplier 5 := by
  have unpacks : standard.boostMultiplier.toModel.unpack =
      .finite .positive (5 * 2 ^ 50) (-50) (by norm_num) := rfl
  have is := Double.is_of_unpack unpacks
  norm_num at is
  exact is

/-- Rules that are accepted have a multiplier that is a number above zero. -/
theorem Rules.isUsable_of_validate {rules : Rules Float} (valid : rules.validate = .ok ()) :
    Weight.isUsable rules.boostMultiplier := by
  by_contra unusable
  obtain ⟨problem, found⟩ : ∃ problem, rules.problem? = some problem := by
    unfold problem?
    split
    · exact ⟨_, rfl⟩
    · exact ⟨_, if_pos (by simpa using unusable)⟩
  rw [validate, found] at valid
  cases valid

/-! ### The weights of a history -/

namespace History

variable {h : History Float} {places : List PlaceId} {now : Instant}

theorem exists_weight_of_mem {w : Float} (hw : w ∈ (h.weights places now).values) :
    ∃ p ∈ places, w = h.weight places.length now p := by
  obtain ⟨e, he, rfl⟩ := List.mem_map.1 hw
  rcases Table.mem_entries_insertAll he with none | weighed
  · cases none
  · obtain ⟨p, hp, rfl⟩ := List.mem_map.1 weighed
    exact ⟨p, hp, rfl⟩

/-- Nothing can be drawn from no places. -/
theorem undrawable_of_nil (none : places = []) : Lottery.Undrawable (h.weights places now) := by
  subst none
  exact .inr fun w hw => by cases hw

theorem freshness_pos {W : Type} (h : History W) (now : Instant) {total : Nat} (pos : 0 < total)
    (place : PlaceId) : 0 < h.freshness total now place := by
  unfold freshness
  split
  · exact pos
  · dsimp only
    split <;> omega

/-- A count as a weight is at least one, and less than the thirty-second power of two. -/
theorem between_ofCount {n : Nat} (pos : 0 < n) :
    Double.Between 0 32 (Weight.ofCount n : Float) := by
  have least : 1 ≤ min n (UInt32.size - 1) := Nat.le_min.2 ⟨pos, by decide⟩
  have most : min n (UInt32.size - 1) ≤ 2 ^ 32 := (Nat.min_le_right _ _).trans (by decide)
  refine ⟨_, Double.is_ofNat (by omega), ?_, ?_⟩
  · rw [Nat.cast_zero, neg_zero, zpow_zero]
    exact_mod_cast least
  · exact_mod_cast most

/-- Boosts multiply a weight within powers of two. -/
theorem between_boosted {m : Float} {low high : Nat} (isM : Double.Between low high m)
    (boosts : List Boost) {x : Float} {a b : Nat} (isX : Double.Between a b x)
    (least : a + low * boosts.length ≤ 1074) (most : b + high * boosts.length ≤ 1023) :
    Double.Between (a + low * boosts.length) (b + high * boosts.length)
      (boosts.foldl (fun w _ => w * m) x) := by
  induction boosts generalizing x a b with
  | nil => exact isX
  | cons boost boosts ih =>
    rw [List.length_cons, Nat.mul_succ] at least most ⊢
    have first : Double.Between (a + low) (b + high) (x * m) := isX.mul isM (by omega) (by omega)
    have rest := ih first (by omega) (by omega)
    rwa [add_assoc, add_comm low, add_assoc, add_comm high] at rest

theorem isWeight_boosted {m : Float} {v : Rat} (is : Double.Is m v) (pos : 0 < v)
    (boosts : List Boost) {x : Float} (weight : Double.IsWeight x) :
    Double.IsWeight (boosts.foldl (fun w _ => w * m) x) := by
  induction boosts generalizing x with
  | nil => exact weight
  | cons boost boosts ih => exact ih (weight.mul is pos)

/-- By rules that are accepted, every place has a weight, whatever boosts there are. -/
theorem isWeight_of_mem (valid : h.rules.validate = .ok ()) {x : Float}
    (hx : x ∈ (h.weights places now).values) : Double.IsWeight x := by
  obtain ⟨p, hp, rfl⟩ := exists_weight_of_mem hx
  obtain ⟨v, is, above⟩ := exists_is_of_isUsable (Rules.isUsable_of_validate valid)
  obtain ⟨a, is', -⟩ := between_ofCount (h.freshness_pos now (List.length_pos_of_mem hp) p)
  exact isWeight_boosted is above _ (.inr ⟨a, is'⟩)

/-- With few boosts, weights are within powers of two. -/
theorem between_of_mem {low high boosts : Nat}
    (isM : Double.Between low high h.rules.boostMultiplier)
    (few : ∀ p ∈ places, (h.activeBoosts p).length ≤ boosts) (least : low * boosts ≤ 1074)
    (most : high * boosts ≤ 937) {x : Float} (hx : x ∈ (h.weights places now).values) :
    Double.Between 1074 969 x := by
  obtain ⟨p, hp, rfl⟩ := exists_weight_of_mem hx
  have start := between_ofCount (h.freshness_pos now (List.length_pos_of_mem hp) p)
  have least' := (Nat.mul_le_mul_left low (few p hp)).trans least
  have most' := (Nat.mul_le_mul_left high (few p hp)).trans most
  have boosted := between_boosted isM (h.activeBoosts p) start (by omega) (by omega)
  exact boosted.mono (by omega) (by omega)

end History

/-! ### Rolls -/

/-- The places of a room that are not deleted, as the log of an engine has them. -/
def Engine.livePlacesIn (e : Engine) (room : RoomId) : Table PlaceId Place :=
  (Projection.places.materialize (Projection.places.eventsIn (.room room) e.log.events)).filter
    fun _ place => !place.isDeleted

namespace Engine

variable {w : World}

theorem Serves.livePlacesIn {e : Engine} {supply : Nat} (serves : e.Serves w supply)
    (room : RoomId) : e.livePlacesIn room = w.livePlacesIn room := by
  rw [Engine.livePlacesIn, serves.events, World.livePlacesIn, World.state]

theorem map_eq_error_iff {α : Type} {r : Except Failure α} {f : Failure} :
    r.map (fun _ => ()) = .error f ↔ r = .error f := by
  cases r <;> simp [Except.map]

theorem map_eq_ok_iff {α : Type} {r : Except Failure α} :
    r.map (fun _ => ()) = .ok () ↔ ∃ a, r = .ok a := by
  cases r <;> simp [Except.map]

theorem rollVerdict_eq_noPlaces_iff {places : Table PlaceId Place} {h : History Float} {user : UserId}
    {now : Instant} :
    rollVerdict places h user now = .error .noPlaces ↔ places.isEmpty ∨
      h.mayRoll user now ∧ ¬ Weight.isUsable (Lottery.total (h.weights places.keys now)) := by
  unfold rollVerdict
  cases places.isEmpty <;> cases h.mayRoll user now <;>
    cases Weight.isUsable (Lottery.total (h.weights places.keys now)) <;> simp

theorem rollVerdict_eq_ok_iff {places : Table PlaceId Place} {h : History Float} {user : UserId}
    {now : Instant} :
    rollVerdict places h user now = .ok () ↔ places.isEmpty = false ∧
      h.mayRoll user now ∧ Weight.isUsable (Lottery.total (h.weights places.keys now)) := by
  unfold rollVerdict
  cases places.isEmpty <;> cases h.mayRoll user now <;>
    cases Weight.isUsable (Lottery.total (h.weights places.keys now)) <;> simp

/-- An engine without outages answers a roll with its verdict. -/
theorem Serves.exists_rollVerdict {e : Engine} (serves : e.Serves { w with locks := AllFree } 1)
    (reliable : e.Reliable) (user : UserId) (room : RoomId) (now : Instant) :
    ∃ r e', (roll user room now).run e = (some r, e') ∧
      r.map (fun _ => ()) = rollVerdict (e.livePlacesIn room) (e.historyAt room now) user now := by
  obtain ⟨r, e', _, ran, -, -, outcome⟩ := roll_ensures_verdict user room now 0 e serves
  refine ⟨r, e', ran, ?_⟩
  rw [serves.livePlacesIn, serves.historyAt]
  exact outcome.resolve_right fun failed => failed.1 reliable

/-- A roll is refused for lack of places exactly if no place is live, or if the user may roll and the
weights cannot be drawn by.  It is accepted exactly if the user may roll and the weights can be drawn
by.  They can if places are live and their boosts are few: if the multiplier of the rules is between
powers of two, and no place has so many active boosts that the exponents leave the range of doubles. -/
theorem roll_noPlaces_iff (settings : Settings) (entropy : UInt64) (log : EventLog)
    (directory : Directory) (ids : IdSupply) (commands : List Command) (user : UserId) (room : RoomId)
    (now : Instant) (valid : settings.rules.validate = .ok ()) (ungated : log.gated = false)
    (distinct : (Loaded.ids log.events).Nodup)
    (fresh : ids.FreshFor log.events (1 + 2 * commands.length)) :
    let e := (runAll commands (start settings entropy log directory ids)).recovered
    let h := e.historyAt room now
    let places := (e.livePlacesIn room).keys
    let weights := h.weights places now
    (∃ r e', (roll user room now).run e = (some r, e') ∧
      (r = .error .noPlaces ↔ places = [] ∨ h.mayRoll user now ∧ Lottery.Undrawable weights) ∧
      ((∃ view, r = .ok view) ↔ h.mayRoll user now ∧ ¬ Lottery.Undrawable weights)) ∧
    ∀ low high boosts, Double.Between low high settings.rules.boostMultiplier → places ≠ [] →
      (∀ p ∈ places, (h.activeBoosts p).length ≤ boosts) →
      low * boosts ≤ 1074 → high * boosts ≤ 937 → ¬ Lottery.Undrawable weights := by
  intro e h places weights
  obtain ⟨events, serves⟩ : ∃ events, Serves ⟨events, directory.users, settings.rules, AllFree⟩ 1
      (runAll commands (start settings entropy log directory ids)) :=
    runAll_serves (w := ⟨log.events, directory.users, settings.rules, AllFree⟩) commands
      (start_serves settings entropy log directory ungated distinct fresh)
  have sameRules : h.rules = settings.rules := serves.rules
  constructor
  · have usable_iff : Weight.isUsable (Lottery.total weights) ↔ ¬ Lottery.Undrawable weights :=
      Lottery.isUsable_total_iff fun x hx => History.isWeight_of_mem (sameRules ▸ valid) hx
    have empty_iff : (e.livePlacesIn room).isEmpty ↔ places = [] := by
      simp [places, Table.isEmpty, Table.keys]
    obtain ⟨r, e', ran, verdict⟩ := Serves.exists_rollVerdict
      (w := ⟨events, directory.users, settings.rules, AllFree⟩) serves.recovered
      (recovered_reliable _) user room now
    refine ⟨r, e', ran, ?_, ?_⟩
    · rw [← map_eq_error_iff, verdict, rollVerdict_eq_noPlaces_iff, empty_iff, usable_iff, not_not]
    · rw [← map_eq_ok_iff, verdict, rollVerdict_eq_ok_iff, usable_iff, ← Bool.not_eq_true, empty_iff]
      exact and_iff_right_of_imp fun drawn empty => drawn.2 (History.undrawable_of_nil empty)
  · intro low high boosts isM some few least most
    exact Lottery.not_undrawable (entries_weights_ne_nil some) fun x hx =>
      History.between_of_mem (sameRules ▸ isM) few least most hx

/-- A room is opened, and a place is added to it and boosted twice. -/
def boostedPlace : List Command :=
  openedPlace ++ [.boost ⟨"anna"⟩ ⟨.ofNat 1⟩ ⟨.ofNat 3⟩ default,
    .boost ⟨"anna"⟩ ⟨.ofNat 1⟩ ⟨.ofNat 3⟩ default]

/-- By the usual rules the second boost is refused, and the room rolls. -/
theorem roll_noPlaces_iff_boostedPlace :
    let e := (runAll boostedPlace (start {} 0 {} {} (numbered 0))).recovered
    Rules.standard.validate = .ok () ∧ (e.livePlacesIn ⟨.ofNat 1⟩).keys = [⟨.ofNat 3⟩] ∧
      ((e.historyAt ⟨.ofNat 1⟩ default).activeBoosts ⟨.ofNat 3⟩).length = 1 ∧
      ∃ r e', (roll ⟨"bert"⟩ ⟨.ofNat 1⟩ default).run e = (some r, e') ∧ ∃ view, r = .ok view := by
  intro e
  have valid : Rules.standard.validate = .ok () := rfl
  have live : (e.livePlacesIn ⟨.ofNat 1⟩).keys = [⟨.ofNat 3⟩] := by decide +kernel
  have once : ((e.historyAt ⟨.ofNat 1⟩ default).activeBoosts ⟨.ofNat 3⟩).length = 1 := by
    decide +kernel
  have may : (e.historyAt ⟨.ofNat 1⟩ default).mayRoll ⟨"bert"⟩ default := by decide +kernel
  have five : Double.Between 0 3 Rules.standard.boostMultiplier :=
    ⟨5, Rules.is_boostMultiplier_standard, by norm_num, by norm_num⟩
  obtain ⟨⟨r, e', ran, -, accepted⟩, drawable⟩ := roll_noPlaces_iff {} 0 {} {} (numbered 0)
    boostedPlace ⟨"bert"⟩ ⟨.ofNat 1⟩ default valid rfl .nil ⟨by decide, by simp⟩
  have few : ∀ p ∈ (e.livePlacesIn ⟨.ofNat 1⟩).keys,
      ((e.historyAt ⟨.ofNat 1⟩ default).activeBoosts p).length ≤ 1 := by
    simp only [live, List.mem_singleton, forall_eq]
    exact once.le
  exact ⟨valid, live, once, r, e', ran, accepted.2 ⟨may, drawable 0 3 1 five
    (live ▸ List.cons_ne_nil _ _) few (by norm_num) (by norm_num)⟩⟩

/-- Two points a week, and a multiplier whose square is too large for a number. -/
def steepRules : Rules Float where
  weeklyPoints := 2
  boostMultiplier := 1e200
  offset := .utc

/-- By steep rules the second boost is accepted too, and the room has a place that it cannot roll. -/
theorem not_roll_noPlaces_live :
    ¬ ∀ (settings : Settings) (entropy : UInt64) (log : EventLog) (directory : Directory)
      (ids : IdSupply) (commands : List Command) (user : UserId) (room : RoomId) (now : Instant),
      settings.rules.validate = .ok () → log.gated = false → (Loaded.ids log.events).Nodup →
      ids.FreshFor log.events (1 + 2 * commands.length) →
      let e := (runAll commands (start settings entropy log directory ids)).recovered
      (e.livePlacesIn room).keys ≠ [] → ((roll user room now).run e).1 ≠ some (.error .noPlaces) := by
  intro always
  let e := (runAll boostedPlace (start { rules := steepRules } 0 {} {} (numbered 0))).recovered
  have valid : steepRules.validate = .ok () := by decide +kernel
  have live : (e.livePlacesIn ⟨.ofNat 1⟩).keys ≠ [] := by decide +kernel
  have refused : ((roll ⟨"bert"⟩ ⟨.ofNat 1⟩ default).run e).1.map (Except.map fun _ => ()) =
      some (.error .noPlaces) := by decide +kernel
  obtain ⟨r, answered, same⟩ := Option.map_eq_some_iff.1 refused
  exact always { rules := steepRules } 0 {} {} (numbered 0) boostedPlace ⟨"bert"⟩ ⟨.ofNat 1⟩ default
    valid rfl .nil ⟨by decide, by simp⟩ live (answered.trans (congrArg some (map_eq_error_iff.1 same)))

end Engine

end NoonDraw
