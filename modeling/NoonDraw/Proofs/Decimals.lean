import NoonDraw.Proofs.Doubles
import NoonDraw.Proofs.Numerals
import NoonDraw.Weight

/-!
# Decimal numbers as doubles

A decimal number is read as the nearest double, whichever way it is computed: by one product or
quotient of exact doubles where its digits and its exponent are small, from long mantissas where they
are not, and by its size alone where it is far outside of what doubles reach
(`Text.Decimal.toFloat_nearest`).
So the borders of what makes a usable weight are borders of the decimal number itself
(`Text.isUsable_iff_of_float?`): what is at most half the least double is read as zero, and what is at
least half a last bit above the greatest is read as infinity.
-/

open Float.Model UnpackedFloat

namespace NoonDraw

namespace Double

/-! ### Quotients -/

/-- A division leaves a fraction that is below a half, a half, or above it. -/
theorem holds_div (n : Nat) {k : Nat} (pos : 0 < k) :
    Holds (.ofMantissaAndAccuracy (n / k) (accuracyOfFraction (n % k) k)) (n / k) := by
  have more : (0 : Rat) < k := by exact_mod_cast pos
  obtain ⟨f, hf⟩ : ∃ f : Rat, f = (n % k : Nat) / k := ⟨_, rfl⟩
  have parts : (n : Rat) / k = (n / k : Nat) + f := by
    have whole : (n : Rat) = k * (n / k : Nat) + (n % k : Nat) := by
      exact_mod_cast (Nat.div_add_mod n k).symm
    rw [hf, whole, add_div, mul_div_cancel_left₀ _ more.ne']
  have below : f < 1 := by
    rw [hf, div_lt_one more]
    exact_mod_cast Nat.mod_lt n pos
  rw [parts, accuracyOfFraction]
  split
  next none =>
    rw [hf, none, Nat.cast_zero, zero_div, add_zero]
    rfl
  next some =>
    have above : 0 < f := by
      rw [hf]
      exact div_pos (by exact_mod_cast Nat.pos_of_ne_zero some) more
    rcases order : compare (2 * (n % k)) k with _ | _ | _
    · have half : f < 1 / 2 := by
        rw [hf, div_lt_div_iff₀ more two_pos]
        exact_mod_cast (by rw [Nat.compare_eq_lt] at order; omega : n % k * 2 < 1 * k)
      exact ⟨lt_add_of_pos_right _ above, (add_lt_add_iff_left _).2 half⟩
    · have half : f = 1 / 2 := by
        rw [hf, div_eq_div_iff more.ne' two_ne_zero]
        exact_mod_cast (by rw [Nat.compare_eq_eq] at order; omega : n % k * 2 = 1 * k)
      exact congrArg _ half
    · have half : 1 / 2 < f := by
        rw [hf, div_lt_div_iff₀ two_pos more]
        exact_mod_cast (by rw [Nat.compare_eq_gt] at order; omega : 1 * k < n % k * 2)
      exact ⟨(add_lt_add_iff_left _).2 half, (add_lt_add_iff_left _).2 below⟩

/-- A quotient is long if its dividend is longer than its divisor by that much. -/
theorem le_log2_div {n k b : Nat} (pos : 0 < k) (long : k.log2 + 1 + b ≤ n.log2) :
    b ≤ (n / k).log2 := by
  have pos' : n ≠ 0 := by
    rintro rfl
    simp at long
  have least : 2 ^ b ≤ n / k := by
    rw [Nat.le_div_iff_mul_le pos]
    calc 2 ^ b * k ≤ 2 ^ b * 2 ^ (k.log2 + 1) := by gcongr; exact Nat.lt_log2_self.le
      _ = 2 ^ (k.log2 + 1 + b) := by ring
      _ ≤ 2 ^ n.log2 := Nat.pow_le_pow_right two_pos long
      _ ≤ n := Nat.log2_self_le pos'
  exact (Nat.le_log2 (pos_of_gt (lt_of_lt_of_le (by positivity) least)).ne').2 least

/-- Quotients of numbers of any length are rounded to nearest. -/
theorem exists_div {m k : Nat} {e d : Int} (pos : 0 < m) (pos' : 0 < k) :
    ∃ a, Nearest (m * 2 ^ e / (k * 2 ^ d)) a ∧
      Amounts (UnpackedFloat.div Format.binary64 (.finite .positive m e pos)
        (.finite .positive k d pos')) a := by
  obtain ⟨t, ht⟩ : ∃ t, t = min (e - d) (max ((m.log2 : Int) - k.log2 + e - d - 53) (-1074)) :=
    ⟨_, rfl⟩
  obtain ⟨s, hs⟩ : ∃ s : Nat, s = (e - d - t).toNat := ⟨_, rfl⟩
  have target : min (e - d)
      (Format.binary64.targetExponent (totalExponent m e - totalExponent k d)) = t := by
    simp only [Format.targetExponent, totalExponent, Format.minExponent, Format.mantissaBits]
    norm_num
    omega
  have core : divCore Format.binary64 m e k d =
      ((m <<< s) / k, t, accuracyOfFraction ((m <<< s) % k) k) := by
    simp only [divCore, target, hs]
  -- the dividend is made long enough for the quotient to have all bits of a mantissa
  have long : 52 ≤ ((m <<< s) / k).log2 ∨ t ≤ -1074 := by
    refine or_iff_not_imp_right.2 fun above => le_log2_div pos' ?_
    rw [log2_shiftLeft pos]
    omega
  obtain ⟨a, nearest, amounts⟩ := exists_roundWithAccuracy (holds_div (m <<< s) pos') long
  have same : ((m <<< s : Nat) : Rat) / k * 2 ^ t = m * 2 ^ e / (k * 2 ^ d) := by
    rw [show t = e - d - s by omega, div_mul_eq_mul_div, shiftLeft_mul_two_zpow,
      zpow_sub₀ two_ne_zero]
    field_simp
  refine ⟨a, same ▸ nearest, ?_⟩
  simp only [UnpackedFloat.div, core]
  exact amounts

/-- Every number is rounded to something. -/
theorem exists_nearest {v : Rat} (nonneg : 0 ≤ v) : ∃ a, Nearest v a := by
  rcases nonneg.eq_or_lt with rfl | above
  · exact ⟨0, .of_zero⟩
  · have pos : 0 < v.num.toNat := Int.lt_toNat.2 (Rat.num_pos.2 above)
    obtain ⟨a, nearest, -⟩ := exists_div (e := 0) (d := 0) pos v.den_pos
    have whole : (v.num.toNat : Rat) = v.num := by
      exact_mod_cast Int.toNat_of_nonneg (Rat.num_nonneg.2 nonneg)
    rw [zpow_zero, mul_one, mul_one, whole, Rat.num_div_den] at nearest
    exact ⟨a, nearest⟩

theorem div_eq (x y : Float) : x / y = .ofModel (.pack
    (UnpackedFloat.div Format.binary64 x.toModel.unpack y.toModel.unpack)) := rfl

/-- Quotients are rounded to nearest. -/
theorem Is.div_nearest {x y : Float} {v w : Rat} (isX : Is x v) (isY : Is y w) (pos : 0 < w) :
    RoundsToNearest (v / w) (x / y) := by
  rw [div_eq]
  rcases isY.cases with ⟨-, rfl⟩ | ⟨k, d, pos', unpacks', -, rfl⟩
  · exact absurd pos (lt_irrefl 0)
  rcases isX.cases with ⟨unpacks, rfl⟩ | ⟨m, e, pos, unpacks, -, rfl⟩ <;> rw [unpacks, unpacks']
  · rw [zero_div]
    exact roundsToNearest_pack .of_zero rfl
  · obtain ⟨a, nearest, amounts⟩ := exists_div pos pos'
    exact roundsToNearest_pack nearest amounts

/-- What has been rounded to nearest is usable as a weight if it is not beyond the borders. -/
theorem RoundsToNearest.isUsable_iff {v : Rat} {x : Float} (rounds : RoundsToNearest v x) :
    Weight.isUsable x = true ↔ 2 ^ (-1075 : Int) < v ∧ v < 2 ^ (1024 : Int) - 2 ^ (970 : Int) := by
  obtain ⟨a, nearest, outcome⟩ := rounds
  rw [← not_le, ← not_le, ← nearest.eq_zero_iff, ← nearest.large_iff, not_le]
  change (x.isFinite && decide (Float.ofNat 0 < x)) = true ↔ _
  rw [Bool.and_eq_true, decide_eq_true_iff]
  rcases outcome with ⟨small, is⟩ | ⟨large, infinite⟩
  · rw [is.isFinite, is.zero_lt_iff, is.nonneg.lt_iff_ne']
    exact and_comm.trans (and_congr_right' (iff_of_true small rfl)).symm
  · rw [infinite.isFinite]
    exact iff_of_false (fun usable => Bool.false_ne_true usable.1) fun usable => usable.2.not_ge large

/-- What has been rounded to a usable weight has been rounded to a closest double. -/
theorem RoundsToNearest.closest {v : Rat} {x : Float} (rounds : RoundsToNearest v x)
    (usable : Weight.isUsable x = true) : ∃ a, Is x a ∧ ∀ y w, Is y w → |v - a| ≤ |v - w| := by
  have within := (rounds.isUsable_iff.1 usable).2
  obtain ⟨a, nearest, ⟨-, is⟩ | ⟨large, -⟩⟩ := rounds
  · refine ⟨a, is, fun y w isY => ?_⟩
    rcases isY.cases with ⟨-, rfl⟩ | ⟨m, e, -, -, fits, rfl⟩
    · simpa using nearest.closest 0 0 (by norm_num) (by norm_num)
    · exact nearest.closest m e fits.short fits.least
  · exact absurd (nearest.large_iff.1 large) within.not_ge

/-! ### Signs -/

/-- What is packed with a minus sign is not above zero. -/
theorem not_lt_packComponents (exponent : BitVec 11) (mantissa : BitVec 52) :
    (UnpackedFloat.zero .positive).lt (UnpackedFloat.unpack Format.binary64
      (packComponents Format.binary64 .negative exponent mantissa)) = false := by
  simp only [UnpackedFloat.unpack, unpackExponent_packComponents, unpackMantissa_packComponents,
    unpackSign_packComponents]
  split
  · split <;> rfl
  split
  · split <;> rfl
  · rfl

theorem not_lt_pack_negative {m : Nat} {e : Int} (pos : 0 < m) :
    (UnpackedFloat.zero .positive).lt
      (Float.Model.pack (.finite .negative m e pos)).unpack = false := by
  change UnpackedFloat.lt _ (UnpackedFloat.unpack _ (UnpackedFloat.pack _ _)) = false
  rw [UnpackedFloat.pack]
  dsimp only
  split
  · rfl
  split <;> exact not_lt_packComponents _ _

theorem neg_eq (x : Float) : -x = .ofModel (.pack x.toModel.unpack.neg) := rfl

/-- A number from zero on is not above zero with a minus sign. -/
theorem IsWeight.neg_not_pos {x : Float} (weight : IsWeight x) : ¬Float.ofNat 0 < -x := by
  rw [zero_lt_iff_lt, neg_eq, Bool.not_eq_true]
  rcases weight with infinite | ⟨v, is⟩
  · rw [infinite]
    rfl
  · rcases is.cases with ⟨unpacks, -⟩ | ⟨m, e, pos, unpacks, -⟩ <;> rw [unpacks]
    · rfl
    · exact not_lt_pack_negative pos

/-- What is not usable as a weight. -/
theorem isUsable_eq_false_iff {x : Float} :
    Weight.isUsable x = false ↔ x.isNaN ∨ x.isInf ∨ x == 0 ∨ x < 0 := by
  have isLess : x < 0 ↔ x.toModel.unpack.lt (.zero .positive) = true := by
    change decide (x.toModel < (Float.ofNat 0).toModel) = true ↔ _
    rw [decide_eq_true_iff]
    rfl
  have same : (x == 0) = x.toModel.unpack.beq (.zero .positive) := rfl
  have isAbove : decide (Float.ofNat 0 < x) =
      (UnpackedFloat.zero .positive).lt x.toModel.unpack := by
    rw [Bool.eq_iff_iff, decide_eq_true_iff, zero_lt_iff_lt]
  change (x.toModel.unpack.isFinite && decide (Float.ofNat 0 < x)) = false ↔
    x.toModel.unpack.isNaN = true ∨ x.toModel.unpack.isInf = true ∨ _
  rw [isLess, same, isAbove]
  rcases x.toModel.unpack with _ | ⟨_ | _⟩ | ⟨_ | _⟩ | ⟨_ | _, m, e, pos⟩ <;>
    simp [UnpackedFloat.isFinite, UnpackedFloat.isNaN, UnpackedFloat.isInf, UnpackedFloat.beq,
      UnpackedFloat.lt, UnpackedFloat.compare]

/-! ### Powers of ten -/

instance (m : Nat) (e : Int) : Decidable (Fits m e) :=
  decidable_of_iff (m < 2 ^ 53 ∧ -1074 ≤ e ∧ (e = -1074 ∨ 2 ^ 52 ≤ m))
    ⟨fun ⟨short, least, full⟩ => ⟨short, least, full⟩,
      fun fits => ⟨fits.short, fits.least, fits.full⟩⟩

instance (v : Rat) : ∀ u, Decidable (Amounts u v)
  | .zero .positive => inferInstanceAs (Decidable (v = 0))
  | .finite .positive m e _ => inferInstanceAs (Decidable (Fits m e ∧ v = m * 2 ^ e))
  | .zero .negative | .finite .negative .. | .infinity _ | .notANumber =>
    inferInstanceAs (Decidable False)

instance (x : Float) (v : Rat) : Decidable (Is x v) :=
  inferInstanceAs (Decidable (Amounts x.toModel.unpack v))

/-- The powers of ten that need no rounding are in the table. -/
theorem is_powerOfTen : ∀ n : Fin 23, Is Float.exactlyRepresentablePowersOfTen[n] (10 ^ n.val) := by
  decide +kernel

/-- A power of ten, by whether it multiplies or divides. -/
theorem ten_zpow (e : Int) :
    (10 : Rat) ^ e = if e < 0 then (10 ^ e.natAbs)⁻¹ else 10 ^ e.natAbs := by
  split
  next below => rw [← zpow_natCast, ← zpow_neg, Int.ofNat_natAbs_of_nonpos below.le, neg_neg]
  next => rw [← zpow_natCast, Int.natAbs_of_nonneg (by omega)]

/-- Any mantissa and power of ten within reach are rounded once. -/
theorem exists_ofScientific {m : Nat} {e : Int} (pos : 0 < m) (low : -2048 ≤ e + m.log2)
    (high : e ≤ 2048) :
    ∃ a, Nearest (m * 10 ^ e) a ∧ Amounts (UnpackedFloat.ofScientific Format.binary64 m e) a := by
  have reach : ¬e > 2 ^ Format.binary64.exponentBits ∧
      ¬e < -(2 ^ Format.binary64.exponentBits + (m.log2 : Int)) := by
    change ¬e > 2 ^ 11 ∧ ¬e < -(2 ^ 11 + (m.log2 : Int))
    omega
  rw [UnpackedFloat.ofScientific, dif_neg pos.ne', if_neg reach.1, if_neg reach.2, ten_zpow]
  split
  next below =>
    rw [if_neg (not_le.2 below)]
    have quotient := exists_div (e := 0) (d := 0) pos (show 0 < 10 ^ (-e).toNat by positivity)
    rw [zpow_zero, mul_one, mul_one, div_eq_mul_inv] at quotient
    rw [show e.natAbs = (-e).toNat by omega]
    exact_mod_cast quotient
  next above =>
    rw [if_pos (not_lt.1 above)]
    -- the mantissa comes with zeros added, so that the product is long whatever the mantissa is
    have long : 52 ≤ ((m <<< 53) * 10 ^ e.toNat).log2 := by
      have least : 2 ^ 52 ≤ (m <<< 53) * 10 ^ e.toNat := by
        rw [Nat.shiftLeft_eq]
        calc 2 ^ 52 ≤ 1 * 2 ^ 53 * 1 := by norm_num
          _ ≤ m * 2 ^ 53 * 10 ^ e.toNat := by gcongr; exacts [pos, Nat.one_le_pow' _ 9]
      exact (Nat.le_log2 (lt_of_lt_of_le (by norm_num) least).ne').2 least
    have product := exists_roundWithAccuracy (e := 0 - (53 : Nat)) (holds_exact _) (.inl long)
    rw [Nat.cast_mul, mul_right_comm, shiftLeft_mul_two_zpow, zpow_zero, mul_one] at product
    rw [show e.natAbs = e.toNat by omega]
    exact_mod_cast product

/-- A mantissa and a power of ten are computed with exactly, and rounded once. -/
theorem ofScientific_nearest {m : Nat} (pos : 0 < m) (e : Int) (low : -2048 ≤ e + m.log2)
    (high : e ≤ 2048) :
    RoundsToNearest (m * 10 ^ e) (Float.ofScientific m (e < 0) e.natAbs) := by
  rw [Float.ofScientific]
  split
  next short =>
    have isTen := is_powerOfTen ⟨e.natAbs, by omega⟩
    have isWhole := is_toFloat short.1
    rw [ten_zpow]
    by_cases below : e < 0
    · simp only [below, decide_true, if_true, ← div_eq_mul_inv]
      exact isWhole.div_nearest isTen (by positivity)
    · simp only [below, decide_false, if_false, Bool.false_eq_true]
      exact isWhole.mul_nearest isTen
  next =>
    have signed : (if decide (e < 0) = true then Int.negOfNat e.natAbs
        else Int.ofNat e.natAbs) = e := by
      cases e with
      | ofNat n => rfl
      | negSucc n => rw [if_pos (decide_eq_true (Int.negSucc_lt_zero n))]; rfl
    simp only [signed]
    obtain ⟨a, nearest, amounts⟩ := exists_ofScientific pos low high
    exact roundsToNearest_pack nearest amounts

end Double

namespace Text

/-- A number has as many decimal digits as its size tells. -/
theorem Digits.decimal_bounds {n : Nat} (pos : 0 < n) :
    10 ^ ((decimal n).length - 1) ≤ n ∧ n < 10 ^ (decimal n).length := by
  have some : 0 < (decimal n).length := Nat.length_toDigits_pos
  refine ⟨not_lt.1 fun less => ?_, (Nat.length_toDigits_le_iff (by norm_num) some).1 le_rfl⟩
  rcases Nat.eq_zero_or_pos ((decimal n).length - 1) with one | more
  · rw [one] at less
    omega
  · have fewer : (decimal n).length ≤ (decimal n).length - 1 :=
      (Nat.length_toDigits_le_iff (by norm_num) more).2 less
    omega

namespace Decimal

open Double

/-- What a decimal number stands for. -/
def value (d : Decimal) : Rat := d.digits * 10 ^ d.exponent

/-- How many digits a decimal number has in front of the point. -/
def size (d : Decimal) : Int := (Digits.decimal d.digits).length + d.exponent

theorem value_bounds {d : Decimal} (pos : 0 < d.digits) :
    10 ^ (d.size - 1) ≤ d.value ∧ d.value < 10 ^ d.size := by
  obtain ⟨least, most⟩ := Digits.decimal_bounds pos
  have some : 0 < (Digits.decimal d.digits).length := Nat.length_toDigits_pos
  constructor
  · rw [show d.size - 1 = ((Digits.decimal d.digits).length - 1 : Nat) + d.exponent by
      rw [size]; omega, zpow_add₀ (by norm_num), zpow_natCast]
    exact mul_le_mul_of_nonneg_right (by exact_mod_cast least) (by positivity)
  · rw [size, zpow_add₀ (by norm_num), zpow_natCast]
    exact mul_lt_mul_of_pos_right (by exact_mod_cast most) (by positivity)

theorem two_zpow_le_ten_zpow (n : Nat) {b : Int} (le : b ≤ 3 * n) :
    (2 : Rat) ^ b ≤ 10 ^ (n : Int) := calc
  (2 : Rat) ^ b ≤ 2 ^ ((3 * n : Nat) : Int) :=
    zpow_le_zpow_right₀ one_le_two (by push_cast; exact le)
  _ = (2 ^ 3) ^ n := by rw [zpow_natCast, pow_mul]
  _ ≤ 10 ^ n := by gcongr; norm_num
  _ = 10 ^ (n : Int) := (zpow_natCast _ n).symm

/-- A number below `10 ^ -400` is below half the least double. -/
theorem le_of_size_lt {d : Decimal} (pos : 0 < d.digits) (small : d.size < -400) :
    d.value ≤ 2 ^ (-1075 : Int) := calc
  d.value ≤ 10 ^ d.size := (value_bounds pos).2.le
  _ ≤ 10 ^ (-(400 : Nat) : Int) := zpow_le_zpow_right₀ (by norm_num) (by omega)
  _ = (10 ^ ((400 : Nat) : Int))⁻¹ := zpow_neg _ _
  _ ≤ (2 ^ (1075 : Int))⁻¹ :=
    inv_anti₀ (by positivity) (two_zpow_le_ten_zpow 400 (by norm_num))
  _ = 2 ^ (-1075 : Int) := (zpow_neg _ _).symm

/-- A number from `10 ^ 400` on is above all doubles. -/
theorem le_of_lt_size {d : Decimal} (pos : 0 < d.digits) (large : 400 < d.size) :
    2 ^ (1024 : Int) - 2 ^ (970 : Int) ≤ d.value := calc
  (2 : Rat) ^ (1024 : Int) - 2 ^ (970 : Int) ≤ 2 ^ (1024 : Int) := sub_le_self _ (by positivity)
  _ ≤ 10 ^ ((400 : Nat) : Int) := two_zpow_le_ten_zpow 400 (by norm_num)
  _ ≤ 10 ^ (d.size - 1) := zpow_le_zpow_right₀ (by norm_num) (by omega)
  _ ≤ d.value := (value_bounds pos).1

/-- A decimal number is read as the nearest double. -/
theorem toFloat_nearest (d : Decimal) : RoundsToNearest d.value d.toFloat := by
  have unfolds : d.toFloat = if d.digits = 0 ∨ d.size < -400 then 0.0
      else if 400 < d.size then 1.0 / 0.0
      else Float.ofScientific d.digits (d.exponent < 0) d.exponent.natAbs := rfl
  have isZero : Is 0.0 0 := by decide +kernel
  rw [unfolds]
  rcases Nat.eq_zero_or_pos d.digits with zero | pos
  · rw [if_pos (.inl zero), value, zero, Nat.cast_zero, zero_mul]
    exact ⟨0, .of_zero, .inl ⟨by positivity, isZero⟩⟩
  obtain ⟨a, nearest⟩ := exists_nearest (le_trans (by positivity) (value_bounds pos).1)
  split
  next none =>
    obtain rfl := nearest.eq_zero_iff.2 (le_of_size_lt pos (none.resolve_left pos.ne'))
    exact ⟨0, nearest, .inl ⟨by positivity, isZero⟩⟩
  next some =>
    split
    next large => exact ⟨a, nearest, .inr ⟨nearest.large_iff.2 (le_of_lt_size pos large), rfl⟩⟩
    next notLarge =>
      -- a number in the middle is within reach, however many digits it has
      have few : (Digits.decimal d.digits).length - 1 ≤ d.digits.log2 := by
        rw [Nat.le_log2 pos.ne']
        exact (Nat.pow_le_pow_left (by norm_num) _).trans (Digits.decimal_bounds pos).1
      rw [size] at notLarge some
      exact ofScientific_nearest pos d.exponent (by omega) (by omega)

end Decimal

/-! ### Doubles from text -/

theorem magnitude?_decimal {cs : List Char} {d : Decimal} (decimal : IsDecimal cs d) :
    magnitude? cs = some d.toFloat := by
  have notWord := decimal.not_mem_words
  simp only [words, List.mem_cons, List.not_mem_nil, or_false, ← or_assoc, not_or] at notWord
  rw [magnitude?, if_neg (not_or.2 notWord.1), if_neg notWord.2,
    Decimal.ofChars?_eq_some_iff.2 decimal]
  rfl

theorem magnitude?_isSome_iff {cs : List Char} : (magnitude? cs).isSome ↔ SpellsMagnitude cs := by
  rw [magnitude?, SpellsMagnitude]
  simp only [words, List.mem_cons, List.not_mem_nil, or_false, ← or_assoc]
  split
  next infinite => exact iff_of_true rfl (.inl (.inl infinite))
  next notInfinite =>
    split
    next notNumber => exact iff_of_true rfl (.inl (.inr notNumber))
    next isNumber =>
      rw [Option.isSome_map, Option.isSome_iff_exists,
        or_iff_right (not_or.2 ⟨notInfinite, isNumber⟩)]
      exact exists_congr fun d => Decimal.ofChars?_eq_some_iff

/-- What is read without a sign is infinity, not a number, or a decimal number. -/
theorem magnitude?_cases {cs : List Char} {x : Float} (reads : magnitude? cs = some x) :
    x = 1.0 / 0.0 ∨ x = 0.0 / 0.0 ∨ ∃ d, IsDecimal cs d ∧ x = d.toFloat := by
  rw [magnitude?] at reads
  split at reads
  · exact .inl (Option.some.inj reads).symm
  split at reads
  · exact .inr (.inl (Option.some.inj reads).symm)
  · obtain ⟨d, decimal, rfl⟩ := Option.map_eq_some_iff.1 reads
    exact .inr (.inr ⟨d, Decimal.ofChars?_eq_some_iff.1 decimal, rfl⟩)

/-- A double is read if it is spelled. -/
theorem float?_isSome_iff {s : String} : (float? s).isSome ↔ SpellsDouble s.toList := by
  rw [float?]
  split
  next ds same => rw [same, spellsDouble_cons (.inl rfl), magnitude?_isSome_iff]
  next ds same => rw [same, spellsDouble_cons (.inr rfl), Option.isSome_map, magnitude?_isSome_iff]
  next plus minus => rw [spellsDouble_unsigned plus minus, magnitude?_isSome_iff]

theorem float?_decimal {s : String} {d : Decimal} (decimal : IsUnsignedDecimal s.toList d) :
    float? s = some d.toFloat := by
  rw [float?]
  rcases decimal with decimal | ⟨ds, same, decimal⟩
  · obtain ⟨c, ds, same, first⟩ := decimal.head
    split
    next same' => 
      cases same.symm.trans same'
      exact absurd first (by decide)
    next same' => 
      cases same.symm.trans same'
      exact absurd first (by decide)
    next => exact magnitude?_decimal decimal
  · rw [same]
    exact magnitude?_decimal decimal

/-- A decimal number above zero that a double can hold: it is above half the least double above zero,
and less than half a last bit above the greatest. -/
def SpellsUsable (cs : List Char) : Prop :=
  ∃ d, IsUnsignedDecimal cs d ∧
    2 ^ (-1075 : Int) < d.value ∧ d.value < 2 ^ (1024 : Int) - 2 ^ (970 : Int)

/-- A text gives a usable weight if it spells a decimal number between the borders. -/
theorem isUsable_iff_of_float? {s : String} {x : Float} (reads : float? s = some x) :
    Weight.isUsable x = true ↔ SpellsUsable s.toList := by
  constructor
  · intro usable
    have unsigned {cs : List Char} (reads : magnitude? cs = some x) :
        ∃ d, IsDecimal cs d ∧ 
          2 ^ (-1075 : Int) < d.value ∧ d.value < 2 ^ (1024 : Int) - 2 ^ (970 : Int) := by
      rcases magnitude?_cases reads with rfl | rfl | ⟨d, decimal, rfl⟩
      · exact absurd usable (by decide +kernel)
      · exact absurd usable (by decide +kernel)
      · exact ⟨d, decimal, d.toFloat_nearest.isUsable_iff.1 usable⟩
    rw [float?] at reads
    split at reads
    next cs same =>
      obtain ⟨d, decimal, within⟩ := unsigned reads
      exact ⟨d, .inr ⟨cs, same, decimal⟩, within⟩
    next cs same =>
      obtain ⟨y, reads', rfl⟩ := Option.map_eq_some_iff.1 reads
      have pos : Float.ofNat 0 < -y := by
        change (_ && decide _) = true at usable
        rw [Bool.and_eq_true, decide_eq_true_iff] at usable
        exact usable.2
      rcases magnitude?_cases reads' with rfl | rfl | ⟨d, decimal, rfl⟩
      · exact absurd pos (by decide +kernel)
      · exact absurd pos (by decide +kernel)
      · exact absurd pos d.toFloat_nearest.rounds.isWeight.neg_not_pos
    next =>
      obtain ⟨d, decimal, within⟩ := unsigned reads
      exact ⟨d, .inl decimal, within⟩
  · rintro ⟨d, decimal, within⟩
    obtain rfl := Option.some.inj (reads.symm.trans (float?_decimal decimal))
    exact d.toFloat_nearest.isUsable_iff.2 within

end Text

end NoonDraw
