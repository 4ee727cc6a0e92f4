import Mathlib

/-!
# Doubles from zero on

What sums and products of doubles come to that are zero or more.  The exact result is rounded to a
nearest double, or to infinity if it is too large (`Double.Rounds`).  Of rounding this keeps what powers
of two tell (`Double.Near`): a result that is no less than a power of two is rounded to no less, and one
that is hardly more than a power of two is rounded to no more.  Hence adding up numbers of a bounded
size stops growing before it overflows, however many they are.  Of a product it keeps as well that no
double is closer, and what is rounded to zero or to infinity (`Double.Nearest`).

The proofs follow the arithmetic of the format: a mantissa is shifted, with two bits for what was
shifted out (`Double.Holds`), rounded to even (`Double.exists_round`), and packed
(`Double.unpack_pack`).  Whole numbers whose mantissa is short enough stay as they are
(`Double.is_ofNat`).
-/

open Float.Model UnpackedFloat

namespace NoonDraw.Double

/-! ### Mantissas -/

/-- What a mantissa with a round bit and a sticky bit stands for. -/
def Holds (em : ExtendedMantissa) (x : Rat) : Prop :=
  match em.roundBit, em.stickyBit with
  | false, false => x = em.mantissa
  | false, true => (em.mantissa : Rat) < x ∧ x < em.mantissa + 1 / 2
  | true, false => x = em.mantissa + 1 / 2
  | true, true => (em.mantissa : Rat) + 1 / 2 < x ∧ x < em.mantissa + 1

theorem Holds.shiftRightOne {em : ExtendedMantissa} {x : Rat} (holds : Holds em x) :
    Holds em.shiftRightOne (x / 2) := by
  obtain ⟨m, r, s⟩ := em
  have halves : (m : Rat) = 2 * (m / 2 : Nat) + (m % 2 : Nat) := by
    exact_mod_cast (Nat.div_add_mod m 2).symm
  rcases Nat.mod_two_eq_zero_or_one m with parity | parity
  all_goals
    rw [parity] at halves
    norm_num at halves
    cases r <;> cases s <;> simp [Holds, ExtendedMantissa.shiftRightOne, parity] at holds ⊢
  all_goals first | linarith | (constructor <;> linarith)

theorem Holds.shiftRight {em : ExtendedMantissa} {x : Rat} (holds : Holds em x) (n : Nat) :
    Holds (em >>> n) (x / 2 ^ n) := by
  change Holds (n.repeat ExtendedMantissa.shiftRightOne em) (x / 2 ^ n)
  induction n with
  | zero => simpa [Nat.repeat] using holds
  | succ n ih =>
    rw [pow_succ, ← div_div]
    exact ih.shiftRightOne

/-- Rounding is to a nearest whole number. -/
theorem Holds.roundedMantissa {em : ExtendedMantissa} {x : Rat} (holds : Holds em x) :
    x - 1 / 2 ≤ em.roundedMantissa ∧ em.roundedMantissa ≤ x + 1 / 2 := by
  obtain ⟨m, r, s⟩ := em
  rcases Nat.mod_two_eq_zero_or_one m with parity | parity
  all_goals
    cases r <;> cases s <;> simp [Holds, ExtendedMantissa.roundedMantissa,
      ExtendedMantissa.accuracy, Accuracy.roundToNearestEven, parity] at holds ⊢
    all_goals constructor <;> linarith

/-- Halfway between two whole numbers, rounding is to the even one. -/
theorem Holds.even_of_tie {em : ExtendedMantissa} {x : Rat} (holds : Holds em x)
    (tie : x = em.roundedMantissa - 1 / 2 ∨ x = em.roundedMantissa + 1 / 2) :
    em.roundedMantissa % 2 = 0 := by
  obtain ⟨m, r, s⟩ := em
  cases r <;> cases s <;> simp only [Holds, ExtendedMantissa.roundedMantissa,
    ExtendedMantissa.accuracy, Accuracy.roundToNearestEven] at holds tie ⊢
  case true.false => omega
  all_goals
    push_cast at tie
    rcases tie with tie | tie <;> linarith

/-- What is half less than an even number is rounded up to it. -/
theorem Holds.even_le_iff {em : ExtendedMantissa} {x : Rat} (holds : Holds em x) {n : Nat}
    (even : n % 2 = 0) : n ≤ em.roundedMantissa ↔ (n : Rat) - 1 / 2 ≤ x := by
  obtain ⟨below, above⟩ := holds.roundedMantissa
  refine ⟨fun le => ?_, fun le => not_lt.1 fun less => ?_⟩
  · have : (n : Rat) ≤ em.roundedMantissa := by exact_mod_cast le
    linarith
  · have next : (em.roundedMantissa : Rat) + 1 ≤ n := by exact_mod_cast less
    have same : em.roundedMantissa + 1 = n := by
      have : (n : Rat) ≤ em.roundedMantissa + 1 := by linarith
      exact le_antisymm less (by exact_mod_cast this)
    have := holds.even_of_tie (.inr (by linarith))
    omega

/-- What is half more than an even number is rounded down to it. -/
theorem Holds.le_even_iff {em : ExtendedMantissa} {x : Rat} (holds : Holds em x) {n : Nat}
    (even : n % 2 = 0) : em.roundedMantissa ≤ n ↔ x ≤ (n : Rat) + 1 / 2 := by
  obtain ⟨below, above⟩ := holds.roundedMantissa
  refine ⟨fun le => ?_, fun le => not_lt.1 fun less => ?_⟩
  · have : (em.roundedMantissa : Rat) ≤ n := by exact_mod_cast le
    linarith
  · have next : (n : Rat) + 1 ≤ em.roundedMantissa := by exact_mod_cast less
    have same : n + 1 = em.roundedMantissa := by
      have : (em.roundedMantissa : Rat) ≤ n + 1 := by linarith
      exact le_antisymm less (by exact_mod_cast this)
    have := holds.even_of_tie (.inl (by linarith))
    omega

theorem holds_exact (m : Nat) : Holds (.ofMantissaAndAccuracy m .exact) m := rfl

/-- A number begins with the mantissa that it was cut off after. -/
theorem Holds.bounds {m : Nat} {accuracy : Accuracy} {x : Rat}
    (holds : Holds (.ofMantissaAndAccuracy m accuracy) x) : m ≤ x ∧ x < m + 1 := by
  rcases accuracy with _ | _ | _ | _ <;>
    simp only [Holds, ExtendedMantissa.ofMantissaAndAccuracy] at holds <;> constructor <;> linarith

/-! ### Powers of two -/

/-- A number and what it is rounded to, as far as powers of two tell. -/
structure Near (v a : Rat) : Prop where
  /-- Zero is rounded to itself. -/
  zero : v = 0 → a = 0
  /-- What is hardly more than a power of two is rounded to no more. -/
  le : ∀ b : Int, -1022 ≤ b → v ≤ 2 ^ b + 2 ^ (b - 54) → a ≤ 2 ^ b
  /-- What is no less than a power of two is rounded to no less. -/
  ge : ∀ b : Int, -1074 ≤ b → 2 ^ b ≤ v → 2 ^ b ≤ a

/-- A number and what it is rounded to, a tie going to the even side: the border of zero is half the
least double, and the border of infinity is half a last bit above the greatest. -/
structure Nearest (v a : Rat) : Prop extends Near v a where
  /-- No other mantissa and exponent are closer, even if the exponent is too large. -/
  closest : ∀ (m : Nat) (e : Int), m < 2 ^ 53 → -1074 ≤ e → |v - a| ≤ |v - m * 2 ^ e|
  /-- What is rounded to zero. -/
  eq_zero_iff : a = 0 ↔ v ≤ 2 ^ (-1075 : Int)
  /-- What is rounded to more than the doubles reach. -/
  large_iff : 2 ^ (1024 : Int) ≤ a ↔ 2 ^ (1024 : Int) - 2 ^ (970 : Int) ≤ v

theorem Nearest.of_zero : Nearest 0 0 where
  zero := id
  le b _ _ := by positivity
  ge b _ le := absurd le (not_le.2 (by positivity))
  closest m e _ _ := by
    rw [sub_zero, abs_zero]
    exact abs_nonneg _
  eq_zero_iff := iff_of_true rfl (by positivity)
  large_iff := by
    refine iff_of_false (not_le.2 (by positivity)) (not_le.2 (sub_pos.2 ?_))
    exact zpow_lt_zpow_right₀ one_lt_two (by norm_num)

theorem Near.le_two_zpow {v a : Rat} (near : Near v a) {b : Int} (least : -1022 ≤ b)
    (le : v ≤ 2 ^ b) : a ≤ 2 ^ b :=
  near.le b least (le.trans (le_add_of_nonneg_right (by positivity)))

theorem two_zpow_add (e : Int) (d : Nat) : (2 : Rat) ^ (e + d) = 2 ^ d * 2 ^ e := by
  rw [zpow_add₀ two_ne_zero, zpow_natCast, mul_comm]

section

variable {x : Rat} {r : Nat} {e b : Int}

/-- The last bit of a long mantissa is far below a power of two that the number is hardly more than. -/
theorem far_below (least : -1022 ≤ b) (full : e = -1074 ∨ 2 ^ 52 ≤ x)
    (small : x * 2 ^ e ≤ 2 ^ b + 2 ^ (b - 54)) : e + 52 ≤ b := by
  rcases full with rfl | full
  · omega
  have below : (2 : Rat) ^ (e + 52) < 2 ^ (b + 1) := calc
    (2 : Rat) ^ (e + 52) = 2 ^ 52 * 2 ^ e := two_zpow_add e 52
    _ ≤ x * 2 ^ e := by gcongr
    _ ≤ 2 ^ b + 2 ^ (b - 54) := small
    _ < 2 ^ b + 2 ^ b := by gcongr <;> norm_num
    _ = 2 ^ (b + 1) := by rw [zpow_add_one₀ two_ne_zero]; ring
  exact Int.lt_add_one_iff.1 ((zpow_lt_zpow_iff_right₀ one_lt_two).1 below)

/-- What is hardly more than a power of two is rounded to no more. -/
theorem rounded_le (above : r ≤ x + 1 / 2) (short : x < 2 ^ 53) (far : e + 52 ≤ b)
    (small : x * 2 ^ e ≤ 2 ^ b + 2 ^ (b - 54)) : (r * 2 ^ e : Rat) ≤ 2 ^ b := by
  have pos : (0 : Rat) < 2 ^ e := by positivity
  obtain ⟨d, rfl⟩ : ∃ d : Nat, b = e + d := ⟨(b - e).toNat, by omega⟩
  rw [two_zpow_add e d] at small ⊢
  have bounded : r ≤ 2 ^ d := by
    rcases eq_or_lt_of_le (show 52 ≤ d by omega) with rfl | more
    · -- what the number is more by is a quarter of the last bit
      have quarter : (2 : Rat) ^ (e + (52 : Nat) - 54) = 1 / 4 * 2 ^ e := by
        rw [show e + (52 : Nat) - 54 = e + (-2) by push_cast; ring, zpow_add₀ two_ne_zero]
        norm_num
        ring
      rw [quarter, ← add_mul, mul_le_mul_iff_left₀ pos] at small
      have next : (r : Rat) < 2 ^ 52 + 1 := by linarith
      exact Nat.lt_succ_iff.1 (by exact_mod_cast next)
    · have next : (r : Rat) < 2 ^ 53 + 1 := by linarith
      have most : r ≤ 2 ^ 53 := Nat.lt_succ_iff.1 (by exact_mod_cast next)
      exact most.trans (Nat.pow_le_pow_right (by norm_num) more)
  gcongr
  exact_mod_cast bounded

/-- What is no less than a power of two is rounded to no less. -/
theorem le_rounded (below : x - 1 / 2 ≤ r) (least : -1074 ≤ b) (full : e = -1074 ∨ 2 ^ 52 ≤ x)
    (large : 2 ^ b ≤ x * 2 ^ e) : (2 ^ b : Rat) ≤ r * 2 ^ e := by
  have pos : (0 : Rat) < 2 ^ e := by positivity
  by_cases low : e ≤ b
  · obtain ⟨d, rfl⟩ : ∃ d : Nat, b = e + d := ⟨(b - e).toNat, by omega⟩
    rw [two_zpow_add e d] at large ⊢
    have most : (2 : Rat) ^ d ≤ x := le_of_mul_le_mul_right large pos
    have next : (2 : Rat) ^ d < r + 1 := by linarith
    have bounded : 2 ^ d ≤ r := Nat.lt_succ_iff.1 (by exact_mod_cast next)
    gcongr
    exact_mod_cast bounded
  · have long : (1 : Rat) ≤ r := by linarith [full.resolve_left (by omega)]
    calc (2 : Rat) ^ b ≤ 2 ^ e := zpow_le_zpow_right₀ one_le_two (by omega)
      _ ≤ r * 2 ^ e := le_mul_of_one_le_left pos.le long

/-- A mantissa of full length that is rounded to a nearest whole number. -/
theorem near_of_round (below : x - 1 / 2 ≤ r) (above : r ≤ x + 1 / 2) (short : x < 2 ^ 53)
    (full : e = -1074 ∨ 2 ^ 52 ≤ x) : Near (x * 2 ^ e) (r * 2 ^ e) where
  zero isZero := by
    obtain rfl : x = 0 := (mul_eq_zero.1 isZero).resolve_right (by positivity)
    have less : (r : Rat) < 1 := by linarith
    rw [Nat.lt_one_iff.1 (by exact_mod_cast less : r < 1), Nat.cast_zero, zero_mul]
  le _ least small := rounded_le above short (far_below least full small) small
  ge _ least large := le_rounded below least full large

end

/-- Above all doubles are the numbers from half a last bit above the greatest on. -/
theorem Holds.large_iff {em : ExtendedMantissa} {x : Rat} {e : Int} (holds : Holds em x)
    (short : x < 2 ^ 53) (full : e = -1074 ∨ 2 ^ 52 ≤ x) :
    (2 ^ (1024 : Int) : Rat) ≤ em.roundedMantissa * 2 ^ e ↔
      (2 ^ (1024 : Int) : Rat) - 2 ^ (970 : Int) ≤ x * 2 ^ e := by
  obtain ⟨q, hq⟩ : ∃ q : Rat, q = 2 ^ (970 : Int) := ⟨_, rfl⟩
  have pos : 0 < q := by rw [hq]; positivity
  have times (d : Nat) : (2 : Rat) ^ (970 + d : Int) = 2 ^ d * q := by
    rw [hq, two_zpow_add]
  rw [show (2 : Rat) ^ (1024 : Int) = 2 ^ 54 * q from times 54, ← hq]
  rcases lt_trichotomy e 971 with low | rfl | high
  · have less : (2 : Rat) ^ e ≤ q := by
      rw [hq]
      exact zpow_le_zpow_right₀ one_le_two (by omega)
    have below {y : Rat} (most : y ≤ 2 ^ 53 + 1) : y * 2 ^ e < 2 ^ 54 * q - q := calc
      y * 2 ^ e ≤ (2 ^ 53 + 1) * 2 ^ e := by gcongr
      _ ≤ (2 ^ 53 + 1) * q := by gcongr
      _ < 2 ^ 54 * q - q := by linarith only [pos]
    have most : (em.roundedMantissa : Rat) ≤ 2 ^ 53 + 1 := by linarith [holds.roundedMantissa.2]
    exact iff_of_false (not_le.2 ((below most).trans (sub_lt_self _ pos)))
      (not_le.2 (below (by linarith)))
  · rw [show (2 : Rat) ^ (971 : Int) = 2 * q from (times 1).trans (by rw [pow_one]),
      show 2 ^ 54 * q = 2 ^ 53 * (2 * q) by ring,
      show 2 ^ 53 * (2 * q) - q = (2 ^ 53 - 1 / 2) * (2 * q) by ring,
      mul_le_mul_iff_left₀ (by positivity), mul_le_mul_iff_left₀ (by positivity)]
    exact_mod_cast holds.even_le_iff (show 2 ^ 53 % 2 = 0 by norm_num)
  · have long : (2 : Rat) ^ 52 ≤ x := full.resolve_left (by omega)
    have long' : ((2 ^ 52 : Nat) : Rat) ≤ em.roundedMantissa := by
      refine Nat.cast_le.2 ((holds.even_le_iff (by norm_num)).2 ?_)
      push_cast
      linarith
    have more : 2 ^ 2 * q ≤ 2 ^ e := by
      rw [← times 2]
      exact zpow_le_zpow_right₀ one_le_two (by omega)
    have above {y : Rat} (least : 2 ^ 52 ≤ y) : 2 ^ 54 * q ≤ y * 2 ^ e := calc
      2 ^ 54 * q = 2 ^ 52 * (2 ^ 2 * q) := by ring
      _ ≤ y * 2 ^ e := by gcongr
    exact iff_of_true (above (by exact_mod_cast long')) ((sub_le_self _ pos.le).trans (above long))

/-- No whole number is closer than the one that is rounded to. -/
theorem Holds.closest_nat {em : ExtendedMantissa} {x : Rat} (holds : Holds em x) (n : Nat) :
    |x - em.roundedMantissa| ≤ |x - n| := by
  obtain ⟨below, above⟩ := holds.roundedMantissa
  have half : |x - em.roundedMantissa| ≤ 1 / 2 := abs_le.2 ⟨by linarith, by linarith⟩
  rcases lt_trichotomy n em.roundedMantissa with less | rfl | more
  · have next : (n : Rat) + 1 ≤ em.roundedMantissa := by exact_mod_cast less
    exact half.trans (le_trans (by linarith) (le_abs_self _))
  · exact le_rfl
  · have next : (em.roundedMantissa : Rat) + 1 ≤ n := by exact_mod_cast more
    exact half.trans (le_trans (by linarith) (neg_le_abs _))

/-- No double is closer than the one that is rounded to. -/
theorem Holds.closest {em : ExtendedMantissa} {x : Rat} {e : Int} (holds : Holds em x)
    (full : e = -1074 ∨ 2 ^ 52 ≤ x) (m : Nat) (d : Int) (short : m < 2 ^ 53) (least : -1074 ≤ d) :
    |x * 2 ^ e - em.roundedMantissa * 2 ^ e| ≤ |x * 2 ^ e - m * 2 ^ d| := by
  have scaled (n : Nat) : |x * 2 ^ e - em.roundedMantissa * 2 ^ e| ≤ |x * 2 ^ e - n * 2 ^ e| := by
    have pos : (0 : Rat) < 2 ^ e := by positivity
    rw [← sub_mul, ← sub_mul, abs_mul, abs_mul]
    exact mul_le_mul_of_nonneg_right (holds.closest_nat n) (abs_nonneg _)
  rcases le_or_gt e d with le | less
  · obtain ⟨k, rfl⟩ : ∃ k : Nat, d = e + k := ⟨(d - e).toNat, by omega⟩
    have whole : (m : Rat) * 2 ^ (e + k : Int) = (m * 2 ^ k : Nat) * 2 ^ e := by
      rw [two_zpow_add]
      push_cast
      ring
    rw [whole]
    exact scaled _
  · -- the other exponent is smaller, so that its numbers are all below the mantissa's first bit
    have long : (2 : Rat) ^ 52 ≤ x := full.resolve_left (by omega)
    have low : (m : Rat) * 2 ^ d ≤ (2 ^ 52 : Nat) * 2 ^ e := calc
      (m : Rat) * 2 ^ d ≤ 2 ^ 53 * 2 ^ d := by gcongr; exact_mod_cast short.le
      _ = 2 ^ 52 * 2 ^ (d + 1) := by rw [zpow_add_one₀ two_ne_zero]; ring
      _ ≤ 2 ^ 52 * 2 ^ e := by gcongr; exacts [one_le_two, less]
      _ = (2 ^ 52 : Nat) * 2 ^ e := by push_cast; rfl
    have high : ((2 ^ 52 : Nat) : Rat) * 2 ^ e ≤ x * 2 ^ e := by
      gcongr
      exact_mod_cast long
    refine (scaled (2 ^ 52)).trans ?_
    rw [abs_of_nonneg (sub_nonneg.2 high), abs_of_nonneg (sub_nonneg.2 (low.trans high))]
    exact sub_le_sub_left low _

/-- What a mantissa of full length is rounded to. -/
theorem Holds.nearest {em : ExtendedMantissa} {x : Rat} {e : Int} (holds : Holds em x)
    (short : x < 2 ^ 53) (least : -1074 ≤ e) (full : e = -1074 ∨ 2 ^ 52 ≤ x) :
    Nearest (x * 2 ^ e) (em.roundedMantissa * 2 ^ e) where
  toNear := near_of_round holds.roundedMantissa.1 holds.roundedMantissa.2 short full
  closest := holds.closest full
  eq_zero_iff := by
    have pos : (0 : Rat) < 2 ^ e := by positivity
    have half : (2 : Rat) ^ (-1075 : Int) = 1 / 2 * 2 ^ (-1074 : Int) := by
      rw [show (-1075 : Int) = -1 + -1074 by norm_num, zpow_add₀ two_ne_zero]
      norm_num
    have none : em.roundedMantissa = 0 ↔ x ≤ 1 / 2 := by
      simpa using holds.le_even_iff (Nat.zero_mod 2)
    rw [mul_eq_zero_iff_right pos.ne', Nat.cast_eq_zero, none, half]
    rcases full with rfl | full
    · rw [mul_le_mul_iff_left₀ pos]
    · refine iff_of_false (by linarith) (not_le.2 ?_)
      calc (1 : Rat) / 2 * 2 ^ (-1074 : Int) < x * 2 ^ (-1074 : Int) := by gcongr; linarith
        _ ≤ x * 2 ^ e := by gcongr; exact one_le_two
  large_iff := holds.large_iff short full

/-! ### Rounding -/

/-- A mantissa and an exponent that stand as they are packed. -/
structure Fits (m : Nat) (e : Int) : Prop where
  /-- The mantissa is not too long. -/
  short : m < 2 ^ 53
  /-- The exponent is not too small. -/
  least : -1074 ≤ e
  /-- The mantissa is as long as the exponent lets it be. -/
  full : e = -1074 ∨ 2 ^ 52 ≤ m

/-- What an unpacked double amounts to, if it is a number from zero on that stands as it is packed. -/
def Amounts : UnpackedFloat → Rat → Prop
  | .zero .positive, v => v = 0
  | .finite .positive m e _, v => Fits m e ∧ v = m * 2 ^ e
  | _, _ => False

theorem Fits.near {m : Nat} {e : Int} (fits : Fits m e) : Near (m * 2 ^ e) (m * 2 ^ e) :=
  near_of_round (by linarith) (by linarith) (by exact_mod_cast fits.short)
    (fits.full.imp_right fun full => by exact_mod_cast full)

theorem targetExponent_eq (m : Nat) (e : Int) :
    Format.binary64.targetExponent (totalExponent m e) = max (m.log2 + e - 52) (-1074) := by
  simp only [Format.targetExponent, totalExponent, Format.minExponent, Format.mantissaBits]
  norm_num
  omega

theorem shift_eq (m : Nat) (e : Int) (accuracy : Accuracy) :
    let n := (max (m.log2 + e - 52) (-1074) - e).toNat
    shiftToTargetExponent Format.binary64 m e accuracy =
      (ExtendedMantissa.ofMantissaAndAccuracy m accuracy >>> n, e + n) := by
  simp only [shiftToTargetExponent, targetExponent_eq, shiftToExponent]

/-- A mantissa that is short enough is not shifted. -/
theorem shift_short {r : Nat} {e : Int} (short : r < 2 ^ 53) (least : -1074 ≤ e) :
    shiftToTargetExponent Format.binary64 r e .exact = (.mk r false false, e) := by
  have bits : r.log2 ≤ 52 := by
    rcases Nat.eq_zero_or_pos r with rfl | pos
    · simp
    · exact Nat.lt_succ_iff.1 ((Nat.log2_lt pos.ne').2 short)
  have stays : (max (r.log2 + e - 52) (-1074) - e).toNat = 0 := by omega
  rw [shift_eq, stays]
  exact Prod.ext rfl (add_zero e)

/-- A mantissa that rounding has made too long loses a zero. -/
theorem shift_long {e : Int} (least : -1074 ≤ e) :
    shiftToTargetExponent Format.binary64 (2 ^ 53) e .exact = (.mk (2 ^ 52) false false, e + 1) := by
  have once : (max (((2 ^ 53 : Nat).log2 : Int) + e - 52) (-1074) - e).toNat = 1 := by
    rw [Nat.log2_two_pow]
    omega
  rw [shift_eq, once]
  rfl

/-- A mantissa that is long enough is brought to the length that it is packed with. -/
theorem exists_shift {m : Nat} {accuracy : Accuracy} {x : Rat} {e : Int}
    (holds : Holds (.ofMantissaAndAccuracy m accuracy) x) (long : 52 ≤ m.log2 ∨ e ≤ -1074) :
    ∃ em y t, shiftToTargetExponent Format.binary64 m e accuracy = (em, t) ∧ Holds em y ∧
      y * 2 ^ t = x * 2 ^ e ∧ y < 2 ^ 53 ∧ -1074 ≤ t ∧ (t = -1074 ∨ 2 ^ 52 ≤ y) := by
  let n := (max (m.log2 + e - 52) (-1074) - e).toNat
  obtain ⟨t, ht⟩ : ∃ t, t = e + n := ⟨_, rfl⟩
  obtain ⟨below, above⟩ := holds.bounds
  refine ⟨_, x / 2 ^ n, t, ht ▸ shift_eq m e accuracy, holds.shiftRight n, ?_, ?_, by omega,
    or_iff_not_imp_left.2 fun more => ?_⟩
  · rw [ht, two_zpow_add]
    field_simp
  · have bits : m < 2 ^ (53 + n) :=
      Nat.lt_log2_self.trans_le (Nat.pow_le_pow_right two_pos (by omega))
    rw [div_lt_iff₀ (by positivity), ← pow_add]
    exact above.trans_le (by exact_mod_cast bits)
  · have pos : m ≠ 0 := by
      rintro rfl
      rw [Nat.log2_zero] at long
      simp only [Nat.log2_zero, n] at ht
      omega
    have bits : 2 ^ (52 + n) ≤ m :=
      (Nat.pow_le_pow_right two_pos (by omega)).trans (Nat.log2_self_le pos)
    rw [le_div_iff₀ (by positivity), ← pow_add]
    exact le_trans (by exact_mod_cast bits) below

/-- A number whose mantissa is long enough is rounded. -/
theorem exists_roundWithAccuracy {m : Nat} {accuracy : Accuracy} {y : Rat} {e : Int}
    (begins : Holds (.ofMantissaAndAccuracy m accuracy) y) (long : 52 ≤ m.log2 ∨ e ≤ -1074) :
    ∃ a, Nearest (y * 2 ^ e) a ∧
      Amounts (roundWithAccuracy Format.binary64 .positive m e accuracy) a := by
  obtain ⟨em, x, t, shifts, holds, same, short, least, full⟩ := exists_shift begins long
  obtain ⟨below, above⟩ := holds.roundedMantissa
  have bounded : em.roundedMantissa ≤ 2 ^ 53 := by
    have next : (em.roundedMantissa : Rat) < 2 ^ 53 + 1 := by linarith
    exact Nat.lt_succ_iff.1 (by exact_mod_cast next)
  have settled : t = -1074 ∨ 2 ^ 52 ≤ em.roundedMantissa := by
    refine full.imp_right fun full => ?_
    have next : (2 ^ 52 : Rat) < em.roundedMantissa + 1 := by linarith
    exact Nat.lt_succ_iff.1 (by exact_mod_cast next)
  refine ⟨_, same ▸ holds.nearest short least full, ?_⟩
  rw [roundWithAccuracy, shifts]
  dsimp only
  -- rounding up may have made the mantissa one bit too long
  rcases bounded.lt_or_eq with isShort | isLong
  · rw [shift_short isShort least]
    dsimp only
    split
    next isZero =>
      rw [isZero, Nat.cast_zero, zero_mul]
      rfl
    next => exact ⟨⟨isShort, least, settled⟩, rfl⟩
  · rw [isLong, shift_long least]
    refine ⟨⟨by norm_num, by omega, .inr le_rfl⟩, ?_⟩
    rw [zpow_add_one₀ two_ne_zero]
    push_cast
    ring

theorem log2_shiftLeft {m : Nat} (pos : 0 < m) (k : Nat) : (m <<< k).log2 = m.log2 + k := by
  have more : m < 2 ^ (m.log2 + 1) := Nat.lt_log2_self
  rw [Nat.shiftLeft_eq, Nat.log2_eq_iff (by positivity), pow_add, add_right_comm, pow_add]
  exact ⟨Nat.mul_le_mul_right _ (Nat.log2_self_le pos.ne'), by gcongr⟩

/-- A mantissa that is made longer goes with a smaller exponent. -/
theorem shiftLeft_mul_two_zpow (m k : Nat) (e : Int) :
    ((m <<< k : Nat) : Rat) * 2 ^ (e - k) = m * 2 ^ e := by
  rw [Nat.shiftLeft_eq, zpow_sub₀ two_ne_zero, zpow_natCast]
  push_cast
  field_simp

/-- A number is rounded. -/
theorem exists_round {m : Nat} (e : Int) (pos : 0 < m) :
    ∃ a, Near (m * 2 ^ e) a ∧
      Amounts (UnpackedFloat.round Format.binary64 .positive m e) a := by
  let k := (e - max (m.log2 + e - 52) (-1074)).toNat
  have bits := log2_shiftLeft pos k
  rw [← shiftLeft_mul_two_zpow m k, UnpackedFloat.round, targetExponent_eq]
  obtain ⟨a, nearest, amounts⟩ := exists_roundWithAccuracy (holds_exact (m <<< k))
    (show _ ∨ e - k ≤ -1074 by omega)
  exact ⟨a, nearest.toNear, amounts⟩

/-! ### Exact results -/

/-- Zeros are shifted out without a trace. -/
theorem shiftRight_zeros (m n : Nat) :
    ExtendedMantissa.mk (m * 2 ^ n) false false >>> n = .mk m false false := by
  change n.repeat ExtendedMantissa.shiftRightOne (.mk (m * 2 ^ n) false false) = _
  induction n generalizing m with
  | zero => rw [pow_zero, mul_one, Nat.repeat]
  | succ n ih =>
    have last : m * 2 ^ (n + 1) = m * 2 * 2 ^ n := by ring
    rw [Nat.repeat, last, ih]
    simp [ExtendedMantissa.shiftRightOne]

/-- What fits is the same again when it is rounded with zeros added to it. -/
theorem Fits.roundWithAccuracy_zeros {m : Nat} {e : Int} (fits : Fits m e) (pos : 0 < m) (n : Nat) :
    roundWithAccuracy Format.binary64 .positive (m * 2 ^ n) (e - n) .exact =
      .finite .positive m e pos := by
  have bits : (m * 2 ^ n).log2 = m.log2 + n := Nat.shiftLeft_eq m n ▸ log2_shiftLeft pos n
  have most : m.log2 ≤ 52 := Nat.lt_succ_iff.1 ((Nat.log2_lt pos.ne').2 fits.short)
  have target : max (m.log2 + e - 52) (-1074) = e := by
    rcases fits.full with rfl | long
    · omega
    · have least : 52 ≤ m.log2 := (Nat.le_log2 pos.ne').2 long
      have := fits.least
      omega
  have shifts : shiftToTargetExponent Format.binary64 (m * 2 ^ n) (e - n) .exact =
      (.mk m false false, e) := by
    have same : (max ((m * 2 ^ n).log2 + (e - n) - 52) (-1074) - (e - n)).toNat = n := by omega
    rw [shift_eq, same, ExtendedMantissa.ofMantissaAndAccuracy, shiftRight_zeros, sub_add_cancel]
  have whole : (ExtendedMantissa.mk m false false).roundedMantissa = m := rfl
  rw [roundWithAccuracy, shifts]
  simp only [whole, shift_short fits.short fits.least, dif_neg pos.ne']

/-- A whole number that is short enough is rounded to itself. -/
theorem amounts_round {n : Nat} (pos : 0 < n) (short : n < 2 ^ 53) :
    Amounts (UnpackedFloat.round Format.binary64 .positive n 0) n := by
  let k := ((0 : Int) - max ((n.log2 : Int) + 0 - 52) (-1074)).toNat
  have most : n.log2 ≤ 52 := Nat.lt_succ_iff.1 ((Nat.log2_lt pos.ne').2 short)
  have bits : (n <<< k).log2 = 52 := by
    rw [log2_shiftLeft pos]
    omega
  have pos' : 0 < n <<< k := by
    rw [Nat.shiftLeft_eq]
    positivity
  have fits : Fits (n <<< k) (0 - k) :=
    ⟨(Nat.log2_lt pos'.ne').1 (by omega), by omega, .inr ((Nat.le_log2 pos'.ne').1 bits.ge)⟩
  have rounds := fits.roundWithAccuracy_zeros pos' 0
  rw [pow_zero, mul_one, Nat.cast_zero, sub_zero] at rounds
  rw [UnpackedFloat.round, targetExponent_eq]
  change Amounts (roundWithAccuracy Format.binary64 .positive (n <<< k) (0 - k) .exact) n
  rw [rounds]
  refine ⟨fits, ?_⟩
  rw [shiftLeft_mul_two_zpow, zpow_zero, mul_one]

theorem normalize_natCast {n : Nat} (e : Int) (pos : 0 < n) :
    normalize Format.binary64 n e .positive =
      UnpackedFloat.round Format.binary64 .positive n e := by
  have more : compare (n : Int) 0 = .gt := Int.compare_eq_gt.2 (by omega)
  rw [UnpackedFloat.normalize, more]
  rfl

/-! ### Packing -/

theorem toNat_implicit_append (m : BitVec 52) : (1#1 ++ m).toNat = 2 ^ 52 + m.toNat := by
  rw [BitVec.toNat_append, ← Nat.shiftLeft_add_eq_or_of_lt m.isLt]
  rfl

/-- A mantissa of full length is packed without its first bit. -/
theorem unpack_packed_long {m exponent : Nat} (pos : 0 < m) (long : 2 ^ 52 ≤ m) (short : m < 2 ^ 53)
    (more : 0 < exponent) (less : exponent < 2047) :
    UnpackedFloat.unpack Format.binary64 (packComponents Format.binary64 .positive
      (BitVec.ofNat 11 exponent) (BitVec.ofNat 52 m)) =
        .finite .positive m ((exponent : Int) - 1075) pos := by
  have read : (BitVec.ofNat 11 exponent).toNat = exponent := Nat.mod_eq_of_lt (by omega)
  have notMost : BitVec.ofNat 11 exponent ≠ -1#_ := by
    intro same
    have most : (BitVec.ofNat 11 exponent).toNat = 2047 := by rw [same]; rfl
    omega
  have notLeast : BitVec.ofNat 11 exponent ≠ 0#_ := by
    intro same
    have zero : (BitVec.ofNat 11 exponent).toNat = 0 := by rw [same]; rfl
    omega
  have mantissa : (1#1 ++ BitVec.ofNat 52 m).toNat = m := by
    rw [toNat_implicit_append, BitVec.toNat_ofNat]
    omega
  simp only [UnpackedFloat.unpack, unpackExponent_packComponents, unpackMantissa_packComponents,
    unpackSign_packComponents, if_neg notMost, if_neg notLeast, read, mantissa]
  rfl

/-- A shorter mantissa is packed as it is, with the least exponent. -/
theorem unpack_packed_short {m : Nat} (pos : 0 < m) (short : m < 2 ^ 52) :
    UnpackedFloat.unpack Format.binary64 (packComponents Format.binary64 .positive 0#_
      (BitVec.ofNat 52 m)) = .finite .positive m (-1074) pos := by
  have mantissa : (BitVec.ofNat 52 m).toNat = m := Nat.mod_eq_of_lt short
  have notZero : BitVec.ofNat 52 m ≠ 0#_ := by
    intro same
    have zero : (BitVec.ofNat 52 m).toNat = 0 := by rw [same]; rfl
    omega
  simp only [UnpackedFloat.unpack, unpackExponent_packComponents, unpackMantissa_packComponents,
    unpackSign_packComponents, mantissa, dif_neg notZero]
  rfl

/-- What fits is the same once it has been packed, unless it is too large. -/
theorem unpack_pack {m : Nat} {e : Int} (pos : 0 < m) (fits : Fits m e) :
    (Float.Model.pack (.finite .positive m e pos)).unpack =
      if e ≤ 971 then .finite .positive m e pos else .infinity .positive := by
  obtain ⟨short, least, full⟩ := fits
  obtain ⟨n, hn⟩ : ∃ n : Nat, n = (e + 1075).toNat := ⟨_, rfl⟩
  have biased : (e + Format.binary64.exponentBias + (52 : Nat)).toNat = n := by
    rw [hn, add_assoc]
    rfl
  change UnpackedFloat.unpack Format.binary64 (UnpackedFloat.pack Format.binary64 _) = _
  rw [UnpackedFloat.pack]
  simp only [biased]
  split
  next large =>
    rw [if_neg (by norm_num at large; omega)]
    rfl
  next small =>
    rw [if_pos (show e ≤ 971 by norm_num at small; omega)]
    split
    next normal =>
      have bits : m.log2 = 52 := Nat.succ.inj normal
      have long : 2 ^ 52 ≤ m := bits ▸ Nat.log2_self_le pos.ne'
      rw [unpack_packed_long pos long short (by omega) (by norm_num at small; omega)]
      congr 1
      omega
    next subnormal =>
      have few : m < 2 ^ 52 := by
        by_contra long
        have most : m.log2 < 53 := (Nat.log2_lt pos.ne').2 short
        have bits : 52 ≤ m.log2 := (Nat.le_log2 pos.ne').2 (not_lt.1 long)
        exact subnormal (congrArg Nat.succ (show m.log2 = 52 by omega))
      obtain rfl : e = -1074 := full.resolve_right (not_le.2 few)
      exact unpack_packed_short pos few

/-- A finite double stands as it is packed. -/
theorem fits_unpack {x : Float.Model} {s : Sign} {m : Nat} {e : Int} {pos : 0 < m}
    (unpacks : x.unpack = .finite s m e pos) : Fits m e := by
  have bias : Format.binary64.exponentBias = 1023 := rfl
  let exponent : BitVec 11 := @unpackExponent Format.binary64 x.toBits.toBitVec
  let mantissa : BitVec 52 := @unpackMantissa Format.binary64 x.toBits.toBitVec
  have exponent_lt : exponent.toNat < 2 ^ 11 := exponent.isLt
  have mantissa_lt : mantissa.toNat < 2 ^ 52 := mantissa.isLt
  simp only [Float.Model.unpack, UnpackedFloat.unpack] at unpacks
  split at unpacks
  · split at unpacks <;> cases unpacks
  split at unpacks
  next least =>
    split at unpacks
    · cases unpacks
    · simp only [UnpackedFloat.finite.injEq] at unpacks
      obtain ⟨-, rfl, rfl⟩ := unpacks
      rw [least, bias]
      exact ⟨mantissa_lt.trans (by norm_num), by decide, .inl rfl⟩
  next notLeast =>
    have large : exponent.toNat ≠ 0 := fun same => notLeast (BitVec.eq_of_toNat_eq same)
    simp only [UnpackedFloat.finite.injEq] at unpacks
    obtain ⟨-, rfl, rfl⟩ := unpacks
    rw [bias]
    change Fits (1#1 ++ mantissa).toNat ((exponent.toNat : Int) - ((1023 : Nat) + (52 : Nat)))
    rw [toNat_implicit_append]
    exact ⟨by omega, by omega, .inr (by omega)⟩

/-- What fits is below the largest power of two just as its exponent says. -/
theorem Fits.lt_iff {m : Nat} {e : Int} (fits : Fits m e) :
    (m * 2 ^ e : Rat) < 2 ^ (1024 : Int) ↔ e ≤ 971 := by
  have split (a b : Int) : (2 : Rat) ^ (a + b) = 2 ^ a * 2 ^ b := zpow_add₀ two_ne_zero a b
  have nonneg (a : Int) : (0 : Rat) ≤ 2 ^ a := by positivity
  constructor
  · refine fun small => not_lt.1 fun large => small.not_ge ?_
    have long : (2 ^ 52 : Rat) ≤ m := by exact_mod_cast fits.full.resolve_left (by omega)
    calc (2 : Rat) ^ (1024 : Int) = 2 ^ (52 : Int) * 2 ^ (972 : Int) := split 52 972
      _ ≤ m * 2 ^ e := mul_le_mul (by exact_mod_cast long)
        (zpow_le_zpow_right₀ one_le_two (by omega)) (nonneg _) (Nat.cast_nonneg m)
  · intro small
    have short : (m : Rat) < 2 ^ (53 : Int) := by exact_mod_cast fits.short
    calc (m : Rat) * 2 ^ e < 2 ^ (53 : Int) * 2 ^ e := by gcongr
      _ ≤ 2 ^ (53 : Int) * 2 ^ (971 : Int) :=
        mul_le_mul_of_nonneg_left (zpow_le_zpow_right₀ one_le_two small) (nonneg _)
      _ = 2 ^ (1024 : Int) := (split 53 971).symm

/-! ### Arithmetic -/

/-- A double that is a number from zero on. -/
def Is (x : Float) (v : Rat) : Prop := Amounts x.toModel.unpack v

/-- The double above all numbers. -/
def IsInfinite (x : Float) : Prop := x.toModel.unpack = .infinity .positive

/-- A double to which a number has been rounded; it is infinite if the number was too large. -/
def Rounds (v : Rat) (x : Float) : Prop :=
  ∃ a, Near v a ∧ (a < 2 ^ (1024 : Int) ∧ Is x a ∨ 2 ^ (1024 : Int) ≤ a ∧ IsInfinite x)

/-- A double to which a number has been rounded, a tie going to the even side. -/
def RoundsToNearest (v : Rat) (x : Float) : Prop :=
  ∃ a, Nearest v a ∧ (a < 2 ^ (1024 : Int) ∧ Is x a ∨ 2 ^ (1024 : Int) ≤ a ∧ IsInfinite x)

theorem RoundsToNearest.rounds {v : Rat} {x : Float} (rounds : RoundsToNearest v x) : Rounds v x := by
  obtain ⟨a, nearest, outcome⟩ := rounds
  exact ⟨a, nearest.toNear, outcome⟩

theorem Is.cases {x : Float} {v : Rat} (is : Is x v) :
    x.toModel.unpack = .zero .positive ∧ v = 0 ∨
      ∃ m e pos, x.toModel.unpack = .finite .positive m e pos ∧ Fits m e ∧ v = m * 2 ^ e := by
  unfold Is at is
  rcases unpacks : x.toModel.unpack with _ | _ | ⟨_ | _⟩ | ⟨_ | _, m, e, pos⟩ <;> rw [unpacks] at is
  all_goals first | cases is; done | skip
  · exact .inl ⟨rfl, is⟩
  · exact .inr ⟨m, e, pos, rfl, is⟩

theorem Is.unique {x : Float} {v w : Rat} (is : Is x v) (is' : Is x w) : v = w := by
  rcases is.cases with ⟨unpacks, rfl⟩ | ⟨m, e, pos, unpacks, -, rfl⟩ <;> rw [Is, unpacks] at is'
  · exact is'.symm
  · exact is'.2.symm

theorem Is.nonneg {x : Float} {v : Rat} (is : Is x v) : 0 ≤ v := by
  rcases is.cases with ⟨-, rfl⟩ | ⟨m, e, -, -, -, rfl⟩ <;> positivity

/-- A number above zero is no less than the least double above zero. -/
theorem Is.least {x : Float} {v : Rat} (is : Is x v) (pos : 0 < v) : 2 ^ (-1074 : Int) ≤ v := by
  rcases is.cases with ⟨-, rfl⟩ | ⟨m, e, more, -, fits, rfl⟩
  · exact absurd pos (lt_irrefl 0)
  · calc (2 : Rat) ^ (-1074 : Int) ≤ 2 ^ e := zpow_le_zpow_right₀ one_le_two fits.least
      _ ≤ m * 2 ^ e := le_mul_of_one_le_left (by positivity) (by exact_mod_cast more)

/-- What is not too large is rounded to a number. -/
theorem Rounds.exists_is {v : Rat} {x : Float} (rounds : Rounds v x) {b : Int} (least : -1022 ≤ b)
    (most : b ≤ 1023) (le : v ≤ 2 ^ b + 2 ^ (b - 54)) : ∃ a, Is x a ∧ Near v a := by
  obtain ⟨a, near, ⟨-, is⟩ | ⟨large, -⟩⟩ := rounds
  · exact ⟨a, is, near⟩
  · have small : (2 : Rat) ^ b < 2 ^ (1024 : Int) := zpow_lt_zpow_right₀ one_lt_two (by omega)
    exact absurd (large.trans (near.le b least le)) (not_le.2 small)

/-- What is not too large is the same once it has been packed. -/
theorem is_pack {a : Rat} {u : UnpackedFloat} (amounts : Amounts u a) (small : a < 2 ^ (1024 : Int)) :
    Is (.ofModel (.pack u)) a := by
  rcases u with _ | _ | ⟨_ | _⟩ | ⟨_ | _, m, e, pos⟩
  all_goals first | cases amounts; done | skip
  · obtain rfl : a = 0 := amounts
    rfl
  · obtain ⟨fits, rfl⟩ := amounts
    rw [Is, unpack_pack pos fits, if_pos (fits.lt_iff.1 small)]
    exact ⟨fits, rfl⟩

/-- What is packed is the same, or infinite if it is too large. -/
theorem pack_cases {a : Rat} {u : UnpackedFloat} (amounts : Amounts u a) :
    a < 2 ^ (1024 : Int) ∧ Is (.ofModel (.pack u)) a ∨
      2 ^ (1024 : Int) ≤ a ∧ IsInfinite (.ofModel (.pack u)) := by
  rcases lt_or_ge a (2 ^ (1024 : Int)) with small | large
  · exact .inl ⟨small, is_pack amounts small⟩
  · refine .inr ⟨large, ?_⟩
    rcases u with _ | _ | ⟨_ | _⟩ | ⟨_ | _, m, e, pos⟩
    all_goals first | cases amounts; done | skip
    · obtain rfl : a = 0 := amounts
      exact absurd large (not_le.2 (by positivity))
    · obtain ⟨fits, rfl⟩ := amounts
      rw [IsInfinite, unpack_pack pos fits, if_neg (fits.lt_iff.not.1 (not_lt.2 large))]

/-- What has been rounded is packed. -/
theorem rounds_pack {v a : Rat} {u : UnpackedFloat} (near : Near v a) (amounts : Amounts u a) :
    Rounds v (.ofModel (.pack u)) :=
  ⟨a, near, pack_cases amounts⟩

/-- What has been rounded to nearest is packed. -/
theorem roundsToNearest_pack {v a : Rat} {u : UnpackedFloat} (nearest : Nearest v a)
    (amounts : Amounts u a) : RoundsToNearest v (.ofModel (.pack u)) :=
  ⟨a, nearest, pack_cases amounts⟩

theorem mul_eq (x y : Float) : x * y = .ofModel (.pack
    (UnpackedFloat.mul Format.binary64 x.toModel.unpack y.toModel.unpack)) := rfl

theorem add_eq (x y : Float) : x + y = .ofModel (.pack
    (UnpackedFloat.add Format.binary64 x.toModel.unpack y.toModel.unpack)) := rfl

/-- The mantissa of a product is long, unless its exponent is small. -/
theorem Fits.long_mul {m m' : Nat} {e e' : Int} (fits : Fits m e) (fits' : Fits m' e')
    (pos : 0 < m) (pos' : 0 < m') : 52 ≤ (m * m').log2 ∨ e + e' ≤ -1074 := by
  rw [Nat.le_log2 (by positivity)]
  rcases fits.full with low | long
  · rcases fits'.full with low' | long'
    · exact .inr (by omega)
    · exact .inl (long'.trans (Nat.le_mul_of_pos_left m' pos))
  · exact .inl (long.trans (Nat.le_mul_of_pos_right m pos'))

/-- Products are rounded to nearest. -/
theorem Is.mul_nearest {x y : Float} {v w : Rat} (isX : Is x v) (isY : Is y w) :
    RoundsToNearest (v * w) (x * y) := by
  rw [mul_eq]
  rcases isX.cases with ⟨unpacks, rfl⟩ | ⟨m, e, pos, unpacks, fits, rfl⟩ <;>
    rcases isY.cases with ⟨unpacks', rfl⟩ | ⟨m', e', pos', unpacks', fits', rfl⟩ <;>
    rw [unpacks, unpacks']
  case inr.inr =>
    obtain ⟨a, nearest, amounts⟩ := exists_roundWithAccuracy (holds_exact (m * m'))
      (fits.long_mul fits' pos pos')
    refine roundsToNearest_pack ?_ amounts
    rwa [zpow_add₀ two_ne_zero, Nat.cast_mul, mul_mul_mul_comm] at nearest
  all_goals
    simp only [mul_zero, zero_mul]
    exact roundsToNearest_pack .of_zero rfl

/-- Products are rounded. -/
theorem Is.mul {x y : Float} {v w : Rat} (isX : Is x v) (isY : Is y w) : Rounds (v * w) (x * y) :=
  (isX.mul_nearest isY).rounds

/-- Mantissas that are brought to one exponent amount to what they did. -/
theorem decreaseExponent_fst (m : Nat) {e t : Int} (le : t ≤ e) :
    ((decreaseExponent m e t).1 : Rat) * 2 ^ t = m * 2 ^ e := by
  obtain ⟨k, rfl⟩ : ∃ k : Nat, e = t + k := ⟨(e - t).toNat, by omega⟩
  rw [decreaseExponent, Nat.shiftLeft_eq, two_zpow_add, show (t + k - t).toNat = k by omega]
  push_cast
  ring

/-- Sums are rounded. -/
theorem Is.add {x y : Float} {v w : Rat} (isX : Is x v) (isY : Is y w) : Rounds (v + w) (x + y) := by
  rw [add_eq]
  rcases isX.cases with ⟨unpacks, rfl⟩ | ⟨m, e, pos, unpacks, fits, rfl⟩ <;>
    rcases isY.cases with ⟨unpacks', rfl⟩ | ⟨m', e', pos', unpacks', fits', rfl⟩ <;>
    rw [unpacks, unpacks']
  case inl.inl =>
    rw [add_zero]
    exact rounds_pack Nearest.of_zero.toNear rfl
  case inl.inr =>
    rw [zero_add]
    exact rounds_pack fits'.near ⟨fits', rfl⟩
  case inr.inl =>
    rw [add_zero]
    exact rounds_pack fits.near ⟨fits, rfl⟩
  case inr.inr =>
    obtain ⟨t, ht⟩ : ∃ t, t = min e e' := ⟨_, rfl⟩
    let n := (decreaseExponent m e t).1 + (decreaseExponent m' e' t).1
    have sum : UnpackedFloat.add Format.binary64 (.finite .positive m e pos)
        (.finite .positive m' e' pos') = normalize Format.binary64 n t .positive := by
      simp only [n, ht, Nat.cast_add]
      rfl
    have amount : (n : Rat) * 2 ^ t = m * 2 ^ e + m' * 2 ^ e' := by
      rw [Nat.cast_add, add_mul, decreaseExponent_fst m (by omega),
        decreaseExponent_fst m' (by omega)]
    have more : 0 < n := by
      have above : 0 < (n : Rat) * 2 ^ t := by
        rw [amount]
        positivity
      exact_mod_cast pos_of_mul_pos_left above (by positivity)
    rw [sum, normalize_natCast t more, ← amount]
    obtain ⟨a, near, amounts⟩ := exists_round t more
    exact rounds_pack near amounts

/-- A double stands for its mantissa times its power of two. -/
theorem is_of_unpack {x : Float} {m : Nat} {e : Int} {pos : 0 < m}
    (unpacks : x.toModel.unpack = .finite .positive m e pos) : Is x (m * 2 ^ e) := by
  rw [Is, unpacks]
  exact ⟨fits_unpack unpacks, rfl⟩

theorem is_zero : Is (Float.ofNat 0) 0 := rfl

/-- A number is the same when it is multiplied by one. -/
theorem Is.mul_one {x : Float} {v : Rat} (is : Is x v) (small : v < 2 ^ (1024 : Int)) :
    Is (x * Float.ofBits 0x3FF0000000000000) v := by
  have unpacks : (Float.ofBits 0x3FF0000000000000).toModel.unpack =
      .finite .positive (2 ^ 52) (-52) (by norm_num) := rfl
  rcases is.cases with ⟨unpacks', rfl⟩ | ⟨m, e, pos, unpacks', fits, rfl⟩
  · rw [mul_eq, unpacks', unpacks]
    rfl
  · have product : UnpackedFloat.mul Format.binary64 (.finite .positive m e pos)
        (.finite .positive (2 ^ 52) (-52) (by norm_num)) = .finite .positive m e pos :=
      fits.roundWithAccuracy_zeros pos 52
    rw [mul_eq, unpacks', unpacks, product]
    exact is_pack ⟨fits, rfl⟩ small

/-- A whole number that is short enough is not too large. -/
theorem short_lt {n : Nat} (short : n < 2 ^ 53) : (n : Rat) < 2 ^ (1024 : Int) := calc
  (n : Rat) < 2 ^ (53 : Int) := by exact_mod_cast short
  _ ≤ 2 ^ (1024 : Int) := zpow_le_zpow_right₀ one_le_two (by norm_num)

/-- A whole number that is short enough is converted exactly. -/
theorem is_toFloat {n : Nat} (short : n < 2 ^ 53) : Is n.toUInt64.toFloat n := by
  have whole : n.toUInt64.toNat = n := by
    rw [Nat.toUInt64, UInt64.toNat_ofNat']
    exact Nat.mod_eq_of_lt (short.trans (by norm_num))
  change Is (.ofModel (.pack (normalize Format.binary64 (n.toUInt64.toNat : Int) 0 .positive))) n
  rw [whole]
  rcases Nat.eq_zero_or_pos n with rfl | pos
  · rfl
  · rw [normalize_natCast 0 pos]
    exact is_pack (amounts_round pos short) (short_lt short)

/-- A whole number that is short enough is a double. -/
theorem is_ofNat {n : Nat} (short : n < 2 ^ 53) : Is (Float.ofNat n) n := by
  -- a whole number is read as a decimal one: it is multiplied by the power of ten, which is one
  have scaled : Float.ofNat n = n.toUInt64.toFloat * Float.ofBits 0x3FF0000000000000 := by
    change Float.ofScientific n false 0 = _
    rw [Float.ofScientific, dif_pos ⟨short, by norm_num⟩]
    rfl
  rw [scaled]
  exact (is_toFloat short).mul_one (short_lt short)

/-! ### Infinity -/

/-- A double that is a number from zero on, or infinite. -/
def IsWeight (x : Float) : Prop := IsInfinite x ∨ ∃ v, Is x v

theorem unpack_pack_infinity :
    (Float.Model.pack (.infinity .positive)).unpack = .infinity .positive := rfl

theorem IsInfinite.mul {x y : Float} {w : Rat} (infinite : IsInfinite x) (isY : Is y w)
    (pos : 0 < w) : IsInfinite (x * y) := by
  rw [IsInfinite, mul_eq]
  rw [infinite]
  rcases isY.cases with ⟨-, rfl⟩ | ⟨m, e, more, unpacks, -, -⟩
  · exact absurd pos (lt_irrefl 0)
  · rw [unpacks, UnpackedFloat.mul]
    rfl

theorem IsInfinite.add {x y : Float} (infinite : IsInfinite x) (weight : IsWeight y) :
    IsInfinite (x + y) := by
  rw [IsInfinite, add_eq]
  rw [infinite]
  rcases weight with infinite' | ⟨v, is⟩
  · rw [infinite']
    rfl
  · rcases is.cases with ⟨unpacks, -⟩ | ⟨m, e, pos, unpacks, -⟩ <;>
      simp [unpacks, UnpackedFloat.add, unpack_pack_infinity]

theorem Is.add_infinite {x y : Float} {v : Rat} (is : Is x v) (infinite : IsInfinite y) :
    IsInfinite (x + y) := by
  rw [IsInfinite, add_eq, infinite]
  rcases is.cases with ⟨unpacks, -⟩ | ⟨m, e, pos, unpacks, -⟩ <;>
    simp [unpacks, UnpackedFloat.add, unpack_pack_infinity]

/-- What has been rounded is a number, or infinite. -/
theorem Rounds.isWeight {v : Rat} {x : Float} (rounds : Rounds v x) : IsWeight x := by
  obtain ⟨a, -, ⟨-, is⟩ | ⟨-, infinite⟩⟩ := rounds
  · exact .inr ⟨a, is⟩
  · exact .inl infinite

/-! ### Comparisons -/

theorem zero_lt_iff_lt {x : Float} :
    Float.ofNat 0 < x ↔ (UnpackedFloat.zero .positive).lt x.toModel.unpack = true := by
  change decide ((Float.ofNat 0).toModel < x.toModel) = true ↔ _
  rw [decide_eq_true_iff]
  rfl

theorem Is.zero_lt_iff {x : Float} {v : Rat} (is : Is x v) : Float.ofNat 0 < x ↔ 0 < v := by
  rw [zero_lt_iff_lt]
  rcases is.cases with ⟨unpacks, rfl⟩ | ⟨m, e, more, unpacks, -, rfl⟩ <;> rw [unpacks]
  · exact iff_of_false Bool.false_ne_true (lt_irrefl 0)
  · exact iff_of_true rfl (by positivity)

theorem IsInfinite.zero_lt {x : Float} (infinite : IsInfinite x) : Float.ofNat 0 < x := by
  rw [zero_lt_iff_lt, infinite]
  rfl

/-- What is no smaller than the least double above zero is not rounded to zero. -/
theorem Rounds.zero_lt_iff {v : Rat} {x : Float} (rounds : Rounds v x)
    (visible : v = 0 ∨ 2 ^ (-1074 : Int) ≤ v) : Float.ofNat 0 < x ↔ 0 < v := by
  have least : (0 : Rat) < 2 ^ (-1074 : Int) := by positivity
  obtain ⟨a, near, outcome⟩ := rounds
  rcases visible with rfl | visible
  · refine iff_of_false ?_ (lt_irrefl 0)
    obtain rfl := near.zero rfl
    rcases outcome with ⟨-, is⟩ | ⟨large, -⟩
    · exact fun above => lt_irrefl 0 (is.zero_lt_iff.1 above)
    · exact absurd large (not_le.2 (by positivity))
  · refine iff_of_true ?_ (least.trans_le visible)
    rcases outcome with ⟨-, is⟩ | ⟨-, infinite⟩
    · exact is.zero_lt_iff.2 (least.trans_le (near.ge _ le_rfl visible))
    · exact infinite.zero_lt

theorem Is.isFinite {x : Float} {v : Rat} (is : Is x v) : x.isFinite = true := by
  change x.toModel.unpack.isFinite = true
  rcases is.cases with ⟨unpacks, -⟩ | ⟨m, e, more, unpacks, -⟩ <;> rw [unpacks] <;> rfl

theorem Is.isInf {x : Float} {v : Rat} (is : Is x v) : x.isInf = false := by
  change x.toModel.unpack.isInf = false
  rcases is.cases with ⟨unpacks, -⟩ | ⟨m, e, more, unpacks, -⟩ <;> rw [unpacks] <;> rfl

theorem IsInfinite.isFinite {x : Float} (infinite : IsInfinite x) : x.isFinite = false := by
  change x.toModel.unpack.isFinite = false
  rw [infinite]
  rfl

theorem IsInfinite.isInf {x : Float} (infinite : IsInfinite x) : x.isInf = true := by
  change x.toModel.unpack.isInf = true
  rw [infinite]
  rfl

/-- A finite double above zero is a number. -/
theorem exists_is_of_zero_lt {x : Float} (finite : x.isFinite = true) (above : Float.ofNat 0 < x) :
    ∃ v, Is x v ∧ 0 < v := by
  change x.toModel.unpack.isFinite = true at finite
  rw [zero_lt_iff_lt] at above
  rcases unpacks : x.toModel.unpack with _ | _ | ⟨_ | _⟩ | ⟨_ | _, m, e, pos⟩ <;>
    rw [unpacks] at finite above
  all_goals first | cases finite; done | cases above; done | skip
  exact ⟨m * 2 ^ e, is_of_unpack unpacks, by positivity⟩

end NoonDraw.Double
