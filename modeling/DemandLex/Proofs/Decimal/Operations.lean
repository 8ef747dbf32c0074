import DemandLex.Proofs.Decimal.Digits
import DemandLex.Proofs.Decimal.Nearest

/-! Products, quotients and decimals are rounded to the nearest double. -/

namespace DemandLex.Binary64

structure IsExact (x : Binary64) (r : ℚ) : Prop where
  positive : x.isNegative = false
  finite : x.magnitude < infinityBits
  absolute : x.absolute = r

variable {x y : Binary64} {r s : ℚ} {n k : Nat}

theorem IsExact.isNaN (exact : x.IsExact r) : x.isNaN = false := isNaN_eq_false.mpr exact.finite.le

theorem IsExact.isInfinite (exact : x.IsExact r) : x.isInfinite = false :=
  beq_eq_false_iff_ne.mpr exact.finite.ne

theorem IsExact.isZero (exact : x.IsExact r) (nonzero : r ≠ 0) : x.isZero = false := by
  rw [Binary64.isZero, beq_eq_false_iff_ne]
  intro zero
  refine nonzero ?_
  rw [← exact.absolute, absolute_eq, zero, absoluteOf_zero]

theorem ofNat_isNearest (n : Nat) : (ofNat n).IsNearest n := by
  have nearest : (ofNat n).IsNearest (n / (1 : Nat)) := ofQuotient_isNearest Nat.one_pos
  simpa using nearest

theorem ofNat_isExact (le : n ≤ 2 * leadingBit) (small : k ≤ 970) :
    (ofNat (n * 2 ^ k)).IsExact (n * 2 ^ k : Nat) := by
  obtain ⟨m, finite, number⟩ := exists_absoluteOf le small
  have nearest := ofNat_isNearest (n * 2 ^ k)
  have same : ((n * 2 ^ k : Nat) : ℚ) = absoluteOf m := by
    rw [number]
    push_cast
    rfl
  rw [same] at nearest ⊢
  have magnitude := nearest.closest.unique (closest_self finite.le)
  refine ⟨nearest.positive, magnitude ▸ finite, ?_⟩
  rw [absolute_eq, magnitude]

theorem ofScaled_isNearest (m : Nat) (q : ℤ) : (ofScaled false m q).IsNearest (m * 2 ^ q) := by
  have nearest : (ofScaled false m q).IsNearest (m / (1 : Nat) * 2 ^ q) :=
    ofQuotient_scale_isNearest Nat.one_pos q
  simpa using nearest

theorem IsExact.mul (left : x.IsExact r) (right : y.IsExact s) : (x * y).IsNearest (r * s) := by
  have product : x * y =
      ofScaled false (x.significand * y.significand) (x.exponent + y.exponent) := by
    change Binary64.mul x y = _
    simp [Binary64.mul, left.isNaN, right.isNaN, left.isInfinite, right.isInfinite, left.positive,
      right.positive]
  have number : (x.significand * y.significand : Nat) * 2 ^ (x.exponent + y.exponent) = r * s := by
    rw [← left.absolute, ← right.absolute, Binary64.absolute, Binary64.absolute,
      zpow_add₀ two_ne_zero]
    push_cast
    ring
  rw [product, ← number]
  exact ofScaled_isNearest _ _

theorem IsExact.div (left : x.IsExact r) (right : y.IsExact s) (nonzero : s ≠ 0) :
    (x / y).IsNearest (r / s) := by
  have significand : 0 < y.significand := by
    refine Nat.pos_of_ne_zero fun zero => nonzero ?_
    rw [← right.absolute, Binary64.absolute, zero, Nat.cast_zero, zero_mul]
  have quotient : x / y = ofQuotient false
      (scale x.significand y.significand (x.exponent - y.exponent)).1
      (scale x.significand y.significand (x.exponent - y.exponent)).2 := by
    change Binary64.div x y = _
    simp [Binary64.div, left.isNaN, right.isNaN, left.isInfinite, right.isInfinite, left.positive,
      right.positive, right.isZero nonzero]
  have number : (x.significand / y.significand * 2 ^ (x.exponent - y.exponent) : ℚ) = r / s := by
    rw [← left.absolute, ← right.absolute, Binary64.absolute, Binary64.absolute,
      zpow_sub₀ two_ne_zero]
    ring
  rw [quotient, ← number]
  exact ofQuotient_scale_isNearest significand _

theorem zero_isNearest : (ofMagnitude false 0).IsNearest 0 :=
  Closest.isNearest (absoluteOf_zero ▸ closest_self (Nat.zero_le _))

theorem infinity_isNearest (large : 2 ^ 1024 ≤ r) : (infinity false).IsNearest r := by
  refine (closest_infinity ?_).isNearest
  rw [absoluteOf_infinityBits]
  exact_mod_cast large

theorem two_pow_le_ten_pow (k : Nat) : (2 : ℚ) ^ (3 * k) ≤ 10 ^ k := by
  rw [pow_mul]
  gcongr
  norm_num

theorem log2_le (nonzero : n ≠ 0) : (2 : ℚ) ^ n.log2 ≤ n := by
  exact_mod_cast Nat.log2_self_le nonzero

theorem ofDecimal_isNearest (digits : Nat) (power : ℤ) :
    (ofDecimal false digits power).IsNearest (digits * 10 ^ power) := by
  cases power with
  | ofNat k =>
    rw [ofDecimal, Int.ofNat_eq_natCast, zpow_natCast]
    split
    · next zero =>
      rw [zero, Nat.cast_zero, zero_mul]
      exact zero_isNearest
    · next nonzero =>
      split
      · next large =>
        refine infinity_isNearest ?_
        calc (2 : ℚ) ^ 1024
            ≤ 2 ^ (digits.log2 + 3 * k) := pow_le_pow_right₀ one_le_two large
          _ = 2 ^ digits.log2 * 2 ^ (3 * k) := pow_add ..
          _ ≤ digits * 10 ^ k := by
            gcongr
            · exact log2_le nonzero
            · exact two_pow_le_ten_pow k
      · have nearest := ofNat_isNearest (digits * 10 ^ k)
        push_cast at nearest
        exact nearest
  | negSucc k =>
    rw [ofDecimal, zpow_negSucc, ← div_eq_mul_inv]
    split
    · next small =>
      refine (closest_zero (by positivity) ?_).isNearest
      have ceiling : (digits : ℚ) < 2 ^ (digits.log2 + 1) := by exact_mod_cast Nat.lt_log2_self
      rw [div_lt_iff₀ (by positivity)]
      calc (digits : ℚ)
          < 2 ^ (digits.log2 + 1) := ceiling
        _ = 2 ^ (-1100 : ℤ) * 2 ^ (digits.log2 + 1 + 1100) := by
          rw [pow_add _ _ 1100, mul_left_comm, zpow_neg]
          norm_num
        _ ≤ 2 ^ (-1075 : ℤ) * 10 ^ (k + 1) := by
          gcongr
          · exact one_le_two
          · norm_num
          · exact (pow_le_pow_right₀ one_le_two small).trans (two_pow_le_ten_pow (k + 1))
    · have nearest : (ofQuotient false digits (10 ^ (k + 1))).IsNearest _ :=
        ofQuotient_isNearest (by positivity)
      push_cast at nearest
      exact nearest

end DemandLex.Binary64
