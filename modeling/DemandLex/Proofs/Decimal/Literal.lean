import DemandLex.Proofs.Decimal.Accumulation
import DemandLex.Proofs.Decimal.Operations

/-! The number that a numeral writes, and the double that it is read as. -/

namespace DemandLex

namespace Decimal

theorem clip_of_lt {n : Nat} (small : n < 655360) : clip n = n := by
  rw [clip, if_pos small]

theorem le_clip {n : Nat} (large : 65536 ≤ n) : 65536 ≤ clip n := by
  induction n using clip.induct with
  | case1 n small => rwa [clip_of_lt small]
  | case2 n more ih =>
    rw [clip, if_neg more]
    exact ih (by omega)

theorem clipExponent_of_lt {k : ℤ} (small : k.natAbs < 655360) : clipExponent k = k := by
  rw [clipExponent, clip_of_lt small]
  split <;> omega

theorem clipExponent_large {k : ℤ} (large : 655360 ≤ k) : 65536 ≤ clipExponent k := by
  have clipped := le_clip (n := k.natAbs) (by omega)
  rw [clipExponent, if_neg (by omega)]
  omega

theorem clipExponent_small {k : ℤ} (small : k ≤ -655360) : clipExponent k ≤ -65536 := by
  have clipped := le_clip (n := k.natAbs) (by omega)
  rw [clipExponent, if_pos (by omega)]
  omega

theorem value_lt {digits : List Char} (inside : ∀ c ∈ digits, isDigit c = true) :
    value digits < 10 ^ digits.length := by
  induction digits using List.reverseRecOn with
  | nil => decide
  | append_singleton front c ih =>
    have before := ih fun d member => inside d (List.mem_append_left _ member)
    have last := digitValue_lt (inside c (List.mem_append_right _ List.mem_cons_self))
    rw [value_concat, List.length_append, List.length_singleton, Nat.pow_succ]
    omega

theorem value_significant (digits : List Char) : value (significant digits) = value digits := by
  induction digits with
  | nil => rfl
  | cons c later ih =>
    rw [significant, List.dropWhile_cons]
    split
    · next zero =>
      obtain rfl : c = '0' := by simpa using zero
      exact ih.trans (by simp [value, digitValue])
    · rfl

end Decimal

namespace Numeral

open Binary64 Decimal

theorem ofNat_ten_pow {k : Nat} (small : k ≤ 22) :
    (ofNat (Nat.pow 10 k)).IsExact (10 ^ k : Nat) := by
  have few : 5 ^ k ≤ 2 * leadingBit :=
    (Nat.pow_le_pow_right (by decide) small).trans (by decide)
  have power : 10 ^ k = 5 ^ k * 2 ^ k := Nat.mul_pow 5 2 k
  rw [Nat.pow_eq, power]
  exact ofNat_isExact few (by omega)

theorem whole_of_isEmpty {n : Numeral} (empty : n.digits.isEmpty = true) : n.whole = 0 := by
  rw [String.isEmpty_iff] at empty
  rw [whole_eq_value, empty]
  rfl

theorem fast_operands {n : Numeral} (few : n.whole ≤ 2 * leadingBit) (small : n.power.natAbs ≤ 22) :
    (ofNat n.whole).IsExact n.whole ∧
      (ofNat (Nat.pow 10 n.power.natAbs)).IsExact (10 ^ n.power.natAbs : Nat) := by
  refine ⟨?_, ofNat_ten_pow small⟩
  simpa using ofNat_isExact (k := 0) few (Nat.zero_le _)

/-- Either way the value is the double nearest to the digits times a power of ten, if it is so the
slow way and if the fast way is taken for that power. -/
theorem valueBy_isNearest {convert : Nat → Int → Binary64} (n : Numeral) {k : ℤ}
    (slow : (convert n.whole n.power).IsNearest (n.whole * 10 ^ k))
    (same : n.power.natAbs ≤ 22 → k = n.power) :
    (n.valueBy convert).IsNearest (n.whole * 10 ^ k) := by
  rw [valueBy]
  split
  · next empty =>
    rw [whole_of_isEmpty empty, Nat.cast_zero, zero_mul]
    exact zero_isNearest
  · split
    · next exact =>
      obtain ⟨few, small⟩ := exact
      obtain ⟨digits, power⟩ := fast_operands few small
      rw [same small]
      split
      · next negative =>
        have inverse : (10 : ℚ) ^ n.power = ((10 ^ n.power.natAbs : Nat) : ℚ)⁻¹ := by
          rw [Nat.cast_pow, ← zpow_natCast, ← zpow_neg, Int.ofNat_natAbs_of_nonpos negative.le,
            neg_neg]
          rfl
        rw [inverse, ← div_eq_mul_inv]
        exact digits.div power (by positivity)
      · next positive =>
        have same : (10 : ℚ) ^ n.power = (10 ^ n.power.natAbs : Nat) := by
          rw [Nat.cast_pow, ← zpow_natCast, Int.natAbs_of_nonneg (not_lt.mp positive)]
          rfl
        rw [same]
        exact digits.mul power
    · exact slow

theorem value_isNearest (n : Numeral) :
    n.value.IsNearest (n.whole * 10 ^ clipExponent n.power) :=
  n.valueBy_isNearest (ofDecimal_isNearest _ _) fun small => clipExponent_of_lt (by omega)

end Numeral

namespace Grammar

open Binary64 Decimal

def Parts.digits (n : Parts) : List Char := n.whole ++ n.fraction.getD []

def Parts.power (n : Parts) : ℤ :=
  (if n.exponent.any (·.sign == some '-') then -(value n.exponentDigits : ℤ)
    else value n.exponentDigits) - (n.fraction.getD []).length

def Parts.absolute (n : Parts) : ℚ := value n.digits * 10 ^ n.power

/-- Numerals that are not astronomic: of at most 65212 digits before the exponent, or of a power of
ten above -655360 whose two terms fit into 32 bits. -/
def Parts.Bounded (n : Parts) : Prop :=
  n.digits.length ≤ 65212 ∨
    (value n.exponentDigits < 0x80000000 ∧ (n.fraction.getD []).length ≤ 0x80000000 ∧
      -655360 < n.power)

theorem Parts.isDigit_of_mem {n : Parts} (formed : n.WellFormed) :
    ∀ c ∈ n.digits, isDigit c = true := by
  intro c member
  rcases List.mem_append.mp member with inside | inside
  · exact formed.whole c inside
  · obtain ⟨digits, fraction, inside⟩ : ∃ digits, n.fraction = some digits ∧ c ∈ digits := by
      cases fraction : n.fraction with
      | none => simp [fraction] at inside
      | some digits => exact ⟨digits, rfl, by simpa [fraction] using inside⟩
    exact formed.fraction digits fraction c inside

theorem Parts.whole_decimal (n : Parts) : n.decimal.whole = value n.digits := by
  rw [Numeral.whole_eq_value, decimal, String.toList_ofList, value_significant]
  rfl

theorem Parts.power_decimal (n : Parts) :
    n.decimal.power = saturate (if n.exponent.any (·.sign == some '-') then
        -(min (n.fraction.getD []).length 0x80000000 : Nat) -
          (min (value n.exponentDigits) 0x7FFFFFFF : Nat)
      else -(min (n.fraction.getD []).length 0x80000000 : Nat) +
        (min (value n.exponentDigits) 0x7FFFFFFF : Nat)) := rfl

theorem Parts.length_fraction_le (n : Parts) : (n.fraction.getD []).length ≤ n.digits.length := by
  rw [digits, List.length_append]
  omega

/-- The power of ten as the lexer has it, before it is read: the power itself, or both are beyond
all numbers on the same side. -/
theorem Parts.decimal_power {n : Parts} (bounded : n.Bounded) :
    (n.power.natAbs < 655360 ∧ n.decimal.power = n.power) ∨
      (655360 ≤ n.power ∧ 655360 ≤ n.decimal.power) ∨
      (n.digits.length ≤ 65212 ∧ n.power ≤ -655360 ∧ n.decimal.power ≤ -655360) := by
  have fraction := n.length_fraction_le
  unfold Bounded at bounded
  rw [power_decimal, saturate]
  unfold Parts.power at *
  generalize value n.exponentDigits = x at *
  generalize (n.fraction.getD []).length = f at *
  by_cases negative : n.exponent.any (·.sign == some '-') = true
  · simp only [if_pos negative] at *
    omega
  · simp only [if_neg negative] at *
    omega

theorem infinity_of_large {digits : Nat} {k : ℤ} (nonzero : digits ≠ 0) (large : 342 ≤ k) :
    (infinity false).IsNearest (digits * 10 ^ k) := by
  have one : (1 : ℚ) ≤ digits := by exact_mod_cast Nat.one_le_iff_ne_zero.mpr nonzero
  refine infinity_isNearest ?_
  calc (2 : ℚ) ^ 1024
      ≤ 2 ^ (3 * 342) := pow_le_pow_right₀ one_le_two (by decide)
    _ ≤ 10 ^ 342 := two_pow_le_ten_pow 342
    _ ≤ 10 ^ k := by
      rw [← zpow_natCast]
      exact zpow_le_zpow_right₀ (by norm_num) large
    _ ≤ digits * 10 ^ k := le_mul_of_one_le_left (by positivity) one

theorem isNearest_of_large {x : Binary64} {digits : Nat} {k l : ℤ} (large : 342 ≤ k)
    (large' : 342 ≤ l) (nearest : x.IsNearest (digits * 10 ^ k)) :
    x.IsNearest (digits * 10 ^ l) := by
  by_cases zero : digits = 0
  · simpa [zero] using nearest
  rw [nearest.unique (infinity_of_large zero large)]
  exact infinity_of_large zero large'

theorem ten_zpow_lt : (10 : ℚ) ^ (-324 : ℤ) < 2 ^ (-1075 : ℤ) := by
  have whole : 2 ^ 1075 < 10 ^ 324 := by decide +kernel
  have cast : (2 : ℚ) ^ 1075 < 10 ^ 324 := by exact_mod_cast whole
  exact inv_strictAnti₀ (by positivity) cast

theorem zero_of_small {digits count : Nat} {k : ℤ} (few : digits < 10 ^ count)
    (small : count + k ≤ -324) : zero.IsNearest (digits * 10 ^ k) := by
  have cast : (digits : ℚ) < 10 ^ (count : ℤ) := by exact_mod_cast few
  have below : (digits * 10 ^ k : ℚ) < 2 ^ (-1075 : ℤ) := by
    calc (digits * 10 ^ k : ℚ)
        < 10 ^ (count : ℤ) * 10 ^ k := by gcongr
      _ = 10 ^ (count + k : ℤ) := by rw [← zpow_add₀ (by norm_num)]
      _ ≤ 10 ^ (-324 : ℤ) := zpow_le_zpow_right₀ (by norm_num) small
      _ < 2 ^ (-1075 : ℤ) := ten_zpow_lt
  exact (closest_zero (by positivity) below).isNearest

theorem isNearest_of_small {x : Binary64} {digits count : Nat} {k l : ℤ} (few : digits < 10 ^ count)
    (small : count + k ≤ -324) (small' : count + l ≤ -324)
    (nearest : x.IsNearest (digits * 10 ^ k)) : x.IsNearest (digits * 10 ^ l) := by
  rw [nearest.unique (zero_of_small few small)]
  exact zero_of_small few small'

theorem Parts.decimal_isNearest {n : Parts} (formed : n.WellFormed) (bounded : n.Bounded) :
    n.decimal.value.IsNearest n.absolute := by
  have nearest := n.decimal.value_isNearest
  rw [n.whole_decimal] at nearest
  rw [absolute]
  rcases decimal_power bounded with ⟨small, same⟩ | ⟨large, large'⟩ | ⟨few, small, small'⟩
  · rwa [same, clipExponent_of_lt small] at nearest
  · exact isNearest_of_large (by linarith [clipExponent_large large']) (by linarith) nearest
  · have clipped := clipExponent_small small'
    exact isNearest_of_small (value_lt (isDigit_of_mem formed)) (by omega) (by omega) nearest

end Grammar

end DemandLex
