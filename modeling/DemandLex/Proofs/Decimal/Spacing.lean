import DemandLex.Decimal.Binary64
import Mathlib.Algebra.Order.Field.Power
import Mathlib.Algebra.Order.Field.Rat
import Mathlib.Order.Monotone.Basic
import Mathlib.Tactic.FieldSimp
import Mathlib.Tactic.Linarith
import Mathlib.Tactic.NormNum
import Mathlib.Tactic.Positivity
import Mathlib.Tactic.Ring

/-! The absolute values of binary floating-point numbers: magnitude by magnitude they grow, in equal
steps from one power of two to the next. -/

namespace DemandLex.Binary64

/-- The number of a magnitude. That of infinity is the power of two where the next number would
be. -/
def absoluteOf (magnitude : Nat) : ℚ :=
  if magnitude < leadingBit then magnitude * 2 ^ (-1074 : ℤ)
  else (leadingBit + magnitude % leadingBit : Nat) * 2 ^ ((magnitude / leadingBit : Nat) - 1075 : ℤ)

def absolute (x : Binary64) : ℚ := x.significand * 2 ^ x.exponent

theorem absolute_eq (x : Binary64) : x.absolute = absoluteOf x.magnitude := by
  unfold absolute absoluteOf significand exponent
  split
  · next small => rw [Nat.mod_eq_of_lt small]
  · rfl

/-- Between two powers of two, and below the smallest normal number, the numbers are the multiples
of one last place. -/
theorem absoluteOf_multiple {e r : Nat} (normal : e = 0 ∨ leadingBit ≤ r)
    (le : r ≤ 2 * leadingBit) :
    absoluteOf (e * leadingBit + r) = r * 2 ^ (e - 1074 : ℤ) := by
  unfold absoluteOf
  unfold leadingBit at *
  by_cases small : r < 0x10000000000000
  · obtain rfl : e = 0 := by omega
    rw [Nat.zero_mul, Nat.zero_add, if_pos small]
    norm_num
  have large : ¬ e * 0x10000000000000 + r < 0x10000000000000 := by omega
  rw [if_neg large]
  by_cases below : r < 2 * 0x10000000000000
  · have rest : (e * 0x10000000000000 + r) % 0x10000000000000 = r - 0x10000000000000 := by omega
    have place : (e * 0x10000000000000 + r) / 0x10000000000000 = e + 1 := by omega
    rw [rest, place, Nat.add_sub_cancel' (by omega)]
    congr 2
    push_cast
    ring
  · obtain rfl : r = 2 * 0x10000000000000 := by omega
    have rest : (e * 0x10000000000000 + 2 * 0x10000000000000) % 0x10000000000000 = 0 := by omega
    have place : (e * 0x10000000000000 + 2 * 0x10000000000000) / 0x10000000000000 = e + 2 := by
      omega
    have next : ((e + 2 : Nat) - 1075 : ℤ) = (e - 1074 : ℤ) + 1 := by
      push_cast
      ring
    rw [rest, place, next, zpow_add_one₀ two_ne_zero]
    push_cast
    ring

theorem exists_multiple (m : Nat) :
    ∃ e r, m = e * leadingBit + r ∧ (e = 0 ∨ leadingBit ≤ r) ∧ r < 2 * leadingBit := by
  unfold leadingBit
  by_cases small : m < 0x10000000000000
  · exact ⟨0, m, by omega, Or.inl rfl, by omega⟩
  · exact ⟨m / 0x10000000000000 - 1, 0x10000000000000 + m % 0x10000000000000, by omega, by omega,
      by omega⟩

theorem absoluteOf_strictMono : StrictMono absoluteOf := by
  refine strictMono_nat_of_lt_succ fun m => ?_
  obtain ⟨e, r, rfl, normal, below⟩ := exists_multiple m
  rw [Nat.add_assoc, absoluteOf_multiple normal below.le,
    absoluteOf_multiple (normal.imp_right Nat.le_succ_of_le) below]
  have step : (0 : ℚ) < 2 ^ (e - 1074 : ℤ) := by positivity
  exact mul_lt_mul_of_pos_right (by exact_mod_cast Nat.lt_succ_self r) step

theorem absoluteOf_zero : absoluteOf 0 = 0 := by
  simpa using absoluteOf_multiple (e := 0) (r := 0) (Or.inl rfl) (Nat.zero_le _)

theorem absoluteOf_one : absoluteOf 1 = 2 ^ (-1074 : ℤ) := by
  simpa using absoluteOf_multiple (e := 0) (r := 1) (Or.inl rfl) (by decide)

theorem absoluteOf_infinityBits : absoluteOf infinityBits = 2 ^ (1024 : ℤ) := by
  have bits : infinityBits = 2046 * leadingBit + leadingBit := rfl
  have last : (leadingBit : ℚ) = 2 ^ (52 : ℤ) := by norm_num [leadingBit]
  rw [bits, absoluteOf_multiple (Or.inr le_rfl) (by decide), last, ← zpow_add₀ two_ne_zero]
  norm_num

theorem exists_absoluteOf {n k : Nat} (le : n ≤ 2 * leadingBit) (small : k ≤ 970) :
    ∃ m < infinityBits, absoluteOf m = n * 2 ^ k := by
  by_cases zero : n = 0
  · exact ⟨0, by decide, by simp [zero, absoluteOf_zero]⟩
  have log : n.log2 < 54 := (Nat.log2_lt zero).mpr (le.trans_lt (by decide))
  have floor : 2 ^ n.log2 ≤ n := Nat.log2_self_le zero
  have ceiling : n < 2 ^ (n.log2 + 1) := Nat.lt_log2_self
  -- the shift that puts the first digit at the place of the leading bit
  let s := 52 - n.log2
  have normal : leadingBit ≤ n * 2 ^ s := by
    have power : 2 ^ 52 ≤ 2 ^ (n.log2 + s) := Nat.pow_le_pow_right two_pos (by omega)
    rw [Nat.pow_add] at power
    exact power.trans (Nat.mul_le_mul_right _ floor)
  have bound : n * 2 ^ s ≤ 2 * leadingBit := by
    by_cases top : n.log2 = 53
    · have none : s = 0 := by omega
      simpa [none] using le
    · have power : 2 ^ (n.log2 + 1) * 2 ^ s = 2 * leadingBit := by
        have sum : n.log2 + 1 + s = 53 := by omega
        rw [← Nat.pow_add, sum]
        rfl
      exact power ▸ Nat.mul_le_mul_right _ ceiling.le
  refine ⟨(1074 + k - s) * leadingBit + n * 2 ^ s, ?_, ?_⟩
  · unfold infinityBits
    unfold leadingBit at *
    omega
  · have exponent : ((1074 + k - s : Nat) - 1074 : ℤ) = (k : ℤ) - (s : ℤ) := by omega
    rw [absoluteOf_multiple (Or.inr normal) bound, exponent, zpow_sub₀ two_ne_zero]
    push_cast
    field_simp
    norm_cast

end DemandLex.Binary64
