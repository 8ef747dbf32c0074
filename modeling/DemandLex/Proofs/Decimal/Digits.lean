import DemandLex.Numeral
import Mathlib.Algebra.Group.Nat.Defs

/-! The numbers that texts of digits write, in one piece and in halves. -/

namespace DemandLex

namespace Decimal

theorem foldl_eq_value (digits : List Char) (n : Nat) :
    digits.foldl (fun n c => 10 * n + digitValue c) n = n * 10 ^ digits.length + value digits := by
  induction digits generalizing n with
  | nil => simp [value]
  | cons c rest ih =>
    simp only [value, List.foldl_cons, List.length_cons]
    rw [ih, ih (10 * 0 + digitValue c), Nat.pow_succ, Nat.add_mul]
    grind

theorem value_append (front back : List Char) :
    value (front ++ back) = value front * 10 ^ back.length + value back := by
  rw [value, List.foldl_append, foldl_eq_value]
  rfl

theorem valueByHalves_eq_value (digits : List Char) : valueByHalves digits = value digits := by
  fun_induction valueByHalves digits with
  | case1 => rfl
  | case2 digits long half left right =>
    have whole := value_append (digits.take half) (digits.drop half)
    rw [List.take_append_drop, List.length_drop] at whole
    rw [left, right, whole]
    rfl

theorem value_replicate (k : Nat) : value (List.replicate k '0') = 0 := by
  induction k with
  | zero => rfl
  | succ k ih => exact ih

section Written
variable (n : Nat)

theorem toList_toString : (toString n).toList = Nat.toDigits 10 n := by
  rw [Nat.toString_eq_ofList_toDigits, String.toList_ofList]

theorem value_toString : value (toString n).toList = n := by
  rw [toList_toString]
  exact Nat.ofDigitChars_eq_foldl.symm.trans Nat.ofDigitChars_ten_toDigits

theorem isDigit_of_mem_toString : ∀ c ∈ (toString n).toList, isDigit c = true := by
  rw [toList_toString]
  intro c member
  have digit := Nat.isDigit_of_mem_toDigits (by decide) (Nat.le_refl 10) member
  simpa [Char.isDigit, isDigit, Char.le_def] using digit

theorem toList_toString_ne_nil : (toString n).toList ≠ [] := by
  rw [toList_toString]
  exact Nat.toDigits_ne_nil

theorem head_toString {n : Nat} (nonzero : n ≠ 0) : (toString n).toList.head? ≠ some '0' := by
  rw [toList_toString]
  induction n using Nat.strongRecOn with
  | ind n ih =>
    by_cases last : n < 10
    · simpa [Nat.toDigits_of_lt_base last] using nonzero
    · have fewer : n / 10 < n := Nat.div_lt_self (by omega) (by decide)
      have first := ih _ fewer (by omega)
      rw [Nat.toDigits_of_base_le (by decide) (by omega), List.head?_append]
      cases digits : Nat.toDigits 10 (n / 10) with
      | nil => exact absurd digits Nat.toDigits_ne_nil
      | cons c rest => simpa [digits] using first

end Written

end Decimal

theorem Numeral.whole_eq_value (n : Numeral) : n.whole = Decimal.value n.digits.toList :=
  Decimal.valueByHalves_eq_value _

end DemandLex
