import DemandLex.Proofs.Lexer.Grammar

/-! The numeral that the parts of a lexeme add up to, digit by digit, in closed form. -/

namespace DemandLex

namespace Decimal

theorem digitChar_digitValue {c : Char} (digit : isDigit c = true) :
    digitChar (digitValue c) = c := by
  have bounds := isDigit_iff.mp digit
  have zero : '0'.toNat = 48 := rfl
  have whole : 48 + (c.toNat - 48) = c.toNat := by omega
  rw [digitChar, digitValue, zero, whole, Char.ofNat_toNat]

theorem digitValue_eq_zero {c : Char} (digit : isDigit c = true) :
    digitValue c = 0 ↔ c = '0' := by
  constructor
  · intro value
    rw [← digitChar_digitValue digit, value]
    rfl
  · rintro rfl
    rfl

def significant (digits : List Char) : List Char := digits.dropWhile (· == '0')

theorem significant_concat (digits : List Char) (c : Char) :
    significant (digits ++ [c]) =
      if significant digits = [] ∧ c = '0' then [] else significant digits ++ [c] := by
  rw [significant, significant, List.dropWhile_append]
  by_cases empty : digits.dropWhile (· == '0') = []
  · by_cases zero : c = '0' <;> simp [empty, zero]
  · simp [empty]

end Decimal

namespace Numeral

open Decimal

variable {more : List Char} {c : Char} {text : String} {s e : Int} {b : Bool}

theorem push_significant (front : List Char) (digit : isDigit c = true) :
    push ⟨String.ofList (significant front), s, e, b⟩ (digitValue c) =
      ⟨String.ofList (significant (front ++ [c])), s, e, b⟩ := by
  have small : digitValue c ≤ 9 := Nat.le_of_lt_succ (digitValue_lt digit)
  have skipped : (String.ofList (significant front)).isEmpty = true ∧ (digitValue c == 0) = true ↔
      significant front = [] ∧ c = '0' := by
    rw [beq_iff_eq, digitValue_eq_zero digit, String.isEmpty_iff, ← String.toList_inj,
      String.toList_ofList]
    rfl
  rw [push, significant_concat]
  simp only [Bool.and_eq_true, skipped, small, if_true]
  split
  · next empty => rw [empty.1]
  · have text : (String.ofList (significant front)).push (digitChar (digitValue c)) =
        String.ofList (significant front ++ [c]) := by
      rw [← String.toList_inj, digitChar_digitValue digit]
      simp
    rw [text]

theorem integerDigits (front : List Char) (inside : ∀ c ∈ more, isDigit c = true) :
    more.foldl (fun (n : Numeral) c => n.integerDigit (digitValue c))
        ⟨String.ofList (significant front), s, e, b⟩ =
      ⟨String.ofList (significant (front ++ more)), s, e, b⟩ := by
  induction more generalizing front with
  | nil => simp
  | cons c more ih =>
    have later := ih (front ++ [c]) fun d member => inside d (List.mem_cons_of_mem c member)
    rw [List.append_assoc, List.singleton_append] at later
    rw [List.foldl_cons, integerDigit, push_significant front (inside c List.mem_cons_self), later]

theorem saturate_scale (k : Nat) :
    saturate (-(min k 0x80000000 : Nat) - 1) = -(min (k + 1) 0x80000000 : Nat) := by
  simp only [saturate]
  omega

theorem fractionDigits (front : List Char) (k : Nat) (inside : ∀ c ∈ more, isDigit c = true) :
    more.foldl (fun (n : Numeral) c => n.fractionDigit (digitValue c))
        ⟨String.ofList (significant front), -(min k 0x80000000 : Nat), e, b⟩ =
      ⟨String.ofList (significant (front ++ more)), -(min (k + more.length) 0x80000000 : Nat),
        e, b⟩ := by
  induction more generalizing front k with
  | nil => simp
  | cons c more ih =>
    have later := ih (front ++ [c]) (k + 1) fun d member => inside d (List.mem_cons_of_mem c member)
    rw [List.append_assoc, List.singleton_append, Nat.add_assoc, Nat.add_comm 1] at later
    rw [List.foldl_cons, fractionDigit, push_significant front (inside c List.mem_cons_self)]
    simp only [saturate_scale]
    rw [later, List.length_cons]

theorem saturate_exponent {d : Nat} (small : d < 10) (v : Nat) :
    saturate (saturate ((min v 0x7FFFFFFF : Nat) * 10) + Int.bmod d 0x100000000) =
      (min (10 * v + d) 0x7FFFFFFF : Nat) := by
  have same : Int.bmod d 0x100000000 = d := by
    rw [Int.bmod_eq_of_le] <;> omega
  rw [same]
  simp only [saturate]
  omega

theorem exponentDigits (front : List Char) (inside : ∀ c ∈ more, isDigit c = true) :
    more.foldl (fun (n : Numeral) c => n.exponentDigit (digitValue c))
        ⟨text, s, (min (Decimal.value front) 0x7FFFFFFF : Nat), b⟩ =
      ⟨text, s, (min (Decimal.value (front ++ more)) 0x7FFFFFFF : Nat), b⟩ := by
  induction more generalizing front with
  | nil => simp
  | cons c more ih =>
    have later := ih (front ++ [c]) fun d member => inside d (List.mem_cons_of_mem c member)
    rw [value_concat, List.append_assoc, List.singleton_append] at later
    rw [List.foldl_cons, exponentDigit]
    simp only [saturate_exponent (digitValue_lt (inside c List.mem_cons_self))]
    exact later

end Numeral

namespace Grammar

open Decimal

def Parts.exponentDigits (n : Parts) : List Char := n.exponent.elim [] Exponent.digits

/-- The numeral that the parts write: all digits but the zeros in front, scaled down by the length
of the fraction, with the exponent and its sign. Scale and exponent stop at the ends of their
range. -/
def Parts.decimal (n : Parts) : Numeral where
  digits := String.ofList (significant (n.whole ++ n.fraction.getD []))
  scale := -(min (n.fraction.getD []).length 0x80000000 : Nat)
  exponent := (min (value n.exponentDigits) 0x7FFFFFFF : Nat)
  negativeExponent := n.exponent.any (·.sign == some '-')

theorem Exponent.apply_eq {e : Exponent} (formed : e.WellFormed) (text : String) (scale : Int) :
    e.apply ⟨text, scale, 0, false⟩ =
      ⟨text, scale, (min (value e.digits) 0x7FFFFFFF : Nat), e.sign == some '-'⟩ := by
  have signed : (if e.sign = some '-' then Numeral.negateExponent ⟨text, scale, 0, false⟩
      else ⟨text, scale, 0, false⟩) =
        (⟨text, scale, (min (value []) 0x7FFFFFFF : Nat), e.sign == some '-'⟩ : Numeral) := by
    by_cases minus : e.sign = some '-'
    · rw [if_pos minus, minus]
      rfl
    · rw [if_neg minus, beq_eq_false_iff_ne.mpr minus]
      rfl
  rw [Exponent.apply, signed, Numeral.exponentDigits [] formed.digits, List.nil_append]

theorem Parts.numeral_eq {n : Parts} (formed : n.WellFormed) : n.numeral = n.decimal := by
  obtain ⟨whole, fraction, exponent⟩ := n
  obtain ⟨-, wholeDigits, fractionInside, exponentFormed⟩ := formed
  have fractionDigits : ∀ c ∈ fraction.getD [], isDigit c = true := by
    cases fraction with
    | none => exact nofun
    | some digits => exact fractionInside digits rfl
  have empty : Numeral.empty = ⟨String.ofList (significant []), 0, 0, false⟩ := rfl
  have both : (fraction.getD []).foldl (fun n c => n.fractionDigit (digitValue c))
      (whole.foldl (fun n c => n.integerDigit (digitValue c)) Numeral.empty) =
        ⟨String.ofList (significant (whole ++ fraction.getD [])),
          -(min (fraction.getD []).length 0x80000000 : Nat), 0, false⟩ := by
    rw [empty, Numeral.integerDigits [] wholeDigits, List.nil_append]
    have read : _ = (⟨_, _, 0, false⟩ : Numeral) := Numeral.fractionDigits whole 0 fractionDigits
    rw [Nat.zero_add] at read
    exact read
  rw [Parts.numeral]
  simp only [both]
  cases exponent with
  | none => rfl
  | some e =>
    rw [Option.elim_some, Exponent.apply_eq (exponentFormed e rfl)]
    rfl

end Grammar

end DemandLex
