import DemandLex.Proofs.Decimal.Literal
import DemandLex.Proofs.Lexer.NumeralLexeme

/-! What the lexer holds of a numeral that it has read: all digits that count, and with the scale and
the exponent the very number that the numeral writes. -/

namespace DemandLex

open Decimal LexState

def Numeral.number (n : Numeral) : ℚ :=
  n.whole * 10 ^ (if n.negativeExponent then n.scale - n.exponent else n.scale + n.exponent)

namespace Grammar

/-- The exponent with its sign. Without digits it is zero. -/
def Parts.signedExponent (n : Parts) : ℤ :=
  if n.exponent.any (·.sign == some '-') then -(value n.exponentDigits : ℤ)
  else value n.exponentDigits

/-- The number that a reader takes from the parts: the whole, with the fraction behind it, moved by
the exponent. -/
def Parts.written (n : Parts) : ℚ :=
  (value n.whole + value (n.fraction.getD []) / 10 ^ (n.fraction.getD []).length) *
    10 ^ n.signedExponent

/-- The parts without a dot that has no digits behind it and without an exponent that has none. -/
def Parts.trimmed (n : Parts) : Parts :=
  { n with
    fraction := n.fraction.filter (!·.isEmpty)
    exponent := n.exponent.filter (!·.digits.isEmpty) }

variable {n : Parts}

theorem Parts.written_eq_absolute (n : Parts) : n.written = n.absolute := by
  have power : n.power = n.signedExponent - (n.fraction.getD []).length := rfl
  have ten : (10 : ℚ) ^ (n.fraction.getD []).length ≠ 0 := by positivity
  rw [written, absolute, power, zpow_sub₀ (by norm_num), zpow_natCast, digits, value_append]
  push_cast
  field_simp

theorem Parts.written_trimmed (n : Parts) : n.trimmed.written = n.written := by
  have fraction : n.trimmed.fraction.getD [] = n.fraction.getD [] := by
    rcases same : n.fraction with _ | _ | ⟨c, later⟩ <;> simp [trimmed, same, Option.filter]
  have exponent : n.trimmed.signedExponent = n.signedExponent := by
    rcases same : n.exponent with _ | ⟨letter, sign, _ | ⟨c, later⟩⟩
    · simp [trimmed, signedExponent, exponentDigits, same]
    · simp [trimmed, signedExponent, exponentDigits, same, Option.filter, value]
    · simp [trimmed, signedExponent, exponentDigits, same, Option.filter]
  have whole : n.trimmed.whole = n.whole := rfl
  rw [written, fraction, exponent, whole, written]

theorem Parts.scale_decimal (short : (n.fraction.getD []).length ≤ 2 ^ 31) :
    n.decimal.scale = -((n.fraction.getD []).length : ℤ) := by
  simp only [decimal]
  omega

theorem Parts.exponent_decimal (n : Parts) :
    n.decimal.exponent = min (value n.exponentDigits : ℤ) (2 ^ 31 - 1) := by
  simp only [decimal]
  omega

theorem Parts.negativeExponent_decimal (n : Parts) :
    n.decimal.negativeExponent = true ↔ ∃ e ∈ n.exponent, e.sign = some '-' := by
  rcases same : n.exponent with _ | e <;> simp [decimal, same]

theorem Parts.number_decimal (short : (n.fraction.getD []).length ≤ 2 ^ 31)
    (small : value n.exponentDigits < 2 ^ 31) : n.decimal.number = n.absolute := by
  have exponent : n.decimal.exponent = value n.exponentDigits := by
    rw [exponent_decimal]
    omega
  have sign : n.decimal.negativeExponent = n.exponent.any (·.sign == some '-') := rfl
  rw [Numeral.number, n.whole_decimal, scale_decimal short, exponent, sign, absolute, power]
  congr 2
  split <;> ring

end Grammar

open Grammar

theorem exists_after_parts {n : Parts} (formed : n.WellFormed) {inputs : List Tagged}
    (spelt : inputs.map Tagged.char = n.chars.map some) :
    ∃ first, inputs.head? = some first ∧
      whiteSpace.after .standard inputs = numeral first.position n.numeral n.phase ∧
      whiteSpace.emits .standard inputs = [] := by
  obtain ⟨c, later, chars, digit, passes⟩ := exists_passes formed
  rw [chars, List.map_cons] at spelt
  obtain ⟨⟨_, p⟩, rest, rfl, rfl, others⟩ := List.map_eq_cons_iff.mp spelt
  obtain ⟨last, silent⟩ := passes p rest others
  have begins : whiteSpace.step .standard ⟨some c, p⟩ = _ := step_digit digit
  refine ⟨_, rfl, ?_, ?_⟩
  · rw [after, begins]
    exact last
  · rw [emits, begins]
    exact silent

/-- Behind a numeral, wherever its characters stand, the lexer holds its digits without the zeros in
front, the length of its fraction as the scale and its exponent with the sign, and it has handed out
nothing. These make the number that is written, unless the exponent has come to the end of its
range. A dot, an exponent letter or a sign with no digits behind it is nothing to the number. -/
theorem after_numeral {n : Parts} (formed : n.WellFormed)
    (short : (n.fraction.getD []).length ≤ 2 ^ 31) {inputs : List Tagged}
    (spelt : inputs.map Tagged.char = n.chars.map some) :
    ∃ first held, inputs.head? = some first ∧
      whiteSpace.after .standard inputs = numeral first.position held n.phase ∧
      whiteSpace.emits .standard inputs = [] ∧
      held.digits.toList = (n.whole ++ n.fraction.getD []).dropWhile (· == '0') ∧
      held.scale = -((n.fraction.getD []).length : ℤ) ∧
      held.exponent = min (value n.exponentDigits : ℤ) (2 ^ 31 - 1) ∧
      (held.negativeExponent = true ↔ ∃ e ∈ n.exponent, e.sign = some '-') ∧
      (value n.exponentDigits < 2 ^ 31 →
        held.number = n.written ∧ held.number = n.trimmed.written) := by
  obtain ⟨first, head, last, silent⟩ := exists_after_parts formed spelt
  rw [Parts.numeral_eq formed] at last
  refine ⟨first, n.decimal, head, last, silent, String.toList_ofList, Parts.scale_decimal short,
    n.exponent_decimal, n.negativeExponent_decimal, ?_⟩
  intro small
  have number := Parts.number_decimal short small
  rw [← Parts.written_eq_absolute] at number
  exact ⟨number, number.trans n.written_trimmed.symm⟩

/-- Zeros before and behind the dot, a last zero that counts, and a negative exponent with a zero in
front. -/
theorem after_numeral_zeros :
    let n : Parts := ⟨['0', '0'], some ['0', '1', '2', '0'], some ⟨'E', some '-', ['0', '5']⟩⟩
    let inputs : List Tagged := n.chars.map fun c => ⟨some c, ⟨3, 7⟩⟩
    n.WellFormed ∧ (n.fraction.getD []).length ≤ 2 ^ 31 ∧
      inputs.map Tagged.char = n.chars.map some ∧
      whiteSpace.after .standard inputs =
        numeral ⟨3, 7⟩ ⟨"120", -4, 5, true⟩ .afterExponentSign ∧
      (⟨"120", -4, 5, true⟩ : Numeral).number = 0.00000012 := by
  intro n inputs
  have formed : n.WellFormed := by
    refine ⟨by decide, List.all_eq_true.mp rfl, ?_, ?_⟩
    · rintro _ ⟨⟩
      exact List.all_eq_true.mp rfl
    · rintro _ ⟨⟩
      exact ⟨rfl, by rintro _ ⟨⟩; rfl, List.all_eq_true.mp rfl⟩
  have chars : inputs.map Tagged.char = n.chars.map some := rfl
  obtain ⟨first, held, head, last, -, digits, scale, exponent, negative, number⟩ :=
    after_numeral formed (by decide) chars
  cases head
  have all : held = ⟨"120", -4, 5, true⟩ := by
    obtain ⟨text, _, _, _⟩ := held
    have text : text = "120" := String.toList_inj.mp digits
    have negative := negative.mpr ⟨_, rfl, rfl⟩
    simp only [Numeral.mk.injEq]
    exact ⟨text, scale, exponent, negative⟩
  rw [all] at last number
  refine ⟨formed, by decide, chars, last, ?_⟩
  have whole : value n.whole = 0 := rfl
  have fraction : value (n.fraction.getD []) = 120 := rfl
  have exponent : n.signedExponent = -5 := rfl
  rw [(number (by decide)).1, Parts.written, whole, fraction, exponent]
  norm_num [n]

end DemandLex
