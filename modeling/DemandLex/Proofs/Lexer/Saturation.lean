import DemandLex.Proofs.Decimal.Conversion
import DemandLex.Proofs.Lexer.ExactNumeral

/-! Numerals whose exponent does not fit into its range. What the lexer holds of them is not the number
that they write, but both are beyond all doubles, or both below half of the smallest one, on the same
side. -/

namespace DemandLex

open Binary64 Decimal LexState

namespace Grammar

variable {n : Parts}

/-- The exponent as it is written, or the power of ten of the digits, takes more than 32 bits. -/
def Parts.Saturates (n : Parts) : Prop :=
  2 ^ 31 ≤ value n.exponentDigits ∨ n.power < -2 ^ 31 ∨ 2 ^ 31 ≤ n.power

def Parts.extreme (n : Parts) : Binary64 :=
  if value n.digits = 0 ∨ n.decimal.negativeExponent = true then .zero else .infinity false

theorem Parts.power_of_fits (short : n.digits.length < 2 ^ 31 - 400) (fits : ¬n.Saturates) :
    n.decimal.power = n.power := by
  have fraction := n.length_fraction_le
  rw [power_decimal, saturate]
  unfold Parts.Saturates Parts.power at *
  generalize value n.exponentDigits = x at *
  generalize (n.fraction.getD []).length = f at *
  by_cases negative : n.exponent.any (·.sign == some '-') = true
  · simp only [if_pos negative] at *
    omega
  · simp only [if_neg negative] at *
    omega

/-- The power of ten takes all digits beyond the largest double, or below half of the smallest one, as
the sign of the exponent says. -/
def Parts.Beyond (n : Parts) (k : ℤ) : Prop :=
  (n.decimal.negativeExponent = false ∧ 342 ≤ k) ∨
    (n.decimal.negativeExponent = true ∧ n.digits.length + k ≤ -324)

/-- The digits of the fraction cannot make up for a large exponent, nor all digits together for a
large negative one. -/
theorem Parts.beyond_of_saturates (short : n.digits.length < 2 ^ 31 - 400)
    (saturates : n.Saturates) : n.Beyond n.power ∧ n.Beyond n.decimal.power := by
  have fraction := n.length_fraction_le
  have sign : n.decimal.negativeExponent = n.exponent.any (·.sign == some '-') := rfl
  rw [power_decimal, saturate]
  unfold Parts.Beyond Parts.Saturates Parts.power at *
  rw [sign]
  generalize value n.exponentDigits = x at *
  generalize (n.fraction.getD []).length = f at *
  by_cases negative : n.exponent.any (·.sign == some '-') = true
  · simp only [negative, if_true, Bool.true_eq_false, false_and, false_or, true_and] at *
    omega
  · rw [Bool.not_eq_true] at negative
    simp only [negative, Bool.false_eq_true, if_false, false_and, or_false, true_and] at *
    omega

theorem Parts.extreme_isNearest (formed : n.WellFormed) {k : ℤ} (beyond : n.Beyond k) :
    n.extreme.IsNearest (value n.digits * 10 ^ k) := by
  rw [extreme]
  rcases beyond with ⟨sign, large⟩ | ⟨sign, small⟩
  · by_cases none : value n.digits = 0
    · rw [if_pos (Or.inl none), none, Nat.cast_zero, zero_mul]
      exact zero_isNearest
    · rw [if_neg (by simp [none, sign])]
      exact infinity_of_large none large
  · rw [if_pos (Or.inr sign)]
    exact zero_of_small (value_lt (isDigit_of_mem formed)) small

theorem Parts.isDigit_decimal (formed : n.WellFormed) :
    ∀ c ∈ n.decimal.digits.toList, isDigit c = true := by
  rw [decimal, String.toList_ofList]
  intro c member
  exact isDigit_of_mem formed c ((List.dropWhile_sublist _).subset member)

/-- What is held of a numeral and what it writes have the same nearest double. -/
theorem Parts.exists_nearest (formed : n.WellFormed) (short : n.digits.length < 2 ^ 31 - 400) :
    ∃ x : Binary64, x.IsNearest (n.decimal.whole * 10 ^ n.decimal.power) ∧
      x.IsNearest n.absolute ∧ (n.Saturates → x = n.extreme) := by
  rw [n.whole_decimal, absolute]
  by_cases saturates : n.Saturates
  · obtain ⟨written, held⟩ := beyond_of_saturates short saturates
    exact ⟨n.extreme, extreme_isNearest formed held, extreme_isNearest formed written, fun _ => rfl⟩
  · rw [power_of_fits short saturates]
    exact ⟨_, ofDecimal_isNearest _ _, ofDecimal_isNearest _ _, fun other => absurd other saturates⟩

end Grammar

open Grammar

/-- Of a numeral with fewer digits than the largest exponent but 400, the lexer holds a number with
the same nearest double as the number that is written, also where the exponent or the power of ten has
come to the end of its range. Then this double is zero or infinity. A correct reader of texts makes
this double the numeral's value. -/
theorem nearest_after_saturation {n : Parts} (formed : n.WellFormed)
    (short : n.digits.length < 2 ^ 31 - 400) {inputs : List Tagged}
    (spelt : inputs.map Tagged.char = n.chars.map some) :
    ∃ first held x, inputs.head? = some first ∧
      whiteSpace.after .standard inputs = numeral first.position held n.phase ∧
      (∀ y : Binary64, y.IsNearest (held.whole * 10 ^ held.power) ↔ y = x) ∧
      (∀ y : Binary64, y.IsNearest n.written ↔ y = x) ∧
      (n.Saturates → x =
        if value n.digits = 0 ∨ held.negativeExponent = true then .zero else .infinity false) ∧
      ∀ read?, ReadsNearest read? → held.valueThrough read? = x := by
  obtain ⟨first, head, last, -⟩ := exists_after_parts formed spelt
  obtain ⟨x, held, written, extreme⟩ := Parts.exists_nearest formed short
  rw [Parts.numeral_eq formed] at last
  rw [← Parts.written_eq_absolute] at written
  refine ⟨first, n.decimal, x, head, last, fun _ => held.isNearest_iff,
    fun _ => written.isNearest_iff, extreme, ?_⟩
  intro read? reads
  exact (Numeral.valueThrough_isNearest reads (Parts.isDigit_decimal formed)).unique held

/-- The exponent does not fit into its range, nor does what it has become together with the scale. -/
theorem nearest_after_saturation_small :
    let n : Parts := ⟨['1', '0'], some ['0', '0'], some ⟨'e', some '-', List.replicate 11 '9'⟩⟩
    let inputs : List Tagged := n.chars.map fun c => ⟨some c, ⟨1, 1⟩⟩
    n.WellFormed ∧ n.digits.length < 2 ^ 31 - 400 ∧ inputs.map Tagged.char = n.chars.map some ∧
      n.Saturates ∧ ReadsNearest readExactly? ∧
      ∃ held, whiteSpace.after .standard inputs = numeral ⟨1, 1⟩ held .afterExponentSign ∧
        held.power = -2 ^ 31 ∧ Binary64.zero.IsNearest (held.whole * 10 ^ held.power) ∧
        Binary64.zero.IsNearest n.written ∧ held.valueThrough readExactly? = .zero := by
  intro n inputs
  have formed : n.WellFormed := by
    refine ⟨by decide, List.all_eq_true.mp rfl, ?_, ?_⟩
    · rintro _ ⟨⟩
      exact List.all_eq_true.mp rfl
    · rintro _ ⟨⟩
      exact ⟨rfl, by rintro _ ⟨⟩; rfl, List.all_eq_true.mp rfl⟩
  have short : n.digits.length < 2 ^ 31 - 400 := by decide
  have chars : inputs.map Tagged.char = n.chars.map some := rfl
  have saturates : n.Saturates := Or.inl (by decide)
  obtain ⟨first, held, x, head, last, nearest, written, extreme, value⟩ :=
    nearest_after_saturation formed short chars
  cases head
  have numeral : whiteSpace.after .standard inputs =
      numeral ⟨1, 1⟩ ⟨"1000", -2, 2 ^ 31 - 1, true⟩ .afterExponentSign := by decide +kernel
  cases last.symm.trans numeral
  have zero := extreme saturates
  rw [if_pos (Or.inr rfl)] at zero
  exact ⟨formed, short, chars, saturates, readsNearest_readExactly, _, numeral, rfl,
    (nearest _).mpr zero.symm, (written _).mpr zero.symm,
    (value _ readsNearest_readExactly).trans zero⟩

end DemandLex
