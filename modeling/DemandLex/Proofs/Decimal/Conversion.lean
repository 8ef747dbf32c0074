import DemandLex.Proofs.Decimal.Literal
import DemandLex.Proofs.Decimal.NumeralText

/-! The fast and the slow way to the value of a numeral agree: both give the double nearest to its
number, the one by a single exact operation, the other by having its text read. -/

namespace DemandLex

open Binary64

namespace Decimal

/-- Digits with an exponent behind them are always read, and as the double nearest to the number
that they write. -/
def ReadsNearest (read? : String → Option Binary64) : Prop :=
  ∀ (digits : List Char) (power : ℤ), digits ≠ [] → (∀ c ∈ digits, isDigit c = true) →
    ∃ x, read? (String.ofList digits ++ "e" ++ toString power) = some x ∧
      x.IsNearest (value digits * 10 ^ power)

def readExactly? (text : String) : Option Binary64 :=
  match text.toList.dropWhile isDigit with
  | 'e' :: exponent =>
    let (negative, digits) := takeSign exponent
    some (ofDecimal false (value (text.toList.takeWhile isDigit))
      (if negative then -(value digits : ℤ) else value digits))
  | _ => none

theorem readsNearest_readExactly : ReadsNearest readExactly? := by
  intro digits power nonempty inside
  refine ⟨_, ?_, ofDecimal_isNearest (value digits) power⟩
  have text : (String.ofList digits ++ "e" ++ toString power).toList =
      digits ++ 'e' :: (toString power).toList := by
    simp
  have stops : ∀ c ∈ ('e' :: (toString power).toList).head?, isDigit c = false := by
    rintro _ ⟨⟩
    decide
  obtain ⟨front, back⟩ := takeWhile_isDigit inside stops
  rw [readExactly?, text, front, back]
  simp only [takeSign_toString, value_toString, decide_eq_true_eq, signed_natAbs]

end Decimal

namespace Numeral

open Decimal

variable {read? : String → Option Binary64} {n : Numeral}

theorem read?_text_isNearest (reads : ReadsNearest read?) (nonempty : n.digits ≠ "")
    (inside : ∀ c ∈ n.digits.toList, isDigit c = true) :
    ∃ x, read? n.text = some x ∧ x.IsNearest (n.whole * 10 ^ n.power) := by
  have read := reads n.digits.toList n.power (by simpa using nonempty) inside
  rwa [String.ofList_toList, ← n.whole_eq_value] at read

theorem valueThrough_isNearest (reads : ReadsNearest read?)
    (inside : ∀ c ∈ n.digits.toList, isDigit c = true) :
    (n.valueThrough read?).IsNearest (n.whole * 10 ^ n.power) := by
  by_cases empty : n.digits = ""
  · have zero : n.valueThrough read? = .zero := by
      rw [valueThrough, valueBy, empty]
      rfl
    rw [zero, whole_of_isEmpty (by rw [empty]; rfl), Nat.cast_zero, zero_mul]
    exact zero_isNearest
  · obtain ⟨x, read, nearest⟩ := read?_text_isNearest reads empty inside
    refine n.valueBy_isNearest ?_ fun _ => rfl
    rwa [read, Option.getD_some]

/-- If texts are read correctly, the value of a numeral is the double nearest to its digits times
its power of ten, whichever way is taken. Where it is the fast way, the digits and the size of the
power are doubles themselves, and their product or quotient is what the slow way would have given.
The reader of texts that there is reads no more of an exponent than tells it from 65536, so it is
correct for the powers below 655360. -/
theorem value_nearest (reads : ReadsNearest read?)
    (inside : ∀ c ∈ n.digits.toList, isDigit c = true) :
    let whole := Decimal.value n.digits.toList
    let power := ofNat (10 ^ n.power.natAbs)
    (n.valueThrough read?).IsNearest (whole * 10 ^ n.power) ∧
    (n.digits ≠ "" → whole ≤ 2 ^ 53 → n.power.natAbs ≤ 22 →
      (ofNat whole).IsExact whole ∧ power.IsExact (10 ^ n.power.natAbs : Nat) ∧
      n.valueThrough read? = (if n.power < 0 then ofNat whole / power else ofNat whole * power) ∧
      read? n.text = some (n.valueThrough read?)) ∧
    n.value = n.valueThrough Decimal.read? ∧
    (n.power.natAbs < 655360 → n.value.IsNearest (whole * 10 ^ n.power)) := by
  intro whole power
  have same : whole = n.whole := n.whole_eq_value.symm
  have nearest := valueThrough_isNearest reads inside
  rw [same]
  refine ⟨nearest, fun nonempty few small => ?_, value_eq_valueThrough inside, fun limited => ?_⟩
  · obtain ⟨digits, exact⟩ := fast_operands few small
    refine ⟨digits, exact, ?_, ?_⟩
    · have full : ¬n.digits.isEmpty = true := by simpa using nonempty
      rw [valueThrough, valueBy, if_neg full, if_pos ⟨few, small⟩]
      rfl
    · obtain ⟨x, read, nearest'⟩ := read?_text_isNearest reads nonempty inside
      rw [read, nearest'.unique nearest]
  · have value := n.value_isNearest
    rwa [clipExponent_of_lt limited] at value

/-- The largest digits and the smallest power of ten that the fast way is taken for. -/
theorem value_nearest_threshold :
    let n : Numeral := ⟨"9007199254740992", -20, 2, true⟩
    ReadsNearest readExactly? ∧ (∀ c ∈ n.digits.toList, isDigit c = true) ∧
      n.whole = 2 ^ 53 ∧ n.power = -22 ∧
      (n.valueThrough readExactly?).IsNearest (9007199254740992 * 10 ^ (-22 : ℤ)) ∧
      readExactly? n.text = some (n.valueThrough readExactly?) ∧
      n.value = ⟨0x3EAE392010175EE6⟩ := by
  intro n
  have inside : ∀ c ∈ n.digits.toList, isDigit c = true := List.all_eq_true.mp (by decide)
  have whole : n.whole = 2 ^ 53 := by decide +kernel
  have digits : Decimal.value n.digits.toList = 9007199254740992 := by decide +kernel
  have power : n.power = -22 := rfl
  obtain ⟨nearest, fast, -⟩ := value_nearest readsNearest_readExactly inside
  rw [digits, power] at nearest
  refine ⟨readsNearest_readExactly, inside, whole, power, nearest, ?_, by decide +kernel⟩
  exact (fast (by decide) (by rw [digits]; decide) (by decide)).2.2.2

end Numeral

end DemandLex
