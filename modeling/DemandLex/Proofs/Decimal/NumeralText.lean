import DemandLex.Proofs.Decimal.Digits

/-! The text that a numeral is read from where its digits and its power of ten are not numbers
themselves, and what is read of it. -/

namespace DemandLex

namespace Decimal

variable {c : Char} {digits rest : List Char} {power : Int}

theorem ne_sign_of_isDigit (digit : isDigit c = true) : c ≠ '-' ∧ c ≠ '+' := by
  constructor <;> rintro rfl <;> exact absurd digit (by decide)

theorem takeSign_of_isDigit (digit : isDigit c = true) (rest : List Char) :
    takeSign (c :: rest) = (false, c :: rest) := by
  obtain ⟨minus, plus⟩ := ne_sign_of_isDigit digit
  rw [takeSign]
  · exact fun _ same => minus (List.cons.inj same).1
  · exact fun _ same => plus (List.cons.inj same).1

theorem takeSign_toString (power : Int) :
    takeSign (toString power).toList =
      (decide (power < 0), (toString power.natAbs).toList) := by
  cases power with
  | ofNat n =>
    obtain ⟨c, rest, digits⟩ := List.exists_cons_of_ne_nil (toList_toString_ne_nil n)
    have text : (toString (Int.ofNat n)).toList = (toString n).toList := rfl
    have digit := isDigit_of_mem_toString n c (digits ▸ List.mem_cons_self)
    rw [text, digits, takeSign_of_isDigit digit, ← digits]
    rfl
  | negSucc n =>
    have text : (toString (Int.negSucc n)).toList = '-' :: (toString (n + 1)).toList :=
      String.toList_append
    have negative : decide (Int.negSucc n < 0) = true := decide_eq_true (Int.negSucc_lt_zero n)
    rw [text, takeSign, negative]
    rfl

theorem signed_natAbs (power : Int) :
    (if power < 0 then -(power.natAbs : Int) else power.natAbs) = power := by
  split <;> omega

theorem exponent?_toString (power : Int) :
    exponent? ('e' :: (toString power).toList) = some (clipExponent power) := by
  have inside : (toString power.natAbs).toList.all isDigit = true :=
    List.all_eq_true.mpr (isDigit_of_mem_toString power.natAbs)
  have nonempty : (toString power.natAbs).toList.isEmpty = false :=
    List.isEmpty_eq_false_iff.mpr (toList_toString_ne_nil power.natAbs)
  have written := value_toString power.natAbs
  simp only [exponent?, true_or, if_true, takeSign_toString, inside, nonempty, written,
    decide_eq_true_eq, signed_natAbs, Bool.not_true, Bool.or_self, Bool.false_eq_true, if_false]

theorem toLower_of_isDigit (digit : isDigit c = true) : c.toLower = c := by
  have small := (isDigit_iff.mp digit).2
  apply dif_neg
  rintro ⟨large, -⟩
  have := UInt32.le_iff_toNat_le.mp large
  simp at this
  omega

theorem word?_of_isDigit (digit : isDigit c = true) (rest : List Char) :
    word? (c :: rest) = none := by
  have apart {word : String} (letter : word.toList.head?.all isDigit = false) :
      String.ofList (c :: rest.map Char.toLower) ≠ word := by
    rintro rfl
    simp [digit] at letter
  rw [word?, List.map_cons, toLower_of_isDigit digit]
  split
  · next same => exact absurd same (apart (by decide))
  · next same => exact absurd same (apart (by decide))
  · next same => exact absurd same (apart (by decide))
  · rfl

theorem takeWhile_isDigit (inside : ∀ c ∈ digits, isDigit c = true)
    (stops : ∀ c ∈ rest.head?, isDigit c = false) :
    (digits ++ rest).takeWhile isDigit = digits ∧ (digits ++ rest).dropWhile isDigit = rest := by
  rw [List.takeWhile_append_of_pos inside, List.dropWhile_append_of_pos inside]
  cases rest with
  | nil => simp
  | cons c later => simp [stops c rfl]

theorem read?_digits (nonempty : digits ≠ []) (inside : ∀ c ∈ digits, isDigit c = true)
    (power : Int) :
    read? (String.ofList digits ++ "e" ++ toString power) = some (nearest (value digits) power) := by
  obtain ⟨c, later, rfl⟩ := List.exists_cons_of_ne_nil nonempty
  have digit := inside c List.mem_cons_self
  have word := word?_of_isDigit digit (later ++ 'e' :: (toString power).toList)
  have text : (String.ofList (c :: later) ++ "e" ++ toString power).toList =
      c :: later ++ 'e' :: (toString power).toList := by
    simp
  have stops : ∀ c ∈ ('e' :: (toString power).toList).head?, isDigit c = false := by
    rintro _ ⟨⟩
    decide
  obtain ⟨front, back⟩ := takeWhile_isDigit inside stops
  simp only [read?, text, List.cons_append, takeSign_of_isDigit digit, word]
  rw [← List.cons_append, number?, front, back]
  simp [exponent?_toString, valueByHalves_eq_value, nearest, -Int.toString_eq_repr]

end Decimal

namespace Numeral

open Decimal

def text (n : Numeral) : String := n.digits ++ "e" ++ toString n.power

/-- The number of a numeral where the slow way is to have its text read. A text that is not read
would be infinity. -/
def valueThrough (read? : String → Option Binary64) (n : Numeral) : Binary64 :=
  n.valueBy fun _ _ => (read? n.text).getD (.infinity false)

theorem valueBy_congr {convert convert' : Nat → Int → Binary64} {n : Numeral}
    (same : n.digits ≠ "" → convert n.whole n.power = convert' n.whole n.power) :
    n.valueBy convert = n.valueBy convert' := by
  rw [valueBy, valueBy]
  split
  · rfl
  · next nonempty => rw [same (by simpa using nonempty)]

theorem read?_text {n : Numeral} (nonempty : n.digits ≠ "")
    (inside : ∀ c ∈ n.digits.toList, isDigit c = true) :
    read? n.text = some (nearest n.whole n.power) := by
  have read := read?_digits (by simpa using nonempty) inside n.power
  rwa [String.ofList_toList, ← n.whole_eq_value] at read

theorem value_eq_valueThrough {n : Numeral} (inside : ∀ c ∈ n.digits.toList, isDigit c = true) :
    n.value = n.valueThrough read? :=
  valueBy_congr fun nonempty => by rw [read?_text nonempty inside, Option.getD_some]

end Numeral

end DemandLex
