import DemandLex.Proofs.CharSet
import DemandLex.Proofs.Lexer.Grammar

/-! The default classes of the lexer are the character classes of the grammar. -/

namespace DemandLex.CharClasses

open CharSet Grammar

private theorem standard_letters : standard.letter.Reads isLetter :=
  (reads_range 'A' 'Z').union (reads_range 'a' 'z')

private theorem standard_digits : standard.digit.Reads Decimal.isDigit := by
  apply (reads_range '0' '9').congr
  intro c
  simp [Decimal.isDigit]

private theorem standard_starts : standard.idStart.Reads startsIdentifier := by
  apply ((reads_buildAny "$_").union standard_letters).congr
  intro c
  rw [Bool.eq_iff_iff]
  simp [startsIdentifier, or_assoc]

variable (c : Char)

@[simp] theorem standard_whiteSpace : standard.whiteSpace.contains c = isBlank c := by
  apply ((reads_buildAny " \t\n\x0d").contains c).trans
  rw [Bool.eq_iff_iff]
  simp [isBlank, or_assoc]

@[simp] theorem standard_idStart : standard.idStart.contains c = startsIdentifier c :=
  standard_starts.contains c

@[simp] theorem standard_idContinue : standard.idContinue.contains c = continuesIdentifier c :=
  (standard_starts.union standard_digits).contains c

@[simp] theorem standard_exponent : standard.exponent.contains c = marksExponent c := by
  apply ((reads_buildAny "eE").contains c).trans
  rw [Bool.eq_iff_iff]
  simp [marksExponent]

@[simp] theorem decimalDigit?_standard :
    LexState.decimalDigit? standard c =
      if Decimal.isDigit c then some (Decimal.digitValue c) else none := by
  rw [LexState.decimalDigit?, standard_digits.contains, Bool.and_self]

theorem standard_hexDigit : standard.hexDigit.contains c = (LexState.hexValue? c).isSome := by
  refine (((standard_digits.union (reads_range 'a' 'f')).union (reads_range 'A' 'F')).contains
    c).trans ?_
  rw [LexState.hexValue?]
  by_cases digit : Decimal.isDigit c = true
  · simp [digit]
  · by_cases lower : 'a' ≤ c ∧ c ≤ 'f'
    · simp [digit, lower]
    · by_cases upper : 'A' ≤ c ∧ c ≤ 'F' <;> simp [digit, lower, upper]

@[simp] theorem hexDigit?_standard : LexState.hexDigit? standard c = LexState.hexValue? c := by
  rw [LexState.hexDigit?, standard_hexDigit]
  cases LexState.hexValue? c <;> rfl

end DemandLex.CharClasses
