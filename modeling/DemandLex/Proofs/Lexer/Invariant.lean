import DemandLex.Proofs.Lexer.Pending
import DemandLex.Proofs.Text.Utf16

/-! What holds of every state that the lexer comes to from white space, whatever its character classes
are and whatever it reads. -/

namespace DemandLex

structure Numeral.Sound (n : Numeral) : Prop where
  digits : ∀ c ∈ n.digits.toList, Decimal.isDigit c = true
  leading : n.digits.toList.head? ≠ some '0'

/-- In a unit fewer than four digits have been read, and the code is not above what they write. -/
def StringPhase.Sound : StringPhase → Prop
  | .unit code count => count ≤ 3 ∧ code < 16 ^ count
  | _ => True

/-- An identifier has a character, a numeral is sound, and in a string only a high surrogate waits
and the phase is sound. -/
def LexState.Sound : LexState → Prop
  | .identifier _ value => value ≠ ""
  | .numeral _ n _ => n.Sound
  | .string _ text phase => text.Waits ∧ phase.Sound
  | .whiteSpace | .terminal => True

namespace Numeral

variable {n : Numeral} {d : Nat}

theorem sound_empty : empty.Sound := ⟨by simp [empty], by simp [empty]⟩

theorem Sound.push (sound : n.Sound) (d : Nat) : (n.push d).Sound := by
  rw [Numeral.push]
  split
  · exact sound
  next counts =>
    split
    · next small =>
      have digit : d < 10 := Nat.lt_succ_of_le small
      constructor
      · simpa [or_imp, forall_and] using ⟨sound.digits, Decimal.isDigit_digitChar digit⟩
      · rw [String.toList_push, List.head?_append]
        cases front : n.digits.toList with
        | nil =>
          have empty : n.digits.isEmpty = true := by simpa using front
          have nonzero : d ≠ 0 := by simpa [empty] using counts
          intro zero
          have same : Decimal.digitChar d = '0' := by simpa using zero
          have value := Decimal.digitValue_digitChar digit
          rw [same] at value
          exact nonzero value.symm
        | cons c rest => simpa [front] using sound.leading
    · exact sound

theorem sound_ofDigit (d : Nat) : (ofDigit d).Sound := sound_empty.push d

end Numeral

theorem LiteralText.waits_append {t : LiteralText} {s : String} : (t.append s).Waits := by
  intro unit waiting
  have none : (t.append s).highSurrogate = none := flush_waiting
  rw [none] at waiting
  cases waiting

namespace LexState

open LiteralText

variable {classes : CharClasses} {s : LexState} {p start : Position} {x : Tagged} {c : Char}
  {n : Numeral} {text : LiteralText}

theorem sound_between : (between classes x).1.Sound := by
  obtain ⟨char, p⟩ := x
  cases char with
  | none => trivial
  | some c =>
    simp only [between]
    repeat' split
    · trivial
    · simp [Sound]
    · exact Numeral.sound_ofDigit _
    · exact ⟨waits_empty, trivial⟩
    · trivial

theorem sound_continue {phase phase' : NumeralPhase} {change : Numeral → Numeral}
    (continues : continueNumeral classes phase c = some (change, phase')) (sound : n.Sound) :
    (change n).Sound := by
  cases digit : decimalDigit? classes c with
  | some d =>
    cases phase <;> simp only [continueNumeral, digit] at continues <;> cases continues
    · exact sound.push d
    · exact ⟨(sound.push d).digits, (sound.push d).leading⟩
    · exact ⟨sound.digits, sound.leading⟩
    · exact ⟨sound.digits, sound.leading⟩
  | none =>
    cases phase <;> simp only [continueNumeral, digit] at continues <;> repeat' split at continues
    all_goals cases continues
    all_goals exact ⟨sound.digits, sound.leading⟩

theorem sound_inBody (waits : text.Waits) : (inBody start text c).1.Sound := by
  simp only [inBody]
  repeat' split
  · trivial
  · exact ⟨waits, trivial⟩
  · exact ⟨waits_push, trivial⟩

theorem sound_inEscape (waits : text.Waits) : (inEscape start text c).1.Sound := by
  simp only [inEscape]
  repeat' split
  · exact ⟨waits, Nat.zero_le 3, Nat.zero_lt_one⟩
  · exact ⟨waits_push, trivial⟩
  · exact ⟨waits_push, trivial⟩

theorem hexDigit?_lt {d : Nat} (digit : hexDigit? classes c = some d) : d < 16 := by
  rw [hexDigit?] at digit
  split at digit
  · exact hexValue?_lt digit
  · cases digit

theorem code_lt {code count d : Nat} (below : code < 16 ^ count) (digit : d < 16) :
    code * 16 + d < 16 ^ (count + 1) := by
  rw [Nat.pow_succ]
  omega

theorem sound_inUnit {code count : Nat} (waits : text.Waits)
    (sound : (StringPhase.unit code count).Sound) :
    (inUnit classes start text code count c).1.Sound := by
  obtain ⟨few, below⟩ := sound
  simp only [inUnit]
  repeat' split
  · exact ⟨waits_pushUnit, trivial⟩
  · next digit early => exact ⟨waits, by omega, code_lt below (hexDigit?_lt digit)⟩
  · exact sound_inBody waits_append

theorem sound_step (sound : s.Sound) (x : Tagged) : (s.step classes x).1.Sound := by
  cases s with
  | whiteSpace => exact sound_between
  | terminal => trivial
  | identifier start value =>
    simp only [step, inIdentifier]
    split
    · simp [Sound]
    · exact sound_between
  | numeral start n phase =>
    simp only [step, inNumeral]
    split
    · next continues =>
      obtain ⟨c, -, continues⟩ := Option.bind_eq_some_iff.mp continues
      exact sound_continue continues sound
    · exact sound_between
  | string start text phase =>
    obtain ⟨waits, sound⟩ := sound
    simp only [step, inString]
    split
    · exact sound_between
    · cases phase with
      | main => exact sound_inBody waits
      | escape => exact sound_inEscape waits
      | unit code count => exact sound_inUnit waits sound

theorem sound_after (sound : s.Sound) (inputs : List Tagged) :
    (s.after classes inputs).Sound := by
  induction inputs generalizing s with
  | nil => exact sound
  | cons x later ih => exact ih (sound_step sound x)

end LexState

end DemandLex
