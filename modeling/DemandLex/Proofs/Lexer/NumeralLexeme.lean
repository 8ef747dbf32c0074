import DemandLex.Proofs.Lexer.Passing

/-! Numerals: the lexer reads the parts one after the other, and stops where no longer numeral goes
on. -/

namespace DemandLex

open Grammar LexState

namespace Grammar

def Exponent.phase : Exponent → NumeralPhase
  | ⟨_, none, []⟩ => .afterExponent
  | _ => .afterExponentSign

def Parts.phase (n : Parts) : NumeralPhase :=
  match n.exponent, n.fraction with
  | some e, _ => e.phase
  | none, some _ => .afterDot
  | none, none => .beforeDot

end Grammar

section Continue
variable {c : Char} {phase : NumeralPhase}

theorem continue_whole (digit : Decimal.isDigit c = true) :
    continueNumeral .standard .beforeDot c =
      some ((·.integerDigit (Decimal.digitValue c)), .beforeDot) := by
  simp [continueNumeral, digit]

theorem continue_fraction (digit : Decimal.isDigit c = true) :
    continueNumeral .standard .afterDot c =
      some ((·.fractionDigit (Decimal.digitValue c)), .afterDot) := by
  simp [continueNumeral, digit]

theorem continue_exponent (late : phase = .afterExponent ∨ phase = .afterExponentSign)
    (digit : Decimal.isDigit c = true) :
    continueNumeral .standard phase c =
      some ((·.exponentDigit (Decimal.digitValue c)), .afterExponentSign) := by
  rcases late with rfl | rfl <;> simp [continueNumeral, digit]

theorem continue_dot : continueNumeral .standard .beforeDot '.' = some (id, .afterDot) := by
  have digit : Decimal.isDigit '.' = false := by decide
  simp [continueNumeral, digit]

theorem isDigit_of_marksExponent (letter : marksExponent c = true) :
    Decimal.isDigit c = false ∧ c ≠ '.' := by
  simp only [marksExponent, Bool.or_eq_true, beq_iff_eq] at letter
  rcases letter with rfl | rfl <;> decide

theorem continue_letter (early : phase = .beforeDot ∨ phase = .afterDot)
    (letter : marksExponent c = true) :
    continueNumeral .standard phase c = some (id, .afterExponent) := by
  obtain ⟨digit, dot⟩ := isDigit_of_marksExponent letter
  rcases early with rfl | rfl <;> simp [continueNumeral, digit, dot, letter]

theorem continue_sign (sign : isSign c = true) :
    continueNumeral .standard .afterExponent c =
      some (fun n => if c = '-' then n.negateExponent else n, .afterExponentSign) := by
  simp only [isSign, Bool.or_eq_true, beq_iff_eq] at sign
  have plus : Decimal.isDigit '+' = false := by decide
  have minus : Decimal.isDigit '-' = false := by decide
  rcases sign with rfl | rfl
  · simp [continueNumeral, plus]
    rfl
  · simp [continueNumeral, minus]

end Continue

section Run
variable {p start : Position} {n : Numeral} {phase : NumeralPhase} {digits rest : List Char}

theorem passes_exponentDigits (inside : ∀ c ∈ digits, Decimal.isDigit c = true) :
    (numeral start n .afterExponentSign).Passes digits
      (numeral start (digits.foldl (fun n c => n.exponentDigit (Decimal.digitValue c)) n)
        .afterExponentSign) :=
  passes_digits (fun _ => continue_exponent (Or.inr rfl)) inside

theorem passes_exponent {e : Exponent} (early : phase = .beforeDot ∨ phase = .afterDot)
    (formed : e.WellFormed) :
    (numeral start n phase).Passes e.chars (numeral start (e.apply n) e.phase) := by
  obtain ⟨letter, sign, digits⟩ := e
  obtain ⟨marks, signs, inside⟩ := formed
  refine .cons (step_continue (continue_letter early marks)) ?_
  cases sign with
  | some c =>
    have run : (numeral start (if c = '-' then n.negateExponent else n)
        .afterExponentSign).Passes digits _ := passes_exponentDigits inside
    refine .cons (step_continue (continue_sign (signs c rfl))) ?_
    simpa [Exponent.apply, Exponent.phase] using run
  | none =>
    cases digits with
    | nil => exact passes_nil
    | cons c digits =>
      exact .cons (step_continue (continue_exponent (Or.inl rfl) (inside c List.mem_cons_self)))
        (passes_exponentDigits fun d member => inside d (List.mem_cons_of_mem c member))

theorem passes_fraction (inside : ∀ c ∈ digits, Decimal.isDigit c = true) :
    (numeral start n .beforeDot).Passes ('.' :: digits)
      (numeral start (digits.foldl (fun n c => n.fractionDigit (Decimal.digitValue c)) n)
        .afterDot) :=
  .cons (step_continue continue_dot) (passes_digits (fun _ => continue_fraction) inside)

theorem exists_passes {n : Parts} (formed : n.WellFormed) :
    ∃ c later, n.chars = c :: later ∧ Decimal.isDigit c = true ∧ ∀ start : Position,
      (numeral start (.ofDigit (Decimal.digitValue c)) .beforeDot).Passes later
        (numeral start n.numeral n.phase) := by
  obtain ⟨whole, fraction, exponent⟩ := n
  obtain ⟨nonempty, wholeDigits, fractionDigits, exponentFormed⟩ := formed
  obtain ⟨c, whole, rfl⟩ := List.exists_cons_of_ne_nil nonempty
  refine ⟨c, _, rfl, wholeDigits c List.mem_cons_self, fun start =>
    (passes_digits (fun _ => continue_whole)
      fun d member => wholeDigits d (List.mem_cons_of_mem c member)).append ?_⟩
  cases fraction with
  | none =>
    cases exponent with
    | none => exact passes_nil
    | some e => exact passes_exponent (Or.inl rfl) (exponentFormed e rfl)
  | some digits =>
    refine (passes_fraction (fractionDigits digits rfl)).append ?_
    cases exponent with
    | none => exact passes_nil
    | some e => exact passes_exponent (Or.inr rfl) (exponentFormed e rfl)

theorem tokensFrom_numeral {n : Parts} (formed : n.WellFormed) :
    whiteSpace.tokensFrom p (n.chars ++ rest) =
      (numeral p n.numeral n.phase).tokensFrom (n.chars.foldl Position.advance p) rest := by
  obtain ⟨c, later, chars, digit, passes⟩ := exists_passes formed
  rw [chars, List.cons_append, tokensFrom_moves (step_digit digit), (passes p).tokensFrom]
  rfl

end Run

section Longer
variable {n : Parts} {e : Exponent} {c : Char} {phase : NumeralPhase}

theorem continue_cases (continues : continueNumeral .standard phase c ≠ none) :
    Decimal.isDigit c = true ∨ (phase = .beforeDot ∧ c = '.') ∨
      ((phase = .beforeDot ∨ phase = .afterDot) ∧ marksExponent c = true) ∨
      (phase = .afterExponent ∧ isSign c = true) := by
  by_cases digit : Decimal.isDigit c = true
  · exact Or.inl digit
  · cases phase with
    | beforeDot =>
      by_cases dot : c = '.'
      · exact Or.inr (Or.inl ⟨rfl, dot⟩)
      · simp [continueNumeral, digit, dot] at continues
        exact Or.inr (Or.inr (Or.inl ⟨Or.inl rfl, continues⟩))
    | afterDot =>
      simp [continueNumeral, digit] at continues
      exact Or.inr (Or.inr (Or.inl ⟨Or.inr rfl, continues⟩))
    | afterExponent =>
      refine Or.inr (Or.inr (Or.inr ⟨rfl, ?_⟩))
      by_cases minus : c = '-'
      · rw [minus]
        rfl
      · by_cases plus : c = '+'
        · rw [plus]
          rfl
        · simp [continueNumeral, digit, minus, plus] at continues
    | afterExponentSign => simp [continueNumeral, digit] at continues

theorem Grammar.Exponent.phase_cases : e.phase = .afterExponentSign ∨
    (e.phase = .afterExponent ∧ e.sign = none ∧ e.digits = []) := by
  obtain ⟨letter, _ | sign, _ | ⟨d, digits⟩⟩ := e
  · exact Or.inr ⟨rfl, rfl, rfl⟩
  · exact Or.inl rfl
  · exact Or.inl rfl
  · exact Or.inl rfl

private theorem forall_concat {digits : List Char} {P : Char → Prop}
    (inside : ∀ d ∈ digits, P d) (last : P c) : ∀ d ∈ digits ++ [c], P d := by
  intro d member
  rcases List.mem_append.mp member with member | member
  · exact inside d member
  · exact List.mem_singleton.mp member ▸ last

theorem exists_longer_exponent (formed : e.WellFormed)
    (continues : continueNumeral .standard e.phase c ≠ none) :
    ∃ longer : Exponent, longer.WellFormed ∧ longer.chars = e.chars ++ [c] := by
  obtain ⟨marks, signs, inside⟩ := formed
  rcases continue_cases continues with digit | ⟨early, -⟩ | ⟨early, -⟩ | ⟨late, sign⟩
  · refine ⟨{ e with digits := e.digits ++ [c] }, ⟨marks, signs, forall_concat inside digit⟩, ?_⟩
    simp [Exponent.chars]
  · rcases e.phase_cases with late | ⟨late, -⟩ <;> simp [late] at early
  · rcases e.phase_cases with late | ⟨late, -⟩ <;> simp [late] at early
  · rcases e.phase_cases with other | ⟨-, none, empty⟩
    · simp [other] at late
    · refine ⟨{ e with sign := some c }, ⟨marks, by simpa using sign, inside⟩, ?_⟩
      simp [Exponent.chars, none, empty]

theorem exists_longer (formed : n.WellFormed)
    (continues : continueNumeral .standard n.phase c ≠ none) :
    ∃ longer : Parts, longer.WellFormed ∧ longer.chars = n.chars ++ [c] := by
  obtain ⟨whole, fraction, exponent⟩ := n
  obtain ⟨nonempty, wholeDigits, fractionDigits, exponentFormed⟩ := formed
  cases exponent with
  | some e =>
    obtain ⟨longer, formed, chars⟩ := exists_longer_exponent (exponentFormed e rfl) continues
    refine ⟨⟨whole, fraction, some longer⟩,
      ⟨nonempty, wholeDigits, fractionDigits, by simpa using formed⟩, ?_⟩
    simp [Parts.chars, chars]
  | none =>
    have letter (marks : marksExponent c = true) : ∃ longer : Parts, longer.WellFormed ∧
        longer.chars = (⟨whole, fraction, none⟩ : Parts).chars ++ [c] := by
      refine ⟨⟨whole, fraction, some ⟨c, none, []⟩⟩, ⟨nonempty, wholeDigits, fractionDigits, ?_⟩, ?_⟩
      · simpa using ⟨marks, by simp, by simp⟩
      · simp [Parts.chars, Exponent.chars]
    cases fraction with
    | some digits =>
      rcases continue_cases continues with digit | ⟨early, -⟩ | ⟨-, marks⟩ | ⟨late, -⟩
      · refine ⟨⟨whole, some (digits ++ [c]), none⟩, ⟨nonempty, wholeDigits, ?_, by simp⟩, ?_⟩
        · simpa using forall_concat (fractionDigits digits rfl) digit
        · simp [Parts.chars]
      · cases early
      · exact letter marks
      · cases late
    | none =>
      rcases continue_cases continues with digit | ⟨-, rfl⟩ | ⟨-, marks⟩ | ⟨late, -⟩
      · refine ⟨⟨whole ++ [c], none, none⟩,
          ⟨by simp, forall_concat wholeDigits digit, by simp, by simp⟩, ?_⟩
        simp [Parts.chars]
      · refine ⟨⟨whole, some [], none⟩, ⟨nonempty, wholeDigits, by simp, by simp⟩, ?_⟩
        simp [Parts.chars]
      · exact letter marks
      · cases late

end Longer

end DemandLex
