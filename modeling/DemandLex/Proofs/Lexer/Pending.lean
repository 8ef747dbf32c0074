import DemandLex.Proofs.Lexer.Reading

/-! The token that the lexer is in the middle of, and what makes it hand that token out. -/

namespace DemandLex.LexState

/-- The token that is handed out if the input ends here. -/
def pending : LexState → List Located
  | whiteSpace | terminal => []
  | identifier start value => [⟨.identifier value, start⟩]
  | numeral start n _ => [⟨.number n.value, start⟩]
  | string start text phase => [⟨.string (cutText text phase).finish, start⟩]

def after (classes : CharClasses) : LexState → List Tagged → LexState
  | s, [] => s
  | s, x :: later => after classes (s.step classes x).1 later

theorem after_append (classes : CharClasses) (s : LexState) (front back : List Tagged) :
    s.after classes (front ++ back) = (s.after classes front).after classes back := by
  induction front generalizing s with
  | nil => rfl
  | cons x front ih => exact ih _

theorem emits_append (classes : CharClasses) (s : LexState) (front back : List Tagged) :
    s.emits classes (front ++ back) =
      s.emits classes front ++ (s.after classes front).emits classes back := by
  induction front generalizing s with
  | nil => rfl
  | cons x front ih => rw [List.cons_append, emits, ih, emits, after, List.append_assoc]

theorem whiteSpace_ne_terminal : whiteSpace ≠ terminal := nofun

variable {classes : CharClasses} {s : LexState} {p : Position} {c : Char}

@[simp] theorem emits_terminal (inputs : List Tagged) : terminal.emits classes inputs = [] := by
  induction inputs with
  | nil => rfl
  | cons x later ih => simpa only [emits, step, List.nil_append] using ih

theorem between_ne_terminal : (between classes ⟨some c, p⟩).1 ≠ terminal := by
  simp only [between]
  repeat' split
  all_goals rintro ⟨⟩

theorem inBody_ne_terminal {start : Position} {text : LiteralText} :
    (inBody start text c).1 ≠ terminal := by
  simp only [inBody]
  repeat' split
  all_goals rintro ⟨⟩

theorem step_ne_terminal (running : s ≠ terminal) :
    (s.step classes ⟨some c, p⟩).1 ≠ terminal := by
  cases s with
  | terminal => exact absurd rfl running
  | whiteSpace => exact between_ne_terminal
  | identifier start value =>
    simp only [step, inIdentifier]
    split
    · rintro ⟨⟩
    · exact between_ne_terminal
  | numeral start n phase =>
    simp only [step, inNumeral]
    split
    · rintro ⟨⟩
    · exact between_ne_terminal
  | string start text phase =>
    simp only [step, inString]
    split
    · exact between_ne_terminal
    · cases phase with
      | main => exact inBody_ne_terminal
      | escape =>
        simp only [inEscape]
        repeat' split
        all_goals rintro ⟨⟩
      | unit code count =>
        simp only [inUnit]
        repeat' split
        · rintro ⟨⟩
        · rintro ⟨⟩
        · exact inBody_ne_terminal

theorem step_end (running : s ≠ terminal) :
    s.step classes ⟨none, p⟩ = (terminal, s.pending ++ [⟨.terminal, p⟩]) := by
  cases s with
  | terminal => exact absurd rfl running
  | whiteSpace | identifier | numeral | string => rfl

end DemandLex.LexState
