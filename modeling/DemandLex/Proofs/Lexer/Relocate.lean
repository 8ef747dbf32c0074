import DemandLex.Proofs.Lexer.Reading

/-! The lexer hands positions on as it finds them: a change of the positions of the input is the
same change of the positions of the tokens. -/

namespace DemandLex

variable (f : Position → Position)

def Tagged.relocate (x : Tagged) : Tagged := { x with position := f x.position }

def Located.relocate (t : Located) : Located := { t with position := f t.position }

namespace LexState

def relocate : LexState → LexState
  | whiteSpace => whiteSpace
  | identifier start value => identifier (f start) value
  | numeral start n phase => numeral (f start) n phase
  | string start text phase => string (f start) text phase
  | terminal => terminal

def relocateStep (step : LexStep) : LexStep := (step.1.relocate f, step.2.map (Located.relocate f))

variable (classes : CharClasses) (start : Position) (x : Tagged) (c : Char) (text : LiteralText)

theorem between_relocate :
    between classes (x.relocate f) = relocateStep f (between classes x) := by
  obtain ⟨char, p⟩ := x
  cases char with
  | none => rfl
  | some c =>
    simp only [between, Tagged.relocate]
    repeat' split
    all_goals rfl

theorem finish_relocate (token : Token) :
    finish classes token (f start) (x.relocate f) =
      relocateStep f (finish classes token start x) := by
  simp only [finish, between_relocate]
  rfl

theorem inBody_relocate : inBody (f start) text c = relocateStep f (inBody start text c) := by
  simp only [inBody]
  repeat' split
  all_goals rfl

theorem inEscape_relocate :
    inEscape (f start) text c = relocateStep f (inEscape start text c) := by
  simp only [inEscape]
  repeat' split
  all_goals rfl

theorem inUnit_relocate (code count : Nat) :
    inUnit classes (f start) text code count c =
      relocateStep f (inUnit classes start text code count c) := by
  simp only [inUnit]
  repeat' split
  · rfl
  · rfl
  · exact inBody_relocate ..

theorem step_relocate (s : LexState) :
    (s.relocate f).step classes (x.relocate f) = relocateStep f (s.step classes x) := by
  have char : (x.relocate f).char = x.char := rfl
  cases s with
  | whiteSpace => exact between_relocate ..
  | terminal => rfl
  | identifier start value =>
    simp only [relocate, step, inIdentifier, char]
    cases x.char.filter classes.idContinue.contains with
    | none => exact finish_relocate ..
    | some c => rfl
  | numeral start n phase =>
    simp only [relocate, step, inNumeral, char]
    cases x.char.bind (continueNumeral classes phase) with
    | none => exact finish_relocate ..
    | some next => rfl
  | string start text phase =>
    simp only [relocate, step, inString, char]
    cases x.char.filter (· != '\n') with
    | none => exact finish_relocate ..
    | some c =>
      cases phase with
      | main => exact inBody_relocate ..
      | escape => exact inEscape_relocate ..
      | unit code count => exact inUnit_relocate ..

theorem emits_relocate (s : LexState) (inputs : List Tagged) :
    (s.relocate f).emits classes (inputs.map (Tagged.relocate f)) =
      (s.emits classes inputs).map (Located.relocate f) := by
  induction inputs generalizing s with
  | nil => rfl
  | cons x later ih =>
    rw [List.map_cons, emits, emits, step_relocate, List.map_append]
    exact congrArg _ (ih _)

end LexState

end DemandLex
