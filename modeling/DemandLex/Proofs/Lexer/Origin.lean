import DemandLex.Proofs.Lexer.Pending
import Mathlib.Data.List.Forall2

/-! Every token but the terminal stands at a character of its own and begins with it, whatever the
character classes are. -/

namespace DemandLex

open LexState

namespace Token

def BeginsWith (c : Char) : Token → Prop
  | terminal => False
  | unknownCharacter d => d = c
  | identifier value => value.toList.head? = some c
  | number _ => Decimal.isDigit c = true
  | symbol s => s.toChar = c
  | string _ => c = '"'

end Token

def Located.StartsAt (t : Located) (x : Tagged) : Prop :=
  t.position = x.position ∧ ∃ c, x.char = some c ∧ t.token.BeginsWith c

namespace LexState

variable {classes : CharClasses} {s : LexState} {p : Position} {c : Char} {x : Tagged}

theorem beginsWith_single : (single c).BeginsWith c := by
  rw [single]
  cases found : Symbol.ofChar? c with
  | none => rfl
  | some s => exact Symbol.toChar_of_ofChar? found

/-- The tokens that a step hands out, and the one that it leaves pending. -/
def owed (step : LexStep) : List Located := step.2 ++ step.1.pending

theorem isDigit_of_decimalDigit? {d : Nat} (digit : decimalDigit? classes c = some d) :
    Decimal.isDigit c = true := by
  rw [decimalDigit?] at digit
  split at digit
  · next both => exact (Bool.and_eq_true_iff.mp both).2
  · cases digit

theorem between_cases (classes : CharClasses) (p : Position) (c : Char) :
    owed (between classes ⟨some c, p⟩) = [] ∨
      ∃ t, owed (between classes ⟨some c, p⟩) = [t] ∧ t.StartsAt ⟨some c, p⟩ := by
  simp only [between]
  split
  · exact Or.inl rfl
  · split
    · refine Or.inr ⟨_, rfl, rfl, c, rfl, ?_⟩
      simp [Token.BeginsWith]
    · split
      · next digit => exact Or.inr ⟨_, rfl, rfl, c, rfl, isDigit_of_decimalDigit? digit⟩
      · split
        · next quote => exact Or.inr ⟨_, rfl, rfl, c, rfl, quote⟩
        · exact Or.inr ⟨_, rfl, rfl, c, rfl, beginsWith_single⟩

section String
variable {start : Position} {text : LiteralText}

theorem owed_inBody : ∃ value, owed (inBody start text c) = [⟨.string value, start⟩] := by
  simp only [inBody]
  repeat' split
  all_goals exact ⟨_, rfl⟩

theorem owed_inEscape : ∃ value, owed (inEscape start text c) = [⟨.string value, start⟩] := by
  simp only [inEscape]
  repeat' split
  all_goals exact ⟨_, rfl⟩

theorem owed_inUnit {code count : Nat} :
    ∃ value, owed (inUnit classes start text code count c) = [⟨.string value, start⟩] := by
  simp only [inUnit]
  repeat' split
  · exact ⟨_, rfl⟩
  · exact ⟨_, rfl⟩
  · exact owed_inBody

theorem string_cases (classes : CharClasses) (start p : Position) (text : LiteralText)
    (phase : StringPhase) (c : Char) :
    (∃ value,
      owed ((string start text phase).step classes ⟨some c, p⟩) = [⟨.string value, start⟩]) ∨
      (string start text phase).step classes ⟨some c, p⟩ =
        finish classes (.string (cutText text phase).finish) start ⟨some c, p⟩ := by
  by_cases feed : c = '\n'
  · right
    simp [step, inString, Option.filter, feed]
  · left
    have inside : (some c).filter (· != '\n') = some c := by simp [Option.filter, feed]
    simp only [step, inString, inside]
    cases phase with
    | main => exact owed_inBody
    | escape => exact owed_inEscape
    | unit code count => exact owed_inUnit

end String

/-- The token goes on: wherever the one stands, the other stands as well. -/
def GoesOn (t t' : Located) : Prop := ∀ x, t.StartsAt x → t'.StartsAt x

theorem goesOn_identifier {start : Position} {value : String} :
    GoesOn ⟨.identifier value, start⟩ ⟨.identifier (value.push c), start⟩ := by
  rintro x ⟨position, d, char, first⟩
  refine ⟨position, d, char, ?_⟩
  simp only [Token.BeginsWith] at first ⊢
  rw [String.toList_push, List.head?_append, first]
  rfl

theorem goesOn_number {start : Position} (x y : Binary64) :
    GoesOn ⟨.number x, start⟩ ⟨.number y, start⟩ := fun _ stands => stands

theorem goesOn_string {start : Position} (x y : String) :
    GoesOn ⟨.string x, start⟩ ⟨.string y, start⟩ := fun _ stands => stands

theorem finish_cases (classes : CharClasses) (token : Token) (start p : Position) (c : Char) :
    owed (finish classes token start ⟨some c, p⟩) = [⟨token, start⟩] ∨
      ∃ t, owed (finish classes token start ⟨some c, p⟩) = [⟨token, start⟩] ++ [t] ∧
        t.StartsAt ⟨some c, p⟩ := by
  have front : owed (finish classes token start ⟨some c, p⟩) =
      ⟨token, start⟩ :: owed (between classes ⟨some c, p⟩) := rfl
  rw [front]
  rcases between_cases classes p c with skipped | ⟨t, begun, stands⟩
  · exact Or.inl (by rw [skipped])
  · exact Or.inr ⟨t, by rw [begun]; rfl, stands⟩

/-- What a character can do: the pending token goes on, or what is pending is handed out as it is,
and then the character is skipped or a token begins with it. -/
theorem step_cases (running : s ≠ terminal) (classes : CharClasses) (p : Position) (c : Char) :
    (∃ t t', s.pending = [t] ∧ owed (s.step classes ⟨some c, p⟩) = [t'] ∧ GoesOn t t') ∨
      owed (s.step classes ⟨some c, p⟩) = s.pending ∨
      ∃ t, owed (s.step classes ⟨some c, p⟩) = s.pending ++ [t] ∧ t.StartsAt ⟨some c, p⟩ := by
  cases s with
  | terminal => exact absurd rfl running
  | whiteSpace => exact Or.inr (between_cases classes p c)
  | identifier start value =>
    simp only [step, inIdentifier]
    split
    · exact Or.inl ⟨_, _, rfl, rfl, goesOn_identifier⟩
    · exact Or.inr (finish_cases ..)
  | numeral start n phase =>
    simp only [step, inNumeral]
    split
    · exact Or.inl ⟨_, _, rfl, rfl, goesOn_number _ _⟩
    · exact Or.inr (finish_cases ..)
  | string start text phase =>
    rcases string_cases classes start p text phase c with ⟨value, goesOn⟩ | cut
    · exact Or.inl ⟨_, _, rfl, goesOn, goesOn_string _ _⟩
    · rw [cut]
      exact Or.inr (finish_cases ..)

abbrev Stand (tokens : List Located) (inputs : List Tagged) : Prop :=
  List.SublistForall₂ Located.StartsAt tokens inputs

section Stand
variable {tokens : List Located} {t t' : Located} {inputs : List Tagged}

theorem Stand.later (stand : Stand tokens inputs) : Stand tokens (inputs ++ [x]) := by
  obtain ⟨heads, starts, inside⟩ := List.sublistForall₂_iff.mp stand
  exact List.sublistForall₂_iff.mpr ⟨heads, starts, inside.trans (List.sublist_append_left _ _)⟩

theorem Stand.concat (stand : Stand tokens inputs) (starts : t.StartsAt x) :
    Stand (tokens ++ [t]) (inputs ++ [x]) := by
  obtain ⟨heads, all, inside⟩ := List.sublistForall₂_iff.mp stand
  exact List.sublistForall₂_iff.mpr
    ⟨heads ++ [x], List.rel_append all (.cons starts .nil), inside.append (.refl _)⟩

theorem Stand.goesOn (stand : Stand (tokens ++ [t]) inputs) (goesOn : GoesOn t t') :
    Stand (tokens ++ [t']) inputs := by
  generalize all : tokens ++ [t] = ts at stand
  induction stand generalizing tokens with
  | nil => cases List.append_ne_nil_of_right_ne_nil tokens (List.cons_ne_nil t []) all
  | cons starts later ih =>
    cases tokens with
    | nil =>
      cases all
      exact .cons (goesOn _ starts) .nil
    | cons first tokens =>
      cases all
      exact .cons starts (ih rfl)
  | cons_right later ih => exact .cons_right (ih all)

theorem Stand.positions (stand : Stand tokens inputs) :
    (tokens.map Located.position).Sublist (inputs.map Tagged.position) := by
  induction stand with
  | nil => exact List.nil_sublist _
  | cons starts later ih =>
    rw [List.map_cons, List.map_cons, starts.1]
    exact ih.cons_cons _
  | cons_right later ih => exact ih.cons _

theorem Stand.not_terminal (stand : Stand tokens inputs) : ∀ t ∈ tokens, t.token ≠ .terminal := by
  induction stand with
  | nil => exact nofun
  | cons starts later ih =>
    obtain ⟨-, c, -, begins⟩ := starts
    refine List.forall_mem_cons.mpr ⟨?_, ih⟩
    intro terminal
    simp only [terminal, Token.BeginsWith] at begins
  | cons_right later ih => exact ih

end Stand

theorem stand_step {emitted : List Located} {seen : List Tagged} (running : s ≠ terminal)
    (stand : Stand (emitted ++ s.pending) seen) :
    Stand (emitted ++ owed (s.step classes ⟨some c, p⟩)) (seen ++ [⟨some c, p⟩]) := by
  rcases step_cases running classes p c with
    ⟨t, t', open', owed', goesOn⟩ | same | ⟨t, owed', starts⟩
  · rw [open'] at stand
    rw [owed']
    exact (stand.goesOn goesOn).later
  · rw [same]
    exact stand.later
  · rw [owed', ← List.append_assoc]
    exact stand.concat starts

theorem stand_emits {emitted : List Located} {seen inputs : List Tagged} (running : s ≠ terminal)
    (characters : ∀ x ∈ inputs, x.char ≠ none) (stand : Stand (emitted ++ s.pending) seen) :
    Stand (emitted ++ (s.emits classes inputs ++ (s.after classes inputs).pending))
      (seen ++ inputs) := by
  induction inputs generalizing s emitted seen with
  | nil => simpa [emits, after] using stand
  | cons x later ih =>
    obtain ⟨char, p⟩ := x
    obtain ⟨c, rfl⟩ := Option.ne_none_iff_exists'.mp (characters _ List.mem_cons_self)
    have here : Stand (emitted ++ owed (s.step classes ⟨some c, p⟩)) (seen ++ [⟨some c, p⟩]) :=
      stand_step running stand
    rw [owed, ← List.append_assoc] at here
    have rest := ih (step_ne_terminal running)
      (fun y member => characters y (List.mem_cons_of_mem _ member)) here
    simpa [emits, after] using rest

end LexState

end DemandLex
