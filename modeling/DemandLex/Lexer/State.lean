import DemandLex.CharSet
import DemandLex.Numeral
import DemandLex.Text.Literal
import DemandLex.Token

/-! The lexer as a machine that reads one character at a time. -/

namespace DemandLex

inductive NumeralPhase where
  | beforeDot
  | afterDot
  | afterExponent
  | afterExponentSign
  deriving DecidableEq, Repr

inductive StringPhase where
  | main
  | escape
  /-- After `count` hexadecimal digits of a unit, which make `code`. -/
  | unit (code count : Nat)
  deriving DecidableEq, Repr

/-- What the lexer has read of the token it is in. -/
inductive LexState where
  | whiteSpace
  | identifier (start : Position) (value : String)
  | numeral (start : Position) (numeral : Numeral) (phase : NumeralPhase)
  | string (start : Position) (text : LiteralText) (phase : StringPhase)
  | terminal
  deriving DecidableEq, Repr

/-- The state after a character, and the tokens that the character completed. -/
abbrev LexStep := LexState × List Located

namespace LexState

def decimalDigit? (classes : CharClasses) (c : Char) : Option Nat :=
  if classes.digit.contains c && Decimal.isDigit c then some (Decimal.digitValue c) else none

def hexValue? (c : Char) : Option Nat :=
  if Decimal.isDigit c then some (Decimal.digitValue c)
  else if 'a' ≤ c ∧ c ≤ 'f' then some (c.toNat - 'a'.toNat + 10)
  else if 'A' ≤ c ∧ c ≤ 'F' then some (c.toNat - 'A'.toNat + 10)
  else none

theorem hexValue?_eq_some_iff {c : Char} {d : Nat} :
    hexValue? c = some d ↔ d < 16 ∧ (c = Nat.digitChar d ∨ c = (Nat.digitChar d).toUpper) := by
  constructor
  · intro found
    have small : c.toNat < 128 := by
      refine Nat.lt_of_not_le fun large => ?_
      have above (e : Char) (bound : e.toNat < 128) : ¬ c ≤ e := by
        rw [Char.le_def, UInt32.le_iff_toNat_le, Char.toNat_val, Char.toNat_val]
        omega
      simp [hexValue?, Decimal.isDigit, above '9', above 'f', above 'F'] at found
    have all : ∀ n < 128, ∀ d ∈ hexValue? (Char.ofNat n), d < 16 ∧
        (Char.ofNat n = Nat.digitChar d ∨ Char.ofNat n = (Nat.digitChar d).toUpper) := by
      decide +kernel
    have here := all c.toNat small d
    rw [Char.ofNat_toNat] at here
    exact here found
  · rintro ⟨bound, same⟩
    have all : ∀ d < 16, hexValue? (Nat.digitChar d) = some d ∧
        hexValue? (Nat.digitChar d).toUpper = some d := by
      decide +kernel
    obtain ⟨lower, upper⟩ := all d bound
    rcases same with rfl | rfl
    · exact lower
    · exact upper
theorem hexValue?_lt {c : Char} {d : Nat} (found : hexValue? c = some d) : d < 16 :=
  (hexValue?_eq_some_iff.mp found).1

def hexDigit? (classes : CharClasses) (c : Char) : Option Nat :=
  if classes.hexDigit.contains c then hexValue? c else none

def single (c : Char) : Token :=
  match Symbol.ofChar? c with
  | some s => .symbol s
  | none => .unknownCharacter c

def between (classes : CharClasses) (input : Tagged) : LexStep :=
  match input.char with
  | none => (terminal, [⟨.terminal, input.position⟩])
  | some c =>
    if classes.whiteSpace.contains c then (whiteSpace, [])
    else if classes.idStart.contains c then (identifier input.position c.toString, [])
    else match decimalDigit? classes c with
      | some d => (numeral input.position (.ofDigit d) .beforeDot, [])
      | none =>
        if c = '"' then (string input.position .empty .main, [])
        else (whiteSpace, [⟨single c, input.position⟩])

/-- Hands out a token and reads the character that ended it as if no token had come before. -/
def finish (classes : CharClasses) (token : Token) (start : Position) (input : Tagged) : LexStep :=
  let (next, tokens) := between classes input
  (next, ⟨token, start⟩ :: tokens)

def inIdentifier (classes : CharClasses) (start : Position) (value : String) (input : Tagged) :
    LexStep :=
  match input.char.filter classes.idContinue.contains with
  | some c => (identifier start (value.push c), [])
  | none => finish classes (.identifier value) start input

/-- How a numeral goes on with a character, if it does: what the character makes of the numeral, and
the phase after it. -/
def continueNumeral (classes : CharClasses) (phase : NumeralPhase) (c : Char) :
    Option ((Numeral → Numeral) × NumeralPhase) :=
  match phase, decimalDigit? classes c with
  | .beforeDot, some d => some ((·.integerDigit d), .beforeDot)
  | .afterDot, some d => some ((·.fractionDigit d), .afterDot)
  | _, some d => some ((·.exponentDigit d), .afterExponentSign)
  | .beforeDot, none =>
    if c = '.' then some (id, .afterDot)
    else if classes.exponent.contains c then some (id, .afterExponent)
    else none
  | .afterDot, none => if classes.exponent.contains c then some (id, .afterExponent) else none
  | .afterExponent, none =>
    if c = '-' then some (Numeral.negateExponent, .afterExponentSign)
    else if c = '+' then some (id, .afterExponentSign)
    else none
  | .afterExponentSign, none => none

def inNumeral (classes : CharClasses) (start : Position) (n : Numeral) (phase : NumeralPhase)
    (input : Tagged) : LexStep :=
  match input.char.bind (continueNumeral classes phase) with
  | some (change, phase) => (numeral start (change n) phase, [])
  | none => finish classes (.number n.value) start input

def cutText (text : LiteralText) : StringPhase → LiteralText
  | .main => text
  | .escape => text.push '\\'
  | .unit _ _ => text.append "\\u"

def inBody (start : Position) (text : LiteralText) (c : Char) : LexStep :=
  if c = '"' then (whiteSpace, [⟨.string text.finish, start⟩])
  else if c = '\\' then (string start text .escape, [])
  else (string start (text.push c) .main, [])

def escaped? : Char → Option Char
  | '"' => some '"'
  | '\\' => some '\\'
  | '/' => some '/'
  | 'b' => some '\x08'
  | 'f' => some '\x0c'
  | 'n' => some '\n'
  | 'r' => some '\x0d'
  | 't' => some '\t'
  | _ => none

def inEscape (start : Position) (text : LiteralText) (c : Char) : LexStep :=
  if c = 'u' then (string start text (.unit 0 0), [])
  else match escaped? c with
    | some d => (string start (text.push d) .main, [])
    | none => (string start ((text.push '\\').push c) .main, [])

/-- A character among the hexadecimal digits of a unit. Any other character is read again as part of
the body, and the digits before it are dropped. -/
def inUnit (classes : CharClasses) (start : Position) (text : LiteralText) (code count : Nat)
    (c : Char) : LexStep :=
  match hexDigit? classes c with
  | some d =>
    if count = 3 then (string start (text.pushUnit (code * 16 + d)) .main, [])
    else (string start text (.unit (code * 16 + d) (count + 1)), [])
  | none => inBody start (text.append "\\u") c

/-- A line feed and the end of the input cut a literal short and are read again behind it. -/
def inString (classes : CharClasses) (start : Position) (text : LiteralText) (phase : StringPhase)
    (input : Tagged) : LexStep :=
  match input.char.filter (· != '\n') with
  | none => finish classes (.string (cutText text phase).finish) start input
  | some c =>
    match phase with
    | .main => inBody start text c
    | .escape => inEscape start text c
    | .unit code count => inUnit classes start text code count c

def step (classes : CharClasses) : LexState → Tagged → LexStep
  | whiteSpace, input => between classes input
  | identifier start value, input => inIdentifier classes start value input
  | numeral start n phase, input => inNumeral classes start n phase input
  | string start text phase, input => inString classes start text phase input
  | terminal, _ => (terminal, [])

end LexState

end DemandLex
