import DemandLex.Proofs.Decimal.NumeralText
import DemandLex.Proofs.Lexer.Invariant

/-! The lexer with every operation on numbers of fixed width checked. In the states that the lexer
comes to no result leaves its range, nothing is replaced that is not replaced for its own sake, and
every numeral is read. -/

namespace DemandLex

def fits? (bits n : Nat) : Option Nat := if n < 2 ^ bits then some n else none

def minus? (n m : Nat) : Option Nat := if m ≤ n then some (n - m) else none

theorem fits?_eq_some {bits n : Nat} (small : n < 2 ^ bits) : fits? bits n = some n := if_pos small

theorem minus?_bind {α : Type} {n m : Nat} (le : m ≤ n) (f : Nat → Option α) :
    (minus? n m >>= f) = f (n - m) := by
  rw [minus?, if_pos le]
  rfl

namespace LiteralText

/-- The character of the two halves of a code point, without what marks them as halves. -/
def joined? (first second : Nat) : Option Char := do
  let sum ← fits? 32 (0x10000 + (← fits? 32 (first * 1024)))
  char? (← fits? 32 (sum + second))

/-- The character of a surrogate pair. There is none where a difference is negative, a number takes
more than 32 bits or no character has the code point. -/
def pair? (high low : Nat) : Option Char := do
  let first ← minus? high 0xD800
  let second ← minus? low 0xDC00
  joined? first second

def pushUnit? (t : LiteralText) (unit : Nat) : Option LiteralText :=
  match t.highSurrogate with
  | some high =>
    if isLow unit then (pair? high unit).map fun c => ⟨t.value.push c, none⟩
    else some (t.pushUnit unit)
  | none => some (t.pushUnit unit)

variable {t : LiteralText} {high low unit : Nat}

theorem char?_eq_some {n : Nat} (valid : n.isValidChar) :
    char? n = some ((char? n).getD replacement) := by
  rw [char?, dif_pos valid, Option.getD_some]

theorem joined?_eq {first second : Nat} (small : first < 1024) (small' : second < 1024) :
    joined? first second = char? (0x10000 + first * 1024 + second) := by
  have top : first * 1024 < 2 ^ 32 := by omega
  have sum : 0x10000 + first * 1024 < 2 ^ 32 := by omega
  have all : 0x10000 + first * 1024 + second < 2 ^ 32 := by omega
  simp only [joined?, fits?_eq_some top, fits?_eq_some sum, fits?_eq_some all, Option.bind_eq_bind,
    Option.bind_some]

theorem pair?_eq_some (first : isHigh high = true) (second : isLow low = true) :
    pair? high low = some (pair high low) := by
  have character : char? (0x10000 + (high - 0xD800) * 1024 + (low - 0xDC00)) =
      some (pair high low) := char?_eq_some (isValidChar_pair first second)
  simp only [isHigh, isLow, Bool.and_eq_true, decide_eq_true_eq] at first second
  have top : high - 0xD800 < 1024 :=
    Nat.sub_lt_left_of_lt_add first.1 (Nat.lt_succ_of_le first.2)
  have bottom : low - 0xDC00 < 1024 :=
    Nat.sub_lt_left_of_lt_add second.1 (Nat.lt_succ_of_le second.2)
  rw [pair?, minus?_bind first.1, minus?_bind second.1, joined?_eq top bottom, character]

theorem pushUnit?_eq_some (waits : t.Waits) : t.pushUnit? unit = some (t.pushUnit unit) := by
  obtain ⟨value, _ | high⟩ := t
  · rfl
  · simp only [pushUnit?]
    split
    · next low => rw [pair?_eq_some (waits high rfl) low, pushUnit, low]; rfl
    · rfl

end LiteralText

def Numeral.value? (n : Numeral) : Option Binary64 :=
  if n.digits.isEmpty ∨ (n.whole ≤ 2 * Binary64.leadingBit ∧ n.power.natAbs ≤ 22) then some n.value
  else Decimal.read? n.text

theorem Numeral.value?_eq_some {n : Numeral} (sound : n.Sound) : n.value? = some n.value := by
  rw [value?]
  split
  · rfl
  · next slow =>
    rw [not_or] at slow
    obtain ⟨full, large⟩ := slow
    rw [read?_text (by simpa using full) sound.digits, value, valueBy, if_neg full, if_neg large]

namespace LexState

/-- A character among the digits of a unit. The code takes no more than 16 bits and the count of the
digits no more than eight. -/
def inUnit? (classes : CharClasses) (start : Position) (text : LiteralText) (code count : Nat)
    (c : Char) : Option LexStep :=
  match hexDigit? classes c with
  | some d => do
    let code ← fits? 16 ((← fits? 16 (code * 16)) + d)
    if count = 3 then return (string start (← text.pushUnit? code) .main, [])
    else return (string start text (.unit code (← fits? 8 (count + 1))), [])
  | none => some (inBody start (text.append "\\u") c)

/-- A step, if all its operations stay in their ranges and the numeral that it ends has a value. -/
def step? (classes : CharClasses) (s : LexState) (x : Tagged) : Option LexStep :=
  match s with
  | numeral start n phase =>
    match x.char.bind (continueNumeral classes phase) with
    | some (change, phase) => some (numeral start (change n) phase, [])
    | none => n.value?.map fun value => finish classes (.number value) start x
  | string start text (.unit code count) =>
    match x.char.filter (· != '\n') with
    | some c => inUnit? classes start text code count c
    | none => some (s.step classes x)
  | _ => some (s.step classes x)

variable {classes : CharClasses} {s : LexState} {start : Position} {text : LiteralText}

theorem inUnit?_eq_some {code count : Nat} (waits : text.Waits)
    (sound : (StringPhase.unit code count).Sound) (c : Char) :
    inUnit? classes start text code count c = some (inUnit classes start text code count c) := by
  obtain ⟨few, below⟩ := sound
  cases digit : hexDigit? classes c with
  | none => simp only [inUnit?, inUnit, digit]
  | some d =>
    have next : code * 16 + d < 16 ^ (count + 1) := code_lt below (hexDigit?_lt digit)
    have four : 16 ^ (count + 1) ≤ 16 ^ 4 := Nat.pow_le_pow_right (by decide) (by omega)
    have shifted : fits? 16 (code * 16) = some (code * 16) := fits?_eq_some (by omega)
    have whole : fits? 16 (code * 16 + d) = some (code * 16 + d) := fits?_eq_some (by omega)
    have counted : fits? 8 (count + 1) = some (count + 1) := fits?_eq_some (by omega)
    simp only [inUnit?, inUnit, digit, shifted, whole, counted, Option.bind_eq_bind,
      Option.bind_some, LiteralText.pushUnit?_eq_some waits]
    split <;> rfl

theorem step?_eq_some (sound : s.Sound) (x : Tagged) :
    s.step? classes x = some (s.step classes x) := by
  cases s with
  | whiteSpace | identifier | terminal => rfl
  | numeral start n phase =>
    simp only [step?, step, inNumeral, Numeral.value?_eq_some sound]
    cases x.char.bind (continueNumeral classes phase) <;> rfl
  | string start text phase =>
    obtain ⟨waits, sound⟩ := sound
    cases phase with
    | main | escape => rfl
    | unit code count =>
      simp only [step?, step, inString]
      split
      · next inside => rw [inside]; exact inUnit?_eq_some waits sound _
      · next ended => rw [ended]

/-- Whatever the character classes are and whatever tagged characters have been read from white
space on: an identifier is not empty, the digits of a numeral are decimal digits with no zero in
front, a unit has at most three digits and a code that fits them, and nothing but a high surrogate
waits. No operation of the next step leaves its range, no pair is without its character, and the
text of every numeral that it ends is read. -/
theorem sound_reached (classes : CharClasses) (inputs : List Tagged) (x : Tagged) :
    let s := whiteSpace.after classes inputs
    s.Sound ∧ s.step? classes x = some (s.step classes x) := by
  intro s
  have sound : s.Sound := sound_after (s := whiteSpace) trivial inputs
  exact ⟨sound, step?_eq_some sound x⟩

end LexState

end DemandLex
