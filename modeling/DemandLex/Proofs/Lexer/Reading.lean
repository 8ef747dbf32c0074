import DemandLex.Lexer.Tokens
import DemandLex.Proofs.Lexer.Classes

/-! What the lexer hands out from a state on, one character at a time. -/

namespace DemandLex

open Grammar

namespace Tagged

def placed (p : Position) : List Char → List Tagged
  | [] => []
  | c :: rest => ⟨some c, p⟩ :: placed (p.advance c) rest

theorem ofChars_eq (p : Position) (chars : List Char) :
    ofChars p chars = placed p chars ++ [⟨none, chars.foldl Position.advance p⟩] := by
  induction chars generalizing p with
  | nil => rfl
  | cons c rest ih => rw [ofChars, ih, placed, List.foldl_cons, List.cons_append]

theorem placed_append (p : Position) (front back : List Char) :
    placed p (front ++ back) = placed p front ++ placed (front.foldl Position.advance p) back := by
  induction front generalizing p with
  | nil => rfl
  | cons c front ih => rw [List.cons_append, placed, ih, placed, List.foldl_cons, List.cons_append]

theorem length_placed (p : Position) (chars : List Char) :
    (placed p chars).length = chars.length := by
  induction chars generalizing p with
  | nil => rfl
  | cons c rest ih => rw [placed, List.length_cons, ih, List.length_cons]

theorem map_char_placed (p : Position) (chars : List Char) :
    (placed p chars).map char = chars.map some := by
  induction chars generalizing p with
  | nil => rfl
  | cons c rest ih => exact congrArg (some c :: ·) (ih (p.advance c))

theorem ofChars_append (p : Position) (front back : List Char) :
    ofChars p (front ++ back) =
      placed p front ++ ofChars (front.foldl Position.advance p) back := by
  rw [ofChars_eq, ofChars_eq, placed_append, List.append_assoc, List.foldl_append]

end Tagged

namespace LexState

def emits (classes : CharClasses) : LexState → List Tagged → List Located
  | _, [] => []
  | s, x :: later => (s.step classes x).2 ++ emits classes (s.step classes x).1 later

theorem toList_run (classes : CharClasses) (s : LexState) (inputs : List Tagged) :
    (s.run classes inputs).2.toList = s.emits classes inputs := by
  suffices ∀ (sofar : LexState × Array Located),
      (inputs.foldl (feed classes) sofar).2.toList = sofar.2.toList ++ sofar.1.emits classes inputs by
    simpa [run] using this (s, #[])
  induction inputs with
  | nil => simp [emits]
  | cons x later ih =>
    intro sofar
    rw [List.foldl_cons, ih]
    simp [feed, emits]

/-- The tokens from a state on, of characters from a position on and of the end behind them. -/
def tokensFrom (s : LexState) (p : Position) (chars : List Char) : List Located :=
  s.emits .standard (Tagged.ofChars p chars)

theorem tokenize_eq (source : String) :
    tokenize source = whiteSpace.tokensFrom .start source.toList := toList_run ..

section Step
variable {s next : LexState} {p start : Position} {c : Char} {chars rest : List Char} {token : Token}
  {tokens : List Located}

theorem tokensFrom_cons (step : s.step .standard ⟨some c, p⟩ = (next, tokens)) :
    s.tokensFrom p (c :: rest) = tokens ++ next.tokensFrom (p.advance c) rest := by
  rw [tokensFrom, Tagged.ofChars, emits, step]
  rfl

theorem tokensFrom_moves (step : s.step .standard ⟨some c, p⟩ = (next, [])) :
    s.tokensFrom p (c :: rest) = next.tokensFrom (p.advance c) rest := tokensFrom_cons step

theorem tokensFrom_congr {t : LexState}
    (same : s.step .standard ⟨chars.head?, p⟩ = t.step .standard ⟨chars.head?, p⟩) :
    s.tokensFrom p chars = t.tokensFrom p chars := by
  cases chars with
  | nil =>
    have ended : (s.step .standard ⟨none, p⟩).2 = (t.step .standard ⟨none, p⟩).2 :=
      congrArg Prod.snd same
    simp only [tokensFrom, Tagged.ofChars, emits, ended]
  | cons c rest => exact (tokensFrom_cons same).trans (tokensFrom_cons rfl).symm

/-- Where a token is finished by what comes next, the rest is read as if nothing came before. -/
theorem tokensFrom_finish
    (step : s.step .standard ⟨chars.head?, p⟩ = finish .standard token start ⟨chars.head?, p⟩) :
    s.tokensFrom p chars = ⟨token, start⟩ :: whiteSpace.tokensFrom p chars := by
  cases chars with
  | nil =>
    have ended : (s.step .standard ⟨none, p⟩).2 =
        (finish .standard token start ⟨none, p⟩).2 := congrArg Prod.snd step
    simp only [tokensFrom, Tagged.ofChars, emits, List.append_nil, ended]
    rfl
  | cons c rest =>
    have next : s.step .standard ⟨some c, p⟩ = finish .standard token start ⟨some c, p⟩ := step
    simp only [tokensFrom, Tagged.ofChars, emits, next]
    rfl

end Step

section Between
variable {p start : Position} {c : Char} {rest : List Char}

theorem tokensFrom_blank (blank : isBlank c = true) :
    whiteSpace.tokensFrom p (c :: rest) = whiteSpace.tokensFrom (p.advance c) rest :=
  tokensFrom_moves (by simp [step, between, blank])

theorem isBlank_of_startsIdentifier (first : startsIdentifier c = true) : isBlank c = false := by
  rw [Bool.eq_false_iff]
  intro blank
  simp only [isBlank, Bool.or_eq_true, beq_iff_eq, or_assoc] at blank
  rcases blank with rfl | rfl | rfl | rfl <;> exact absurd first (by decide)

theorem startsIdentifier_of_isDigit (digit : Decimal.isDigit c = true) :
    startsIdentifier c = false := by
  rw [Bool.eq_false_iff]
  intro first
  simp only [startsIdentifier, isLetter, Bool.or_eq_true, beq_iff_eq, decide_eq_true_eq, or_assoc]
    at first
  rcases first with rfl | rfl | upper | lower
  · exact absurd digit (by decide)
  · exact absurd digit (by decide)
  · have small := (Decimal.isDigit_iff.mp digit).2
    have large : 65 ≤ c.toNat := UInt32.le_iff_toNat_le.mp upper.1
    omega
  · have small := (Decimal.isDigit_iff.mp digit).2
    have large : 97 ≤ c.toNat := UInt32.le_iff_toNat_le.mp lower.1
    omega

theorem isBlank_of_isDigit (digit : Decimal.isDigit c = true) : isBlank c = false := by
  rw [Bool.eq_false_iff]
  intro blank
  simp only [isBlank, Bool.or_eq_true, beq_iff_eq, or_assoc] at blank
  rcases blank with rfl | rfl | rfl | rfl <;> exact absurd digit (by decide)

theorem step_identifier (first : startsIdentifier c = true) :
    whiteSpace.step .standard ⟨some c, p⟩ = (identifier p c.toString, []) := by
  simp [step, between, first, isBlank_of_startsIdentifier first]

theorem step_digit (digit : Decimal.isDigit c = true) :
    whiteSpace.step .standard ⟨some c, p⟩ =
      (numeral p (.ofDigit (Decimal.digitValue c)) .beforeDot, []) := by
  simp [step, between, digit, isBlank_of_isDigit digit, startsIdentifier_of_isDigit digit]

theorem step_quote :
    whiteSpace.step .standard ⟨some '"', p⟩ = (string p .empty .main, []) := by
  have blank : isBlank '"' = false := by decide
  have first : startsIdentifier '"' = false := by decide
  have digit : Decimal.isDigit '"' = false := by decide
  simp [step, between, blank, first, digit]

theorem step_single (blank : isBlank c = false) (first : startsIdentifier c = false)
    (digit : Decimal.isDigit c = false) (quote : c ≠ '"') :
    whiteSpace.step .standard ⟨some c, p⟩ = (whiteSpace, [⟨single c, p⟩]) := by
  simp [step, between, blank, first, digit, quote]

end Between

section Identifier
variable {p start : Position} {value : String} {later rest : List Char}

theorem tokensFrom_identifier (continues : ∀ d ∈ later, continuesIdentifier d = true) :
    (identifier start value).tokensFrom p (later ++ rest) =
      (identifier start (value ++ String.ofList later)).tokensFrom (later.foldl Position.advance p)
        rest := by
  induction later generalizing p value with
  | nil => simp
  | cons d later ih =>
    have moves : (identifier start value).step .standard ⟨some d, p⟩ =
        (identifier start (value.push d), []) := by
      simp [step, inIdentifier, Option.filter, continues d List.mem_cons_self]
    have text : value.push d ++ String.ofList later = value ++ String.ofList (d :: later) := by
      rw [← String.toList_inj]
      simp
    rw [List.cons_append, tokensFrom_moves moves,
      ih fun e member => continues e (List.mem_cons_of_mem d member), text, List.foldl_cons]

theorem tokensFrom_identifier_end (stops : ∀ c ∈ rest.head?, continuesIdentifier c = false) :
    (identifier start value).tokensFrom p rest =
      ⟨.identifier value, start⟩ :: whiteSpace.tokensFrom p rest := by
  apply tokensFrom_finish
  have broken : rest.head?.filter CharClasses.standard.idContinue.contains = none := by
    cases rest with
    | nil => rfl
    | cons c rest => simp [Option.filter, stops c rfl]
  simp only [step, inIdentifier, broken]

end Identifier

section Numeral
variable {p start : Position} {n : Numeral} {phase : NumeralPhase} {rest : List Char}

theorem tokensFrom_numeral_end
    (stops : ∀ c ∈ rest.head?, continueNumeral .standard phase c = none) :
    (numeral start n phase).tokensFrom p rest =
      ⟨.number n.value, start⟩ :: whiteSpace.tokensFrom p rest := by
  apply tokensFrom_finish
  have broken : rest.head?.bind (continueNumeral .standard phase) = none := by
    cases rest with
    | nil => rfl
    | cons c rest => exact stops c rfl
  simp only [step, inNumeral, broken]

end Numeral

end LexState

end DemandLex
