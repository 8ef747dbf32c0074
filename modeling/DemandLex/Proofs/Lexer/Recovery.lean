import DemandLex.Proofs.Lexer.Lines
import DemandLex.Proofs.Lexer.Shape

/-! A character that starts no token does no harm to its neighbours: the lexer reads on as if a space
stood there. -/

namespace DemandLex

def errorPositions (tokens : List Located) : List Position :=
  (tokens.filter Located.isError).map Located.position

def blankAt (places : List Position) (p : Position) : List Char → List Char
  | [] => []
  | c :: later => (if p ∈ places then ' ' else c) :: blankAt places (p.advance c) later

/-- The source with a space in place of every character that its tokens report as unknown. -/
def blankErrors (source : String) : String :=
  String.ofList (blankAt (errorPositions (tokenize source)) .start source.toList)

theorem errorPositions_append (front back : List Located) :
    errorPositions (front ++ back) = errorPositions front ++ errorPositions back := by
  simp [errorPositions]

theorem errorPositions_eq_nil {tokens : List Located} (clean : ∀ t ∈ tokens, t.isError = false) :
    errorPositions tokens = [] := by
  simpa [errorPositions] using clean

namespace LexState

variable {s : LexState} {p : Position} {c : Char}

theorem isError_pending : ∀ t ∈ s.pending, t.isError = false := by
  cases s <;> simp [pending, Located.isError, Token.isError]

theorem between_errors (p : Position) (c : Char) :
    (∀ t ∈ (between .standard ⟨some c, p⟩).2, t.isError = false) ∨
      between .standard ⟨some c, p⟩ = (whiteSpace, [⟨.unknownCharacter c, p⟩]) ∧ c ≠ '\n' := by
  by_cases feed : c = '\n'
  · left
    rw [feed, show between .standard ⟨some '\n', p⟩ = (whiteSpace, []) from
      step_feed whiteSpace_ne_terminal]
    simp
  · simp only [between, single]
    repeat' split
    all_goals simp [Located.isError, Token.isError, feed]

theorem between_space : between .standard ⟨some ' ', p⟩ = (whiteSpace, []) := by
  have blank : Grammar.isBlank ' ' = true := by decide
  simp [between, blank]

theorem finish_errors {token : Token} (clean : token.isError = false) (start p : Position)
    (c : Char) :
    (∀ t ∈ (finish .standard token start ⟨some c, p⟩).2, t.isError = false) ∨
      finish .standard token start ⟨some c, p⟩ =
        (whiteSpace, [⟨token, start⟩, ⟨.unknownCharacter c, p⟩]) ∧ c ≠ '\n' := by
  rcases between_errors p c with none | ⟨unknown, feed⟩
  · exact Or.inl (List.forall_mem_cons.mpr ⟨clean, none⟩)
  · right
    rw [finish, unknown]
    exact ⟨rfl, feed⟩

theorem finish_space {token : Token} {start : Position} :
    finish .standard token start ⟨some ' ', p⟩ = (whiteSpace, [⟨token, start⟩]) := by
  rw [finish, between_space]

theorem string_errors (start p : Position) (text : LiteralText) (phase : StringPhase) (c : Char) :
    ∀ t ∈ ((string start text phase).step .standard ⟨some c, p⟩).2, t.isError = false := by
  by_cases feed : c = '\n'
  · have running : string start text phase ≠ terminal := by rintro ⟨⟩
    rw [feed, step_feed running]
    exact isError_pending (s := string start text phase)
  · have inside : (some c).filter (· != '\n') = some c := by simp [Option.filter, feed]
    simp only [step, inString, inside]
    cases phase <;> simp only [inBody, inEscape, inUnit] <;> repeat' split
    all_goals simp [Located.isError, Token.isError]

/-- A step hands out no error, or it hands out what is pending and reports its own character, where
a space would have handed out what is pending. -/
theorem step_errors (running : s ≠ terminal) (p : Position) (c : Char) :
    (∀ t ∈ (s.step .standard ⟨some c, p⟩).2, t.isError = false) ∨
      (s.step .standard ⟨some c, p⟩ = (whiteSpace, s.pending ++ [⟨.unknownCharacter c, p⟩]) ∧
        s.step .standard ⟨some ' ', p⟩ = (whiteSpace, s.pending) ∧ c ≠ '\n') := by
  cases s with
  | terminal => exact absurd rfl running
  | string start text phase => exact Or.inl (string_errors start p text phase c)
  | whiteSpace =>
    rcases between_errors p c with none | ⟨unknown, feed⟩
    · exact Or.inl none
    · exact Or.inr ⟨unknown, between_space, feed⟩
  | identifier start value =>
    have stops : Grammar.continuesIdentifier ' ' = false := by decide
    have space : (identifier start value).step .standard ⟨some ' ', p⟩ =
        finish .standard (.identifier value) start ⟨some ' ', p⟩ := by
      simp [step, inIdentifier, Option.filter, stops]
    rw [space, finish_space]
    simp only [step, inIdentifier]
    split
    · simp
    · have clean : (Token.identifier value).isError = false := rfl
      rcases finish_errors clean start p c with none | ⟨unknown, feed⟩
      · exact Or.inl none
      · exact Or.inr ⟨unknown, rfl, feed⟩
  | numeral start n phase =>
    have stops : continueNumeral .standard phase ' ' = none := by
      have digit : Decimal.isDigit ' ' = false := by decide
      have letter : Grammar.marksExponent ' ' = false := by decide
      cases phase <;> simp [continueNumeral, digit, letter]
    have space : (numeral start n phase).step .standard ⟨some ' ', p⟩ =
        finish .standard (.number n.value) start ⟨some ' ', p⟩ := by
      simp [step, inNumeral, stops]
    rw [space, finish_space]
    simp only [step, inNumeral]
    split
    · simp
    · have clean : (Token.number n.value).isError = false := rfl
      rcases finish_errors clean start p c with none | ⟨unknown, feed⟩
      · exact Or.inl none
      · exact Or.inr ⟨unknown, rfl, feed⟩

theorem errorPositions_unknown :
    errorPositions (s.pending ++ [⟨.unknownCharacter c, p⟩]) = [p] := by
  rw [errorPositions_append, errorPositions_eq_nil isError_pending]
  rfl

theorem errorPositions_step (running : s ≠ terminal) :
    ∀ q ∈ errorPositions (s.step .standard ⟨some c, p⟩).2, q = p := by
  rcases step_errors running p c with none | ⟨unknown, -, -⟩
  · simp [errorPositions_eq_nil none]
  · rw [unknown, errorPositions_unknown]
    simp

theorem errorPositions_behind (running : s ≠ terminal) (chars : List Char) :
    ∀ q ∈ errorPositions (s.tokensFrom p chars), q = p ∨ p.compare q = .lt := by
  induction chars generalizing s p with
  | nil =>
    rw [tokensFrom_nil running, errorPositions_append, errorPositions_eq_nil isError_pending]
    simp [errorPositions, Located.isError, Token.isError]
  | cons c later ih =>
    intro q member
    rw [tokensFrom_step, errorPositions_append] at member
    rcases List.mem_append.mp member with here | behind
    · exact Or.inl (errorPositions_step running q here)
    · right
      rcases ih (step_ne_terminal running) q behind with rfl | after
      · exact p.compare_advance c
      · exact Position.compare_trans (p.compare_advance c) after

theorem filter_clean {tokens : List Located} (clean : ∀ t ∈ tokens, t.isError = false) :
    tokens.filter (!·.isError) = tokens := by
  simpa [List.filter_eq_self] using clean

/-- From any state on, a text with its errors blanked has the tokens that are no errors. -/
theorem tokensFrom_blankAt {places : List Position} (running : s ≠ terminal) (chars : List Char)
    (same : ∀ q, (q = p ∨ p.compare q = .lt) →
      (q ∈ places ↔ q ∈ errorPositions (s.tokensFrom p chars))) :
    s.tokensFrom p (blankAt places p chars) = (s.tokensFrom p chars).filter (!·.isError) := by
  induction chars generalizing s p with
  | nil =>
    rw [blankAt, tokensFrom_nil running, List.filter_append, filter_clean isError_pending]
    rfl
  | cons c later ih =>
    have running' : (s.step .standard ⟨some c, p⟩).1 ≠ terminal := step_ne_terminal running
    have here := errorPositions_step (p := p) (c := c) running
    have behind := errorPositions_behind (p := p.advance c) running' later
    have passed (q : Position) (after : q = p.advance c ∨ (p.advance c).compare q = .lt) :
        p.compare q = .lt := by
      rcases after with rfl | after
      · exact p.compare_advance c
      · exact Position.compare_trans (p.compare_advance c) after
    have apart : p.compare p ≠ .lt := by simp [Position.compare_eq_lt]
    simp only [tokensFrom_step, errorPositions_append, List.mem_append] at same
    have rest := ih running' fun q after => (same q (Or.inr (passed q after))).trans
      (or_iff_right fun member => apart (here q member ▸ passed q after))
    rw [blankAt, tokensFrom_step s p c, List.filter_append]
    rcases step_errors running p c with none | ⟨unknown, space, feed⟩
    · have stays : p ∉ places := by
        rw [same p (Or.inl rfl), errorPositions_eq_nil none]
        simpa using fun member => apart (passed p (behind p member))
      rw [if_neg stays, tokensFrom_step, filter_clean none, rest]
    · have marked : p ∈ places := by
        rw [same p (Or.inl rfl), unknown, errorPositions_unknown]
        simp
      have moved : p.advance ' ' = p.advance c := by simp [Position.advance, feed]
      rw [unknown] at rest ⊢
      rw [if_pos marked, tokensFrom_step, space, moved, rest, List.filter_append,
        filter_clean isError_pending]
      simp [Located.isError, Token.isError]

end LexState

open LexState

/-- With a space for every character that is reported as unknown, the source has the tokens that it
had, with their values and positions, and none of the errors. -/
theorem tokenize_blankErrors (source : String) :
    tokenize (blankErrors source) = (tokenize source).filter (!·.isError) ∧
      ∀ t ∈ tokenize (blankErrors source), t.isError = false := by
  have same : tokenize (blankErrors source) = (tokenize source).filter (!·.isError) := by
    rw [tokenize_eq (blankErrors source), blankErrors, String.toList_ofList,
      tokensFrom_blankAt whiteSpace_ne_terminal source.toList fun q _ => by rw [tokenize_eq],
      ← tokenize_eq]
  refine ⟨same, ?_⟩
  intro t member
  rw [same] at member
  simpa using (List.mem_filter.mp member).2

/-- The first dot belongs to the numeral. -/
example : blankErrors "1..2#" = "1. 2 " := by decide +kernel

end DemandLex
