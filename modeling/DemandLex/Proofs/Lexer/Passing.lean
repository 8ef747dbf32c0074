import DemandLex.Proofs.Lexer.Pending

/-! Characters that complete no token: wherever they stand, they only lead from one state to
another. -/

namespace DemandLex.LexState

/-- Reading the characters, at whatever positions, leads from one state to another and completes no
token. -/
def Passes (s : LexState) (chars : List Char) (t : LexState) : Prop :=
  ∀ inputs : List Tagged, inputs.map Tagged.char = chars.map some →
    s.after .standard inputs = t ∧ s.emits .standard inputs = []

variable {s t u : LexState} {c : Char} {chars front back : List Char}

theorem passes_nil : s.Passes [] s := by
  intro inputs none
  rw [List.map_eq_nil_iff.mp none]
  exact ⟨rfl, rfl⟩

theorem Passes.cons (step : ∀ p, s.step .standard ⟨some c, p⟩ = (t, []))
    (later : t.Passes chars u) : s.Passes (c :: chars) u := by
  intro inputs spelt
  obtain ⟨⟨_, p⟩, rest, rfl, rfl, others⟩ := List.map_eq_cons_iff.mp spelt
  obtain ⟨last, silent⟩ := later rest others
  rw [after, emits, step p]
  exact ⟨last, silent⟩

theorem Passes.append (first : s.Passes front t) (second : t.Passes back u) :
    s.Passes (front ++ back) u := by
  intro inputs spelt
  rw [List.map_append] at spelt
  obtain ⟨before, behind, rfl, spelt, spelt'⟩ := List.map_eq_append_iff.mp spelt
  obtain ⟨middle, silent⟩ := first before spelt
  obtain ⟨last, silent'⟩ := second behind spelt'
  rw [after_append, emits_append, middle, silent]
  exact ⟨last, silent'⟩

theorem Passes.tokensFrom (passes : s.Passes chars t) (p : Position) (rest : List Char) :
    s.tokensFrom p (chars ++ rest) = t.tokensFrom (chars.foldl Position.advance p) rest := by
  obtain ⟨last, silent⟩ := passes _ (Tagged.map_char_placed p chars)
  rw [LexState.tokensFrom, Tagged.ofChars_append, emits_append, last, silent]
  rfl

section Numeral
variable {start : Position} {n : Numeral} {phase phase' : NumeralPhase} {digits : List Char}

theorem step_continue {change : Numeral → Numeral}
    (continues : continueNumeral .standard phase c = some (change, phase')) (p : Position) :
    (numeral start n phase).step .standard ⟨some c, p⟩ = (numeral start (change n) phase', []) := by
  simp [step, inNumeral, continues]

theorem passes_digits {change : Numeral → Nat → Numeral}
    (continues : ∀ c, Decimal.isDigit c = true →
      continueNumeral .standard phase c = some ((change · (Decimal.digitValue c)), phase))
    (inside : ∀ c ∈ digits, Decimal.isDigit c = true) :
    (numeral start n phase).Passes digits
      (numeral start (digits.foldl (fun n c => change n (Decimal.digitValue c)) n) phase) := by
  induction digits generalizing n with
  | nil => exact passes_nil
  | cons c digits ih =>
    exact .cons (step_continue (continues c (inside c List.mem_cons_self)))
      (ih fun d member => inside d (List.mem_cons_of_mem c member))

end Numeral

end DemandLex.LexState
