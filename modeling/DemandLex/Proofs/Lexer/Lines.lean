import DemandLex.Proofs.Lexer.Pending
import DemandLex.Proofs.Lexer.Relocate

/-! Lines are tokenized on their own: a line feed hands out what the end of the input would, and
what is behind it is read as a text that stands further down. -/

namespace DemandLex

namespace Position

def below (lines : Nat) (p : Position) : Position := ⟨p.line + lines, p.column⟩

variable (lines : Nat) (p : Position)

theorem advance_below (c : Char) : (p.below lines).advance c = (p.advance c).below lines := by
  simp only [advance, below]
  split
  · simp only [Nat.add_right_comm]
  · rfl

theorem below_below (more : Nat) : (p.below lines).below more = p.below (lines + more) := by
  simp only [below, Nat.add_assoc]

theorem line_advances (chars : List Char) :
    (chars.foldl advance p).line = p.line + chars.count '\n' := by
  induction chars generalizing p with
  | nil => rfl
  | cons c later ih =>
    rw [List.foldl_cons, ih, List.count_cons, advance]
    by_cases feed : c = '\n'
    · simp only [feed, if_true, beq_self_eq_true]
      omega
    · simp [feed]

theorem advance_feed (chars : List Char) :
    (chars.foldl advance start).advance '\n' = start.below (1 + chars.count '\n') := by
  have line := line_advances start chars
  rw [advance, if_pos rfl, line, below, Nat.add_comm 1, Nat.add_assoc]
  rfl

end Position

open Position

theorem Tagged.ofChars_below (lines : Nat) (p : Position) (chars : List Char) :
    ofChars (p.below lines) chars = (ofChars p chars).map (Tagged.relocate (below lines)) := by
  induction chars generalizing p with
  | nil => rfl
  | cons c later ih =>
    rw [ofChars, ofChars, List.map_cons, advance_below, ih]
    rfl

namespace Located

def below (lines : Nat) : Located → Located := relocate (Position.below lines)

theorem below_below (lines more : Nat) (t : Located) :
    (t.below lines).below more = t.below (lines + more) :=
  congrArg (Located.mk t.token) (Position.below_below lines t.position more)

end Located

namespace LexState

variable {s : LexState} {p : Position}

theorem tokensFrom_below (lines : Nat) (p : Position) (chars : List Char) :
    whiteSpace.tokensFrom (p.below lines) chars =
      (whiteSpace.tokensFrom p chars).map (Located.below lines) := by
  rw [tokensFrom, Tagged.ofChars_below]
  exact emits_relocate _ _ whiteSpace _

theorem step_feed (running : s ≠ terminal) :
    s.step .standard ⟨some '\n', p⟩ = (whiteSpace, s.pending) := by
  have skipped : between .standard ⟨some '\n', p⟩ = (whiteSpace, []) := by
    have blank : Grammar.isBlank '\n' = true := by decide
    simp [between, blank]
  cases s with
  | terminal => exact absurd rfl running
  | whiteSpace => exact skipped
  | identifier start value =>
    have ends : Grammar.continuesIdentifier '\n' = false := by decide
    simp [step, inIdentifier, Option.filter, ends, finish, skipped, pending]
  | numeral start n phase =>
    have digit : Decimal.isDigit '\n' = false := by decide
    have letter : Grammar.marksExponent '\n' = false := by decide
    cases phase <;>
      simp [step, inNumeral, continueNumeral, digit, letter, finish, skipped, pending]
  | string start text phase =>
    simp [step, inString, Option.filter, finish, skipped, pending]

theorem tokensFrom_step (s : LexState) (p : Position) (c : Char) (rest : List Char) :
    s.tokensFrom p (c :: rest) = (s.step .standard ⟨some c, p⟩).2 ++
      (s.step .standard ⟨some c, p⟩).1.tokensFrom (p.advance c) rest := tokensFrom_cons rfl

theorem tokensFrom_nil (running : s ≠ terminal) :
    s.tokensFrom p [] = s.pending ++ [⟨.terminal, p⟩] := by
  rw [tokensFrom, Tagged.ofChars, emits, step_end running]
  simp [emits]

theorem tokensFrom_ne_nil (running : s ≠ terminal) (chars : List Char) :
    s.tokensFrom p chars ≠ [] := by
  induction chars generalizing s p with
  | nil => simp [tokensFrom_nil running]
  | cons c later ih =>
    rw [tokensFrom_step]
    exact List.append_ne_nil_of_right_ne_nil _ (ih (step_ne_terminal running))

/-- A line feed ends a text as the end of the input does, but for the terminal. -/
theorem tokensFrom_feed (running : s ≠ terminal) (chars rest : List Char) :
    s.tokensFrom p (chars ++ '\n' :: rest) =
      (s.tokensFrom p chars).dropLast ++
        whiteSpace.tokensFrom ((chars.foldl advance p).advance '\n') rest := by
  induction chars generalizing s p with
  | nil =>
    rw [List.nil_append, tokensFrom_cons (step_feed running), tokensFrom_nil running,
      List.dropLast_concat]
    rfl
  | cons c later ih =>
    have next : (s.step .standard ⟨some c, p⟩).1 ≠ terminal := step_ne_terminal running
    rw [List.cons_append, tokensFrom_step, ih next, tokensFrom_step,
      List.dropLast_append_of_ne_nil (tokensFrom_ne_nil next later), List.append_assoc]
    rfl

end LexState

open LexState

theorem tokenize_feed (a b : List Char) :
    tokenize (String.ofList (a ++ '\n' :: b)) =
      (tokenize (String.ofList a)).dropLast ++
        (tokenize (String.ofList b)).map (Located.below (1 + a.count '\n')) := by
  simp only [tokenize_eq, String.toList_ofList]
  rw [tokensFrom_feed whiteSpace_ne_terminal, advance_feed, tokensFrom_below]

/-- Lines one below the other, the first of them on the line `first + 2`, and what stands behind
them. -/
theorem tokenize_rows {line : Nat → List Char} (single : ∀ i, '\n' ∉ line i) (last : List Char)
    (first count : Nat) :
    (tokenize (String.ofList ((List.range' first count).flatMap (fun i => line i ++ ['\n']) ++
        last))).map (Located.below (first + 1)) =
      (List.range' first count).flatMap (fun i =>
          (tokenize (String.ofList (line i))).dropLast.map (Located.below (i + 1))) ++
        (tokenize (String.ofList last)).map (Located.below (first + count + 1)) := by
  induction count generalizing first with
  | zero => rfl
  | succ count ih =>
    have later (ts : List Located) : (ts.map (Located.below (1 + 0))).map (Located.below (first + 1)) =
        ts.map (Located.below (first + 1 + 1)) := by
      rw [List.map_map]
      refine List.map_congr_left fun t _ => ?_
      exact (Located.below_below 1 (first + 1) t).trans (by rw [Nat.add_comm])
    rw [List.range'_succ, List.flatMap_cons, List.append_assoc, List.append_assoc,
      List.singleton_append, tokenize_feed, List.count_eq_zero_of_not_mem (single first),
      List.map_append, later, ih, List.flatMap_cons, List.append_assoc, Nat.add_right_comm first 1,
      ← Nat.add_assoc]

/-- The tokens of lines that are tokenized one by one, with some lines above them. Only the last
line keeps its terminal. -/
def lineTokens (above : Nat) : List (List Char) → List Located
  | [] => []
  | line :: later =>
    let tokens := (tokenize (String.ofList line)).map (Located.below above)
    if later.isEmpty then tokens else tokens.dropLast ++ lineTokens (above + 1) later

theorem tokenize_below (above : Nat) (chars : List Char) :
    (tokenize (String.ofList chars)).map (Located.below above) =
      lineTokens above (chars.splitOn '\n') := by
  induction size : chars.length using Nat.strongRecOn generalizing above chars with
  | ind length ih =>
    by_cases feed : '\n' ∈ chars
    · obtain ⟨line, later, rfl, fresh⟩ := List.eq_append_cons_of_mem feed
      have shorter : later.length < length := by
        rw [← size, List.length_append, List.length_cons]
        omega
      have rest := ih later.length shorter (above + 1) later rfl
      have some : (later.splitOn '\n').isEmpty = false := by simp
      rw [List.splitOn_append_cons_self_of_not_mem fresh, lineTokens, some, ← rest, tokenize_feed,
        List.count_eq_zero_of_not_mem fresh]
      simp only [List.map_append, List.map_map, List.map_dropLast, Bool.false_eq_true, if_false]
      congr 2
      funext t
      exact (Located.below_below 1 above t).trans (by rw [Nat.add_comm])
    · rw [(List.splitOn_eq_singleton feed), lineTokens]
      simp

end DemandLex
