import DemandLex.Proofs.Lexer.Origin
import Mathlib.Data.List.TakeWhile

/-! The tokens of any tagged characters, with ends anywhere among them: one terminal for the first
end, nothing behind it, and every other token at a character of its own. -/

namespace DemandLex

namespace Position

theorem compare_eq_lt {p q : Position} :
    p.compare q = .lt ↔ p.line < q.line ∨ (p.line = q.line ∧ p.column < q.column) := by
  rw [compare, Ordering.then_eq_lt, Nat.compare_eq_lt, Nat.compare_eq_eq, Nat.compare_eq_lt]

theorem compare_advance (p : Position) (c : Char) : p.compare (p.advance c) = .lt := by
  rw [compare_eq_lt, advance]
  split
  · exact Or.inl (Nat.lt_succ_self _)
  · exact Or.inr ⟨rfl, Nat.lt_succ_self _⟩

theorem compare_trans {p q r : Position} (first : p.compare q = .lt) (second : q.compare r = .lt) :
    p.compare r = .lt := by
  rw [compare_eq_lt] at *
  omega

end Position

namespace Tagged

def front (inputs : List Tagged) : List Tagged := inputs.takeWhile (·.char.isSome)

def firstEnd? (inputs : List Tagged) : Option Tagged := inputs.find? (·.char.isNone)

theorem front_sublist (inputs : List Tagged) :
    (front inputs ++ (firstEnd? inputs).toList).Sublist inputs := by
  induction inputs with
  | nil => exact .slnil
  | cons x later ih =>
    cases char : x.char with
    | none => simp [front, firstEnd?, char]
    | some c => simpa [front, firstEnd?, char] using ih

theorem char_of_mem_front {inputs : List Tagged} : ∀ x ∈ front inputs, x.char ≠ none := by
  intro x member
  rw [front] at member
  have selected := List.mem_takeWhile_imp member
  exact Option.isSome_iff_ne_none.mp selected

theorem before_ofChars (p : Position) (chars : List Char) :
    ∀ x ∈ ofChars p chars, x.position = p ∨ p.compare x.position = .lt := by
  induction chars generalizing p with
  | nil => simp [ofChars]
  | cons c later ih =>
    intro x member
    rcases List.mem_cons.mp member with rfl | member
    · exact Or.inl rfl
    · rcases ih (p.advance c) x member with same | before
      · exact Or.inr (same ▸ p.compare_advance c)
      · exact Or.inr (Position.compare_trans (p.compare_advance c) before)

theorem pairwise_ofChars (p : Position) (chars : List Char) :
    ((ofChars p chars).map position).Pairwise fun q r => q.compare r = .lt := by
  induction chars generalizing p with
  | nil => simp [ofChars]
  | cons c later ih =>
    rw [ofChars, List.map_cons, List.pairwise_cons]
    refine ⟨?_, ih _⟩
    intro q member
    obtain ⟨x, inside, rfl⟩ := List.mem_map.mp member
    rcases before_ofChars (p.advance c) later x inside with same | before
    · exact same ▸ p.compare_advance c
    · exact Position.compare_trans (p.compare_advance c) before

theorem firstEnd?_ofChars (p : Position) (chars : List Char) :
    firstEnd? (ofChars p chars) = some ⟨none, chars.foldl Position.advance p⟩ := by
  induction chars generalizing p with
  | nil => rfl
  | cons c later ih => exact ih (p.advance c)

end Tagged

namespace LexState

open Tagged

variable {classes : CharClasses} {s : LexState} {inputs : List Tagged}

/-- What the first end of the input adds to the tokens: the pending one, and the terminal. -/
def closing (classes : CharClasses) (s : LexState) (inputs : List Tagged) : List Located :=
  (firstEnd? inputs).elim [] fun x =>
    (s.after classes (front inputs)).pending ++ [⟨.terminal, x.position⟩]

theorem length_pending_le : s.pending.length ≤ 1 := by
  cases s <;> simp [pending]

/-- Nothing counts but the characters in front of the first end, and that end. -/
theorem emits_front (running : s ≠ terminal) :
    s.emits classes inputs = s.emits classes (front inputs) ++ s.closing classes inputs := by
  induction inputs generalizing s with
  | nil => rfl
  | cons x later ih =>
    obtain ⟨char, p⟩ := x
    cases char with
    | none =>
      rw [emits, step_end running, emits_terminal, List.append_nil]
      rfl
    | some c =>
      rw [emits, ih (step_ne_terminal running), ← List.append_assoc]
      rfl

theorem tokensOf_eq (classes : CharClasses) (inputs : List Tagged) :
    tokensOf classes inputs = whiteSpace.emits classes inputs := toList_run ..

theorem stand_front (classes : CharClasses) (inputs : List Tagged) :
    Stand (tokensOf classes (front inputs) ++ (whiteSpace.after classes (front inputs)).pending)
      (front inputs) := by
  have stand : Stand ([] ++ whiteSpace.pending) [] := .nil
  rw [tokensOf_eq]
  exact stand_emits whiteSpace_ne_terminal char_of_mem_front stand

theorem positions_sublist (classes : CharClasses) (inputs : List Tagged) :
    ((tokensOf classes inputs).map Located.position).Sublist (inputs.map Tagged.position) := by
  refine .trans ?_ ((front_sublist inputs).map Tagged.position)
  have stand := (stand_front classes inputs).positions
  rw [tokensOf_eq, emits_front whiteSpace_ne_terminal, closing, ← tokensOf_eq]
  cases firstEnd? inputs with
  | none =>
    rw [Option.elim_none, List.append_nil, Option.toList_none, List.append_nil]
    exact ((List.sublist_append_left _ _).map _).trans stand
  | some x =>
    rw [Option.elim_some, Option.toList_some, ← List.append_assoc]
    simpa using stand.append (.refl [x.position])

end LexState

open LexState Tagged

/-- The tokens are those of the characters in front of the first end. An end adds the one token
that is pending there and one terminal, and nothing behind it counts; without an end what is pending
is not handed out. All but the terminal stand at characters of their own, in order. The tokens of a
text are at increasing positions, with the terminal at the end of the text. -/
theorem tokensOf_shape (classes : CharClasses) :
    (∀ inputs : List Tagged,
      let pending := (whiteSpace.after classes (front inputs)).pending
      tokensOf classes inputs = tokensOf classes (front inputs) ++
          (firstEnd? inputs).elim [] (fun x => pending ++ [⟨.terminal, x.position⟩]) ∧
        pending.length ≤ 1 ∧
        Stand (tokensOf classes (front inputs) ++ pending) (front inputs) ∧
        (∀ t ∈ tokensOf classes (front inputs) ++ pending, t.token ≠ .terminal) ∧
        ((∃ t ∈ tokensOf classes inputs, t.token = .terminal) ↔ ∃ x ∈ inputs, x.char = none)) ∧
    ∀ source : String,
      (tokenizeWith classes source).Pairwise (fun s t => s.position.compare t.position = .lt) ∧
        (tokenizeWith classes source).getLast? =
          some ⟨.terminal, source.toList.foldl Position.advance .start⟩ ∧
        (tokenizeWith classes source).length ≤ source.length + 1 := by
  constructor
  · intro inputs
    have stand := stand_front classes inputs
    have parts : tokensOf classes inputs = tokensOf classes (front inputs) ++
        whiteSpace.closing classes inputs := by
      simp only [tokensOf_eq]
      exact emits_front whiteSpace_ne_terminal
    refine ⟨parts, length_pending_le, stand, stand.not_terminal, ?_⟩
    rw [parts, closing]
    cases first : firstEnd? inputs with
    | none =>
      have noEnd : ∀ x ∈ inputs, x.char ≠ none := by simpa [firstEnd?] using first
      have others := fun t member => stand.not_terminal t (List.mem_append_left _ member)
      constructor
      · rintro ⟨t, member, terminal⟩
        exact absurd terminal (others t (by simpa using member))
      · rintro ⟨x, member, ends⟩
        exact absurd ends (noEnd x member)
    | some x =>
      have ends : x.char = none := by simpa [firstEnd?] using List.find?_some first
      refine iff_of_true ⟨⟨.terminal, x.position⟩, ?_, rfl⟩
        ⟨x, List.mem_of_find?_eq_some first, ends⟩
      simp
  · intro source
    have sublist := positions_sublist classes (ofText source)
    refine ⟨?_, ?_, ?_⟩
    · exact List.pairwise_map.mp ((pairwise_ofChars .start source.toList).sublist sublist)
    · rw [tokenizeWith, tokensOf_eq, emits_front whiteSpace_ne_terminal, closing, ofText,
        firstEnd?_ofChars]
      simp
    · have count := sublist.length_le
      rw [List.length_map, List.length_map, ofText, length_ofChars] at count
      exact count.trans_eq (congrArg (· + 1) source.length_toList)

/-- The first of two ends closes the identifier, and what stands between them is lost. -/
theorem tokensOf_shape_two_ends :
    let inputs : List Tagged :=
      [⟨some 'a', ⟨1, 1⟩⟩, ⟨none, ⟨7, 7⟩⟩, ⟨some 'b', ⟨1, 2⟩⟩, ⟨none, ⟨1, 3⟩⟩]
    front inputs = [⟨some 'a', ⟨1, 1⟩⟩] ∧ firstEnd? inputs = some ⟨none, ⟨7, 7⟩⟩ ∧
      tokensOf .standard inputs = [⟨.identifier "a", ⟨1, 1⟩⟩, ⟨.terminal, ⟨7, 7⟩⟩] := by
  intro inputs
  obtain ⟨parts, -⟩ := (tokensOf_shape .standard).1 inputs
  refine ⟨by decide, by decide, ?_⟩
  rw [parts]
  decide +kernel

end DemandLex
