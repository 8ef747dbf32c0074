import DemandLex.Proofs.Lexer.NumeralLexeme
import DemandLex.Proofs.Lexer.StringLexeme
import Mathlib.Data.Nat.Find

/-! The lexer takes the longest lexeme at every character that is not skipped. -/

namespace DemandLex

open LexState

namespace Grammar

section Longest
variable {token token' : Token} {p : Position} {c d : Char} {chars rest : List Char}

theorem Lexeme.ne_nil (lexeme : Lexeme token chars rest) : chars ≠ [] := by
  cases lexeme with
  | numeral formed =>
    intro empty
    exact formed.nonempty (List.append_eq_nil_iff.mp empty).1
  | identifier | closed | cut | cutEscape | symbol | unknown => simp

theorem Longest.stops {P : Char → Prop} (longest : Longest token chars rest)
    (longer : ∀ d later, ¬P d → ∃ token', Lexeme token' (chars ++ [d]) later) :
    ∀ d ∈ rest.head?, P d := by
  intro d first
  by_contra fails
  obtain ⟨later, rfl⟩ := List.head?_eq_some_iff.mp first
  obtain ⟨token', other⟩ := longer d later fails
  have bound := longest.longest token' (chars ++ [d]) later (by simp) other
  rw [List.length_append] at bound
  exact Nat.not_succ_le_self _ bound

theorem single_toChar (s : Symbol) : single s.toChar = .symbol s := by
  rw [single, Symbol.ofChar?_toChar]

theorem single_unknown (symbol : ∀ s : Symbol, s.toChar ≠ c) : single c = .unknownCharacter c := by
  rw [single]
  cases found : Symbol.ofChar? c with
  | none => rfl
  | some s => exact absurd (Symbol.toChar_of_ofChar? found) (symbol s)

theorem step_symbol (s : Symbol) :
    whiteSpace.step .standard ⟨some s.toChar, p⟩ = (whiteSpace, [⟨.symbol s, p⟩]) := by
  rw [← single_toChar]
  apply step_single <;> cases s <;> decide

/-- Where the longest lexeme stands, the lexer hands out its token and reads on behind it. -/
theorem tokensFrom_longest (longest : Longest token chars rest) :
    whiteSpace.tokensFrom p (chars ++ rest) =
      ⟨token, p⟩ :: whiteSpace.tokensFrom (chars.foldl Position.advance p) rest := by
  have backslash : hexValue? '\\' = none := by decide
  have feed : hexValue? '\n' = none := by decide
  have stops (cuts : Cuts rest) : ∀ c ∈ rest.head?, hexValue? c = none :=
    fun c first => cuts c first ▸ feed
  -- The lexer stays in a lexeme as long as a longer one begins the text. That this one is the longest
  -- is what makes it stop behind it.
  cases longest.lexeme with
  | @identifier c later _ first continues =>
    have stops : ∀ d ∈ rest.head?, continuesIdentifier d = false := by
      refine longest.stops fun d tail goesOn => ⟨_, .identifier first ?_⟩
      simpa [or_imp, forall_and] using And.intro continues (eq_true_of_ne_false goesOn)
    have text : c.toString ++ String.ofList later = String.ofList (c :: later) := by
      rw [← String.toList_inj]
      simp
    rw [List.cons_append, tokensFrom_moves (step_identifier first), tokensFrom_identifier continues,
      tokensFrom_identifier_end stops, text]
    rfl
  | @numeral n _ formed =>
    have stops : ∀ d ∈ rest.head?, continueNumeral .standard n.phase d = none := by
      refine longest.stops fun d tail goesOn => ?_
      obtain ⟨longer, formed', same⟩ := exists_longer formed goesOn
      exact ⟨_, same ▸ Lexeme.numeral formed'⟩
    rw [tokensFrom_numeral formed, tokensFrom_numeral_end stops]
  | @closed body _ inside =>
    have split : '"' :: (body ++ ['"']) ++ rest = '"' :: (body ++ '"' :: rest) := by simp
    rw [split, tokensFrom_closed inside]
  | @cut body _ inside cuts =>
    rw [List.cons_append, tokensFrom_moves step_quote, tokensFrom_body inside (stops cuts),
      tokensFrom_cut cuts]
    rfl
  | @cutEscape body _ inside cuts =>
    have split : '"' :: (body ++ ['\\']) ++ rest = '"' :: (body ++ '\\' :: rest) := by simp
    rw [split, tokensFrom_moves step_quote, tokensFrom_body inside (by simpa using backslash),
      tokensFrom_backslash, tokensFrom_cut cuts]
    simp [cutText]
  | @symbol s => exact tokensFrom_cons (step_symbol s)
  | @unknown c _ blank identifier digit quote symbol =>
    have alone := step_single (p := p) blank identifier digit quote
    rw [single_unknown symbol] at alone
    exact tokensFrom_cons alone

end Longest

section Existence
variable {c : Char} {chars rest : List Char} {pieces : List Piece}

theorem exists_body (chars : List Char) :
    ∃ body rest, body ++ rest = chars ∧ Body body ∧ ((∃ later, rest = '"' :: later) ∨ Cuts rest ∨
      ∃ later, rest = '\\' :: later ∧ Cuts later) := by
  induction size : chars.length using Nat.strongRecOn generalizing chars with
  | ind length ih =>
    cases chars with
    | nil => exact ⟨[], [], rfl, .nil, Or.inr (Or.inl (by simp [Cuts]))⟩
    | cons c later =>
      by_cases quote : c = '"'
      · exact ⟨[], c :: later, rfl, .nil, Or.inl ⟨later, by rw [quote]⟩⟩
      by_cases feed : c = '\n'
      · exact ⟨[], c :: later, rfl, .nil, Or.inr (Or.inl (by simp [Cuts, feed]))⟩
      by_cases backslash : c = '\\'
      · by_cases cuts : Cuts later
        · exact ⟨[], c :: later, rfl, .nil, Or.inr (Or.inr ⟨later, by rw [backslash], cuts⟩)⟩
        · cases later with
          | nil => exact absurd (by simp [Cuts]) cuts
          | cons d later =>
            have shorter : later.length < length := by simp at size; omega
            obtain ⟨body, rest, same, inside, stop⟩ := ih later.length shorter later rfl
            have openLine : d ≠ '\n' := fun feed => cuts (by simp [Cuts, feed])
            exact ⟨c :: d :: body, rest, by simp [same], backslash ▸ .escape openLine inside, stop⟩
      · obtain ⟨body, rest, same, inside, stop⟩ := ih later.length (by simp at size; omega) later rfl
        exact ⟨c :: body, rest, by simp [same], .plain quote backslash feed inside, stop⟩

theorem exists_lexeme (rest : List Char) (blank : isBlank c = false) :
    ∃ token chars later, chars ++ later = c :: rest ∧ Lexeme token chars later := by
  by_cases first : startsIdentifier c = true
  · exact ⟨_, [c], rest, rfl, .identifier first (by simp)⟩
  by_cases digit : Decimal.isDigit c = true
  · have formed : (⟨[c], none, none⟩ : Parts).WellFormed :=
      ⟨by simp, by simpa using digit, by simp, by simp⟩
    exact ⟨_, [c], rest, rfl, .numeral formed⟩
  by_cases quote : c = '"'
  · obtain ⟨body, later, rfl, inside, ⟨later, rfl⟩ | cuts | ⟨later, rfl, cuts⟩⟩ := exists_body rest
    · exact ⟨_, _, later, by simp [quote], .closed inside⟩
    · exact ⟨_, _, later, by simp [quote], .cut inside cuts⟩
    · exact ⟨_, _, later, by simp [quote], .cutEscape inside cuts⟩
  by_cases symbol : ∃ s : Symbol, s.toChar = c
  · obtain ⟨s, rfl⟩ := symbol
    exact ⟨_, _, rest, rfl, .symbol⟩
  · exact ⟨_, [c], rest, rfl, .unknown blank (by simpa using first) (by simpa using digit) quote
      (by simpa using symbol)⟩

/-- Some lexeme at a place is the longest there, since all of them are parts of the text. -/
theorem exists_longest (rest : List Char) (blank : isBlank c = false) :
    ∃ token chars later, chars ++ later = c :: rest ∧ Longest token chars later := by
  classical
  let Fits (length : Nat) : Prop := ∃ token chars later, chars ++ later = c :: rest ∧
    Lexeme token chars later ∧ chars.length = length
  have bounded (length : Nat) (fits : Fits length) : length ≤ (c :: rest).length := by
    obtain ⟨token, chars, later, same, -, rfl⟩ := fits
    rw [← same, List.length_append]
    exact Nat.le_add_right _ _
  obtain ⟨token, chars, later, same, lexeme⟩ := exists_lexeme rest blank
  have someFits : Fits chars.length := ⟨token, chars, later, same, lexeme, rfl⟩
  obtain ⟨token, chars, later, same, lexeme, greatest⟩ :=
    Nat.findGreatest_spec (bounded _ someFits) someFits
  refine ⟨token, chars, later, same, lexeme, ?_⟩
  intro token' chars' later' same' other
  have fits : Fits chars'.length := ⟨token', chars', later', same'.trans same, other, rfl⟩
  rw [greatest]
  exact Nat.le_findGreatest (bounded _ fits) fits

theorem exists_splits (chars : List Char) : ∃ pieces, Splits chars pieces := by
  induction size : chars.length using Nat.strongRecOn generalizing chars with
  | ind length ih =>
    cases chars with
    | nil => exact ⟨[], .nil⟩
    | cons c rest =>
      cases blank : isBlank c with
      | true =>
        obtain ⟨pieces, later⟩ := ih rest.length (by simp at size; omega) rest rfl
        exact ⟨_, .blank blank later⟩
      | false =>
        obtain ⟨token, chars, later, same, longest⟩ := exists_longest rest blank
        have someChars := List.length_pos_of_ne_nil longest.lexeme.ne_nil
        have parts := congrArg List.length same
        rw [List.length_append] at parts
        obtain ⟨pieces, splits⟩ := ih later.length (by omega) later rfl
        exact ⟨_, same ▸ Splits.lexeme longest splits⟩

end Existence

theorem Splits.chars_eq {chars : List Char} {pieces : List Piece} (splits : Splits chars pieces) :
    pieces.flatMap Piece.chars = chars := by
  induction splits with
  | nil => rfl
  | blank skipped later ih => rw [List.flatMap_cons, ih, Piece.chars, List.singleton_append]
  | lexeme longest later ih => rw [List.flatMap_cons, ih, Piece.chars]

theorem Splits.tokens_eq {chars : List Char} {pieces : List Piece} (splits : Splits chars pieces)
    (p : Position) : whiteSpace.tokensFrom p chars = tokens p pieces := by
  induction splits generalizing p with
  | nil => rfl
  | blank skipped later ih => rw [tokensFrom_blank skipped, ih, tokens]
  | lexeme longest later ih => rw [tokensFrom_longest longest, ih, tokens]

section Unique
variable {token token' : Token} {chars chars' rest rest' : List Char}

theorem Lexeme.head_not_blank (lexeme : Lexeme token chars rest) :
    ∀ c ∈ chars.head?, isBlank c = false := by
  cases lexeme with
  | identifier first => simpa using isBlank_of_startsIdentifier first
  | @numeral n _ formed =>
    obtain ⟨c, whole, same⟩ := List.exists_cons_of_ne_nil formed.nonempty
    have digit := formed.whole c (by simp [same])
    simpa [Parts.chars, same] using isBlank_of_isDigit digit
  | closed | cut | cutEscape => simp; decide
  | @symbol s => cases s <;> simp [Symbol.toChar] <;> decide
  | unknown blank => simpa using blank

theorem Longest.not_blank {c : Char} {later : List Char} (longest : Longest token chars rest)
    (same : chars ++ rest = c :: later) : isBlank c = false := by
  obtain ⟨d, chars, rfl⟩ := List.exists_cons_of_ne_nil longest.lexeme.ne_nil
  cases same
  exact longest.lexeme.head_not_blank c rfl

theorem Longest.unique (longest : Longest token chars rest) (longest' : Longest token' chars' rest')
    (same : chars ++ rest = chars' ++ rest') : token = token' ∧ chars = chars' ∧ rest = rest' := by
  have length : chars.length = chars'.length := Nat.le_antisymm
    (longest'.longest _ _ _ same longest.lexeme) (longest.longest _ _ _ same.symm longest'.lexeme)
  obtain ⟨rfl, rfl⟩ := List.append_inj same length
  have handed := (tokensFrom_longest (p := .start) longest).symm.trans (tokensFrom_longest longest')
  exact ⟨congrArg Located.token (List.cons.inj handed).1, rfl, rfl⟩

theorem Splits.unique {pieces pieces' : List Piece} (splits : Splits chars pieces)
    (splits' : Splits chars pieces') : pieces = pieces' := by
  induction splits generalizing pieces' with
  | nil =>
    generalize empty : ([] : List Char) = chars at splits'
    cases splits' with
    | nil => rfl
    | blank => cases empty
    | lexeme longest later =>
      exact absurd (List.append_eq_nil_iff.mp empty.symm).1 longest.lexeme.ne_nil
  | @blank c rest pieces skipped later ih =>
    generalize same : c :: rest = chars at splits'
    cases splits' with
    | nil => cases same
    | blank skipped' later' =>
      cases same
      rw [ih later']
    | lexeme longest later' => simp [longest.not_blank same.symm] at skipped
  | @lexeme token chars rest pieces longest later ih =>
    generalize same : chars ++ rest = all at splits'
    cases splits' with
    | nil => exact absurd (List.append_eq_nil_iff.mp same).1 longest.lexeme.ne_nil
    | blank skipped' later' => simp [longest.not_blank same] at skipped'
    | lexeme longest' later' =>
      obtain ⟨rfl, rfl, rfl⟩ := longest.unique longest' same
      rw [ih later']

end Unique

/-- Every text falls in exactly one way into skipped white space and longest lexemes, which together
are all of it, and its tokens are those of the lexemes, with the terminal behind them. -/
theorem tokenize_longest (source : String) :
    ∃ pieces, Splits source.toList pieces ∧
      (∀ pieces', Splits source.toList pieces' → pieces' = pieces) ∧
      pieces.flatMap Piece.chars = source.toList ∧ tokenize source = tokens .start pieces := by
  obtain ⟨pieces, splits⟩ := exists_splits source.toList
  refine ⟨pieces, splits, fun pieces' splits' => splits'.unique splits, splits.chars_eq, ?_⟩
  rw [tokenize_eq]
  exact splits.tokens_eq .start

/-- A numeral ends in a sign, and a string is cut within a unit. -/
theorem tokenize_longest_dangling :
    ∃ pieces, Splits "1.e-x \"\\u12\n".toList pieces ∧ tokens .start pieces =
      [⟨.number (Numeral.ofDigit 1).value, ⟨1, 1⟩⟩, ⟨.identifier "x", ⟨1, 5⟩⟩,
        ⟨.string "\\u", ⟨1, 7⟩⟩, ⟨.terminal, ⟨2, 1⟩⟩] := by
  obtain ⟨pieces, splits, -, -, same⟩ := tokenize_longest "1.e-x \"\\u12\n"
  refine ⟨pieces, splits, ?_⟩
  rw [← same]
  decide +kernel

end Grammar

end DemandLex
