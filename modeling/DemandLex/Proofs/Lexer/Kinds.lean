import DemandLex.Proofs.Lexer.MaximalMunch
import DemandLex.Proofs.Lexer.Relocate

/-! Tokens without their positions: what a text is read as does not depend on where it stands. -/

namespace DemandLex

open LexState Grammar

theorem Tagged.relocate_ofChars (p q r : Position) (chars : List Char) :
    (ofChars p chars).map (Tagged.relocate fun _ => r) =
      (ofChars q chars).map (Tagged.relocate fun _ => r) := by
  induction chars generalizing p q with
  | nil => rfl
  | cons c later ih => exact congrArg (_ :: ·) (ih ..)

def kinds (chars : List Char) : List Token := (whiteSpace.tokensFrom .start chars).map Located.token

variable {c : Char} {chars body word rest : List Char}

theorem map_token_tokensFrom (p : Position) (chars : List Char) :
    (whiteSpace.tokensFrom p chars).map Located.token = kinds chars := by
  have moved (p : Position) : (whiteSpace.tokensFrom p chars).map Located.token =
      (whiteSpace.emits .standard
        ((Tagged.ofChars p chars).map (Tagged.relocate fun _ => .start))).map Located.token := by
    have same := emits_relocate (fun _ => .start) .standard whiteSpace (Tagged.ofChars p chars)
    rw [relocate] at same
    rw [same, List.map_map]
    rfl
  rw [kinds, moved p, moved .start, Tagged.relocate_ofChars]

theorem kinds_nil : kinds [] = [.terminal] := rfl

theorem kinds_blank (blank : isBlank c = true) : kinds (c :: rest) = kinds rest := by
  rw [kinds, tokensFrom_blank blank, map_token_tokensFrom]

theorem kinds_blanks (blank : ∀ c ∈ chars, isBlank c = true) :
    kinds (chars ++ rest) = kinds rest := by
  induction chars with
  | nil => rfl
  | cons c later ih =>
    rw [List.cons_append, kinds_blank (blank c List.mem_cons_self),
      ih fun d member => blank d (List.mem_cons_of_mem c member)]

theorem kinds_symbol (s : Symbol) : kinds (s.toChar :: rest) = .symbol s :: kinds rest := by
  rw [kinds, tokensFrom_cons (step_symbol s), List.map_append, map_token_tokensFrom]
  rfl

theorem kinds_string (inside : Body body) :
    kinds ('"' :: (body ++ '"' :: rest)) =
      .string (decode .empty body).finish :: kinds rest := by
  rw [kinds, tokensFrom_closed inside, List.map_cons, map_token_tokensFrom]

theorem kinds_numeral {n : Parts} (formed : n.WellFormed)
    (stops : ∀ c ∈ rest.head?, continueNumeral .standard n.phase c = none) :
    kinds (n.chars ++ rest) = .number n.numeral.value :: kinds rest := by
  rw [kinds, tokensFrom_numeral formed, tokensFrom_numeral_end stops, List.map_cons,
    map_token_tokensFrom]

theorem kinds_identifier (first : startsIdentifier c = true)
    (continues : ∀ d ∈ word, continuesIdentifier d = true)
    (stops : ∀ d ∈ rest.head?, continuesIdentifier d = false) :
    kinds (c :: (word ++ rest)) = .identifier (String.ofList (c :: word)) :: kinds rest := by
  have text : c.toString ++ String.ofList word = String.ofList (c :: word) := by
    rw [← String.toList_inj]
    simp
  rw [kinds, tokensFrom_moves (step_identifier first), tokensFrom_identifier continues,
    tokensFrom_identifier_end stops, text, List.map_cons, map_token_tokensFrom]

end DemandLex
