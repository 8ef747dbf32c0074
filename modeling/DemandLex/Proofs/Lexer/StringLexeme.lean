import DemandLex.Proofs.Lexer.Reading

/-! Strings: the lexer decodes a body as the grammar does, also where a unit breaks off. -/

namespace DemandLex

open Grammar LexState

namespace Grammar

section HexDigits
variable {count : Nat} {chars rest : List Char}

theorem hexDigits_append_drop (count : Nat) (chars : List Char) :
    hexDigits count chars ++ chars.drop (hexDigits count chars).length = chars := by
  induction count generalizing chars with
  | zero => simp [hexDigits]
  | succ count ih =>
    cases chars with
    | nil => simp [hexDigits]
    | cons c later =>
      rw [hexDigits]
      split
      · exact congrArg (c :: ·) (ih later)
      · rfl

theorem length_hexDigits_le (count : Nat) (chars : List Char) :
    (hexDigits count chars).length ≤ chars.length := by
  have parts := congrArg List.length (hexDigits_append_drop count chars)
  rw [List.length_append] at parts
  omega

theorem hexDigits_append (stops : ∀ c ∈ rest.head?, hexValue? c = none) :
    hexDigits count (chars ++ rest) = hexDigits count chars := by
  induction count generalizing chars with
  | zero => simp [hexDigits]
  | succ count ih =>
    cases chars with
    | nil =>
      cases rest with
      | nil => rfl
      | cons c rest => simp [hexDigits, stops c rfl]
    | cons c later =>
      rw [List.cons_append, hexDigits, hexDigits, ih]

theorem ne_of_hexValue? {c : Char} (digit : (hexValue? c).isSome = true) :
    c ≠ '"' ∧ c ≠ '\\' ∧ c ≠ '\n' := by
  refine ⟨?_, ?_, ?_⟩
  · intro same
    subst same
    exact absurd digit (by decide)
  · intro same
    subst same
    exact absurd digit (by decide)
  · intro same
    subst same
    exact absurd digit (by decide)

theorem Body.drop_hexDigits {body : List Char} (inside : Body body) :
    Body (body.drop (hexDigits count body).length) := by
  induction count generalizing body with
  | zero => exact inside
  | succ count ih =>
    cases body with
    | nil => exact inside
    | cons c later =>
      rw [hexDigits]
      split
      · rename_i digit
        cases inside with
        | plain quote backslash feed inside => exact ih inside
        | escape feed inside => exact absurd rfl (ne_of_hexValue? digit).2.1
      · exact inside

end HexDigits

end Grammar

section Characters
variable {p start : Position} {text : LiteralText} {c : Char} {chars rest : List Char}
  {code count : Nat}

theorem tokensFrom_plain (quote : c ≠ '"') (backslash : c ≠ '\\') (feed : c ≠ '\n') :
    (string start text .main).tokensFrom p (c :: rest) =
      (string start (text.push c) .main).tokensFrom (p.advance c) rest :=
  tokensFrom_moves (by simp [step, inString, inBody, Option.filter, quote, backslash, feed])

theorem tokensFrom_backslash :
    (string start text .main).tokensFrom p ('\\' :: rest) =
      (string start text .escape).tokensFrom (p.advance '\\') rest :=
  tokensFrom_moves (by simp [step, inString, inBody, Option.filter])

theorem tokensFrom_escape (unit : c ≠ 'u') (feed : c ≠ '\n') :
    (string start text .escape).tokensFrom p (c :: rest) =
      (string start (addEscape text c) .main).tokensFrom (p.advance c) rest := by
  apply tokensFrom_moves
  cases escape : escaped? c <;>
    simp [step, inString, inEscape, addEscape, Option.filter, unit, feed, escape]

theorem tokensFrom_unit :
    (string start text .escape).tokensFrom p ('u' :: rest) =
      (string start text (.unit 0 0)).tokensFrom (p.advance 'u') rest :=
  tokensFrom_moves (by simp [step, inString, inEscape, Option.filter])

theorem tokensFrom_quote :
    (string start text .main).tokensFrom p ('"' :: rest) =
      ⟨.string text.finish, start⟩ :: whiteSpace.tokensFrom (p.advance '"') rest := by
  have closes : (string start text .main).step .standard ⟨some '"', p⟩ =
      (whiteSpace, [⟨.string text.finish, start⟩]) := by
    simp [step, inString, inBody, Option.filter]
  exact tokensFrom_cons closes

theorem tokensFrom_cut {phase : StringPhase} (cuts : Cuts rest) :
    (string start text phase).tokensFrom p rest =
      ⟨.string (cutText text phase).finish, start⟩ :: whiteSpace.tokensFrom p rest := by
  apply tokensFrom_finish
  have broken : rest.head?.filter (· != '\n') = none := by
    cases rest with
    | nil => rfl
    | cons c rest => simp [Option.filter, cuts c rfl]
  simp only [step, inString, broken]

theorem tokensFrom_hexDigit {d : Nat} (digit : hexValue? c = some d) :
    (string start text (.unit code count)).tokensFrom p (c :: rest) =
      (if count = 3 then string start (text.pushUnit (code * 16 + d)) .main
        else string start text (.unit (code * 16 + d) (count + 1))).tokensFrom (p.advance c) rest := by
  have feed : c ≠ '\n' := (ne_of_hexValue? (by simp [digit])).2.2
  apply tokensFrom_moves
  by_cases last : count = 3 <;> simp [step, inString, inUnit, Option.filter, feed, digit, last]

/-- A unit that breaks off is read on as a body behind a backslash and `u`. -/
theorem tokensFrom_break (stops : ∀ c ∈ chars.head?, hexValue? c = none) :
    (string start text (.unit code count)).tokensFrom p chars =
      (string start (text.append "\\u") .main).tokensFrom p chars := by
  apply tokensFrom_congr
  cases chars with
  | nil => simp [step, inString, cutText]
  | cons c rest =>
    by_cases feed : c = '\n'
    · simp [step, inString, Option.filter, cutText, feed]
    · simp [step, inString, inUnit, Option.filter, feed, stops c rfl]

end Characters

section Bodies
variable {p start : Position} {text : LiteralText} {chars body rest : List Char}

theorem tokensFrom_hexDigits {left count code : Nat} (four : count + left = 4) (someLeft : 0 < left) :
    (string start text (.unit code count)).tokensFrom p chars =
      (string start
        (if (hexDigits left chars).length = left then
          text.pushUnit ((hexDigits left chars).foldl
            (fun code c => code * 16 + (hexValue? c).getD 0) code)
        else text.append "\\u") .main).tokensFrom
          ((hexDigits left chars).foldl Position.advance p)
          (chars.drop (hexDigits left chars).length) := by
  induction left generalizing chars count code p with
  | zero => cases someLeft
  | succ left ih =>
    cases chars with
    | nil =>
      rw [tokensFrom_break (by simp)]
      simp [hexDigits]
    | cons c later =>
      cases digit : hexValue? c with
      | none =>
        rw [tokensFrom_break (by simpa using digit)]
        simp [hexDigits, digit]
      | some d =>
        rw [tokensFrom_hexDigit digit]
        rcases Nat.eq_zero_or_pos left with rfl | more
        · have last : count = 3 := by omega
          simp [last, hexDigits, digit]
        · have early : count ≠ 3 := by omega
          rw [if_neg early, ih (by omega) more]
          simp [hexDigits, digit]

theorem tokensFrom_body (inside : Body body) (stops : ∀ c ∈ rest.head?, hexValue? c = none) :
    (string start text .main).tokensFrom p (body ++ rest) =
      (string start (decode text body) .main).tokensFrom (body.foldl Position.advance p) rest := by
  fun_induction decode text body generalizing p with
  | case1 text => rfl
  | case2 text later ih =>
    cases inside with
    | plain quote backslash feed inside => exact absurd rfl backslash
    | escape feed inside =>
      rw [List.cons_append, List.cons_append, tokensFrom_backslash, tokensFrom_unit,
        tokensFrom_hexDigits rfl (Nat.succ_pos 3), hexDigits_append stops,
        List.drop_append_of_le_length (length_hexDigits_le 4 later)]
      apply (ih inside.drop_hexDigits).trans
      rw [← List.foldl_append, hexDigits_append_drop]
      rfl
  | case3 text c later unit ih =>
    cases inside with
    | plain quote backslash feed inside => exact absurd rfl backslash
    | escape feed inside =>
      rw [List.cons_append, List.cons_append, tokensFrom_backslash, tokensFrom_escape unit feed,
        ih inside]
      rfl
  | case4 text c later nonunit escape ih =>
    cases inside with
    | plain quote backslash feed inside =>
      rw [List.cons_append, tokensFrom_plain quote backslash feed, ih inside]
      rfl
    | escape feed inside => exact absurd rfl (escape _ _ rfl)

theorem tokensFrom_closed (inside : Body body) :
    whiteSpace.tokensFrom p ('"' :: (body ++ '"' :: rest)) =
      ⟨.string (decode .empty body).finish, p⟩ ::
        whiteSpace.tokensFrom (('"' :: (body ++ ['"'])).foldl Position.advance p) rest := by
  have quote : hexValue? '"' = none := by decide
  rw [tokensFrom_moves step_quote, tokensFrom_body inside (by simpa using quote), tokensFrom_quote]
  simp

end Bodies

end DemandLex
