import DemandLex.Proofs.Lexer.MaximalMunch
import DemandLex.Proofs.Text.Utf16

/-! The value of a string is the decoding of the UTF-16 units that its body writes. -/

namespace DemandLex.Grammar

open LexState LiteralText

def shortEscapes : List (Char × Char) :=
  [('"', '"'), ('\\', '\\'), ('/', '/'), ('b', '\x08'), ('f', '\x0c'), ('n', '\n'), ('r', '\x0d'),
    ('t', '\t')]

/-- The units that a body writes. A unit that breaks off leaves a backslash and `u`; an escape of
another character, and a backslash with nothing behind it, stand for themselves. -/
def bodyUnits : List Char → List Nat
  | [] => []
  | '\\' :: 'u' :: later =>
    (if (hexDigits 4 later).length = 4 then [hexNumber (hexDigits 4 later)]
      else Utf16.units '\\' ++ Utf16.units 'u') ++
        bodyUnits (later.drop (hexDigits 4 later).length)
  | '\\' :: c :: later =>
    (match shortEscapes.lookup c with
      | some d => Utf16.units d
      | none => Utf16.units '\\' ++ Utf16.units c) ++ bodyUnits later
  | c :: later => Utf16.units c ++ bodyUnits later
termination_by body => body.length

def content : List Char → List Char
  | '\\' :: c :: later => '\\' :: c :: content later
  | '"' :: _ => []
  | c :: later => c :: content later
  | [] => []

theorem escaped?_eq (c : Char) : escaped? c = shortEscapes.lookup c := by
  unfold escaped?
  split
  all_goals try rfl
  next quote backslash slash b f n r t =>
    symm
    simp only [shortEscapes, List.lookup_eq_none_iff, List.forall_mem_cons, bne_iff_ne]
    exact ⟨quote, backslash, slash, b, f, n, r, t, nofun⟩

section Decode
variable {text : LiteralText} {later : List Nat}

theorem ahead_addUnit (waits : text.Waits) (digits : List Char) :
    (addUnit text digits).Waits ∧ (addUnit text digits).ahead later =
      text.ahead ((if digits.length = 4 then [hexNumber digits]
        else Utf16.units '\\' ++ Utf16.units 'u') ++ later) := by
  rw [addUnit]
  split
  · exact ⟨waits_pushUnit, ahead_pushUnit waits⟩
  · rw [append_unit_eq, ahead_push waits_push, ahead_push waits, List.append_assoc]
    exact ⟨waits_push, rfl⟩

theorem ahead_addEscape (waits : text.Waits) (c : Char) :
    (addEscape text c).Waits ∧ (addEscape text c).ahead later =
      text.ahead ((match shortEscapes.lookup c with
        | some d => Utf16.units d
        | none => Utf16.units '\\' ++ Utf16.units c) ++ later) := by
  rw [addEscape, escaped?_eq]
  cases shortEscapes.lookup c with
  | some d => exact ⟨waits_push, ahead_push waits d⟩
  | none =>
    simp only [ahead_push waits_push, ahead_push waits, List.append_assoc]
    exact ⟨waits_push, trivial⟩

theorem ahead_decode (waits : text.Waits) (body : List Char) (later : List Nat) :
    (decode text body).Waits ∧
      (decode text body).ahead later = text.ahead (bodyUnits body ++ later) := by
  fun_induction decode text body with
  | case1 text => simpa [bodyUnits] using waits
  | case2 text rest ih =>
    obtain ⟨inside, added⟩ := ahead_addUnit waits (hexDigits 4 rest)
    obtain ⟨last, all⟩ := ih inside
    refine ⟨last, ?_⟩
    rw [all, added, bodyUnits, List.append_assoc]
  | case3 text c rest unit ih =>
    obtain ⟨inside, added⟩ := ahead_addEscape waits c
    obtain ⟨last, all⟩ := ih inside
    refine ⟨last, ?_⟩
    rw [all, added, bodyUnits, List.append_assoc]
    exact unit
  | case4 text c rest nonunit escape ih =>
    obtain ⟨last, all⟩ := ih waits_push
    refine ⟨last, ?_⟩
    rw [all, ahead_push waits, bodyUnits, List.append_assoc]
    · exact nonunit
    · exact escape

end Decode

section Content
variable {body later rest : List Char} {token : Token}

theorem content_append (inside : Body body) (rest : List Char) :
    content (body ++ rest) = body ++ content rest := by
  induction inside with
  | nil => rfl
  | plain quote backslash feed inside ih =>
    rw [List.cons_append, content, ih]
    · rfl
    · exact fun c later same _ => backslash same
    · exact quote
  | escape feed inside ih => simp only [List.cons_append, content, ih]

theorem bodyUnits_backslash (inside : Body body) :
    bodyUnits (body ++ ['\\']) = bodyUnits body ++ Utf16.units '\\' := by
  have stops : ∀ c ∈ ['\\'].head?, hexValue? c = none := by
    rintro _ ⟨⟩
    rfl
  fun_induction bodyUnits body with
  | case1 => simp [bodyUnits]
  | case2 later ih =>
    cases inside with
    | plain quote backslash feed inside => exact absurd rfl backslash
    | escape feed inside =>
      rw [List.cons_append, List.cons_append, bodyUnits, hexDigits_append stops,
        List.drop_append_of_le_length (length_hexDigits_le 4 later), ih inside.drop_hexDigits,
        List.append_assoc]
  | case3 c later unit ih =>
    cases inside with
    | plain quote backslash feed inside => exact absurd rfl backslash
    | escape feed inside =>
      rw [List.cons_append, List.cons_append, bodyUnits, ih inside, List.append_assoc]
      exact unit
  | case4 c later nonunit escape ih =>
    cases inside with
    | plain quote backslash feed inside =>
      rw [List.cons_append, bodyUnits, ih inside, List.append_assoc]
      · exact fun _ same _ => backslash same
      · exact fun _ _ same _ => backslash same
    | escape feed inside => exact absurd rfl (escape _ _ rfl)

theorem finish_decode (body : List Char) :
    (decode .empty body).finish = String.ofList (Utf16.lossy (bodyUnits body)) := by
  obtain ⟨waits, decoded⟩ := ahead_decode waits_empty body []
  rw [← String.toList_inj, toList_finish waits, decoded, List.append_nil, String.toList_ofList]
  rfl

theorem finish_decode_backslash (body : List Char) :
    ((decode .empty body).push '\\').finish =
      String.ofList (Utf16.lossy (bodyUnits body ++ Utf16.units '\\')) := by
  obtain ⟨waits, decoded⟩ := ahead_decode waits_empty body (Utf16.units '\\')
  rw [← String.toList_inj, toList_finish waits_push, ahead_push waits, List.append_nil, decoded,
    String.toList_ofList]
  rfl

theorem token_of_string (lexeme : Lexeme token ('"' :: later) rest) :
    token = .string (String.ofList (Utf16.lossy (bodyUnits (content later)))) := by
  generalize all : '"' :: later = chars at lexeme
  cases lexeme with
  | identifier first =>
    cases all
    exact absurd first (by decide)
  | @numeral n _ formed =>
    obtain ⟨c, whole, same⟩ := List.exists_cons_of_ne_nil formed.nonempty
    have digit := formed.whole c (by simp [same])
    rw [Parts.chars, same, List.cons_append, List.cons.injEq] at all
    rw [← all.1] at digit
    exact absurd digit (by decide)
  | @closed body _ inside =>
    cases all
    rw [content_append inside ['"'], content, List.append_nil, finish_decode]
  | @cut body _ inside cuts =>
    cases all
    have whole := content_append inside []
    rw [content, List.append_nil] at whole
    rw [whole, finish_decode]
  | @cutEscape body _ inside cuts =>
    cases all
    have whole : content (body ++ ['\\']) = body ++ ['\\'] := content_append inside _
    rw [whole, bodyUnits_backslash inside, finish_decode_backslash]
  | @symbol s => cases s <;> cases all
  | unknown blank identifier digit quote =>
    cases all
    exact absurd rfl quote

end Content

theorem Splits.exists_longest {chars lexeme : List Char} {pieces : List Piece} {token : Token}
    (splits : Splits chars pieces) (member : Piece.lexeme token lexeme ∈ pieces) :
    ∃ rest, Longest token lexeme rest := by
  induction splits with
  | nil => cases member
  | blank skipped later ih =>
    rcases List.mem_cons.mp member with same | member
    · cases same
    · exact ih member
  | lexeme longest later ih =>
    rcases List.mem_cons.mp member with same | member
    · cases same
      exact ⟨_, longest⟩
    · exact ih member

/-- Every lexeme that begins with a quote is a string token, and the value of the token is the
decoding of the units that stand between its quotes or before its cut. -/
theorem tokenize_decodes (source : String) :
    ∃ pieces, Splits source.toList pieces ∧ tokenize source = tokens .start pieces ∧
      ∀ token chars, Piece.lexeme token chars ∈ pieces → ∀ later, chars = '"' :: later →
        token = .string (String.ofList (Utf16.lossy (bodyUnits (content later)))) := by
  obtain ⟨pieces, splits⟩ := exists_splits source.toList
  refine ⟨pieces, splits, ?_, ?_⟩
  · rw [tokenize_eq]
    exact splits.tokens_eq .start
  · intro token chars member later same
    obtain ⟨rest, longest⟩ := splits.exists_longest member
    exact token_of_string (same ▸ longest.lexeme)

/-- A pair, half a pair before a broken unit, and a backslash at the end. -/
theorem tokenize_decodes_broken :
    ∃ pieces, Splits "\"\\ud83d\\uDE00\\uD83D\\u12g\\w\\".toList pieces ∧
      tokens .start pieces = [⟨.string "😀\uFFFD\\ug\\w\\", ⟨1, 1⟩⟩, ⟨.terminal, ⟨1, 28⟩⟩] ∧
      String.ofList (Utf16.lossy (bodyUnits (content
        "\\ud83d\\uDE00\\uD83D\\u12g\\w\\".toList))) = "😀\uFFFD\\ug\\w\\" := by
  obtain ⟨pieces, splits, same, -⟩ := tokenize_decodes "\"\\ud83d\\uDE00\\uD83D\\u12g\\w\\"
  refine ⟨pieces, splits, ?_, ?_⟩
  · rw [← same]
    decide +kernel
  · decide +kernel

end DemandLex.Grammar
