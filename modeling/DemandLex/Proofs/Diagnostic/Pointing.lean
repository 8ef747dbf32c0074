import DemandLex.Proofs.Diagnostic.Excerpt
import DemandLex.Proofs.Lexer.Lines
import DemandLex.Proofs.Lexer.MaximalMunch

/-! Diagnostics of a source point at the character that they are about: it is on the line that is
marked, at the column that is told, and the caret is below it as long as the number of the line takes
no more than the four columns kept for it. -/

namespace DemandLex

open Grammar LexState

namespace Position

theorem column_advances {p : Position} (positive : 1 ≤ p.column) (chars : List Char) :
    1 ≤ (chars.foldl advance p).column := by
  induction chars generalizing p with
  | nil => exact positive
  | cons c later ih =>
    apply ih
    rw [advance]
    split
    · exact Nat.le_refl 1
    · exact Nat.succ_pos _

end Position

theorem Grammar.Splits.exists_unknown {chars : List Char} {pieces : List Piece} {c : Char}
    {p q : Position} (splits : Splits chars pieces)
    (member : ⟨.unknownCharacter c, q⟩ ∈ tokens p pieces) :
    ∃ front back, chars = front ++ c :: back ∧ q = front.foldl Position.advance p ∧
      isBlank c = false := by
  induction splits generalizing p with
  | nil =>
    have last := List.mem_singleton.mp member
    cases last
  | @blank d rest pieces skipped later ih =>
    obtain ⟨front, back, rfl, place, other⟩ := ih member
    exact ⟨d :: front, back, rfl, place, other⟩
  | @lexeme token piece rest pieces longest later ih =>
    rcases List.mem_cons.mp member with here | behind
    · obtain ⟨same, place⟩ := Located.mk.inj here
      have lexeme := longest.lexeme
      rw [← same] at lexeme
      cases lexeme with
      | unknown blank => exact ⟨[], rest, rfl, place, blank⟩
    · obtain ⟨front, back, rfl, place, other⟩ := ih behind
      exact ⟨piece ++ front, back, by rw [List.append_assoc], by rw [List.foldl_append, place],
        other⟩

namespace LexError

theorem exists_token {e : LexError} {ts : List Located} (reported : e ∈ ofTokens ts) :
    ∃ c, ⟨.unknownCharacter c, e.position⟩ ∈ ts ∧
      e.message = "Unknown character " ++ Text.quoteChar c := by
  obtain ⟨t, member, found⟩ := List.mem_filterMap.mp reported
  obtain ⟨token, position⟩ := t
  cases token with
  | unknownCharacter c =>
    cases found
    exact ⟨c, member, rfl⟩
  | _ => cases found

theorem mem_ofTokens_sign {p : Position} {ts : List Located}
    (member : ⟨.unknownCharacter '#', p⟩ ∈ ts) : ⟨"Unknown character '#'", p⟩ ∈ ofTokens ts := by
  have quoted : "Unknown character " ++ Text.quoteChar '#' = "Unknown character '#'" := by
    decide +kernel
  rw [← quoted]
  exact List.mem_filterMap.mpr ⟨_, member, rfl⟩

theorem exists_content {c : Char} {p : Position} {source : String}
    (member : ⟨.unknownCharacter c, p⟩ ∈ tokenize source) :
    1 ≤ p.line ∧ 1 ≤ p.column ∧ ∃ content,
      (Text.lines source.toList)[p.line - 1]? = some content ∧ content[p.column - 1]? = some c := by
  obtain ⟨pieces, splits⟩ := exists_splits source.toList
  rw [tokenize_eq, splits.tokens_eq] at member
  obtain ⟨front, back, same, place, other⟩ := splits.exists_unknown member
  have feed : c ≠ '\n' := by
    rintro rfl
    exact absurd other (by decide)
  have return_ : c ≠ '\x0d' := by
    rintro rfl
    exact absurd other (by decide)
  have line : p.line = 1 + front.count '\n' := by
    rw [place, Position.line_advances]
    rfl
  obtain ⟨content, found, character⟩ := Text.exists_line front back feed return_
  refine ⟨by omega, place ▸ Position.column_advances (Nat.le_refl 1) front, content, ?_,
    place ▸ character⟩
  rw [same, line, Nat.add_sub_cancel_left, found]

theorem oneLine_message {e : LexError} {c : Char}
    (same : e.message = "Unknown character " ++ Text.quoteChar c) : Text.OneLine e.message := by
  rw [same]
  exact Text.OneLine.append (by decide) (Text.oneLine_quoteChar c)

end LexError

namespace Diagnostic

open Text Report

theorem exists_lines {source : String} {e : LexError}
    (reported : e ∈ LexError.ofTokens (tokenize source)) :
    let L := e.position.line
    let C := e.position.column
    let lines := lines source.toList
    ∃ c content, (⟨.unknownCharacter c, e.position⟩ : Located) ∈ tokenize source ∧
      e.message = "Unknown character " ++ quoteChar c ∧ (1 ≤ L ∧ L ≤ lines.length ∧ 1 ≤ C) ∧
      lines[L - 1]? = some content ∧ content[C - 1]? = some c ∧
      ∃ (above below : List Row),
        let arrow : Row := ⟨true, L, content⟩
        let header := ["", (lexical e).render, ""]
        let shown := header ++ above.map Row.text ++ arrow.text :: caretLine e.position ::
          below.map Row.text
        formatPlain source (lexical e) = joinLines shown ∧ (∀ line ∈ shown, OneLine line) ∧
        above ++ arrow :: below = rows source L ∧ PointsAt arrow.text ∧
        ∀ line ∈ header ++ above.map Row.text ++ caretLine e.position :: below.map Row.text,
          ¬PointsAt line := by
  intro L C lines
  obtain ⟨c, member, message⟩ := LexError.exists_token reported
  obtain ⟨positive, place, content, found, character⟩ := LexError.exists_content member
  have inside : L - 1 < lines.length := (List.getElem?_eq_some_iff.mp found).1
  have bound : L ≤ lines.length := by omega
  have here : rowAt source L L = ⟨true, L, content⟩ := by
    rw [rowAt, List.getD_eq_getElem?_getD, found]
    simp
  obtain ⟨above, below, split, shown, points, others⟩ := exists_shownLines source e positive bound
  have single := oneLine_shownLines source e (LexError.oneLine_message message)
  rw [here] at split shown points
  rw [shown] at single
  refine ⟨c, content, member, message, ⟨positive, bound, place⟩, found, character, above, below, ?_,
    single, split.symm, points, others⟩
  rw [formatPlain_lexical, shown]

/-- An error of a source is about a character of the line that it names, at the column that it names.
Its diagnostic has a headline between two empty lines, and then exactly the lines of the source from
two above that line to two below it, as far as there are such lines, each with its number. The arrow
is in front of that line and of no other, and the caret is on the next. -/
theorem points_at_error {source : String} {e : LexError}
    (reported : e ∈ LexError.ofTokens (tokenize source)) :
    let L := e.position.line
    let C := e.position.column
    let lines := lines source.toList
    ∃ c content, (⟨.unknownCharacter c, e.position⟩ : Located) ∈ tokenize source ∧
      e.message = "Unknown character " ++ quoteChar c ∧ (1 ≤ L ∧ L ≤ lines.length ∧ 1 ≤ C) ∧
      lines[L - 1]? = some content ∧ content[C - 1]? = some c ∧
      ∃ (above below : List String) (arrow caret : String),
        let header := ["", (lexical e).render, ""]
        let shown := header ++ above ++ arrow :: caret :: below
        formatPlain source (lexical e) = joinLines shown ∧ (∀ line ∈ shown, OneLine line) ∧
        (above ++ arrow :: below).map Row.read? =
          (List.range' (max 1 (L - 2)) (min lines.length (L + 2) + 1 - max 1 (L - 2))).map
            (fun n => some ⟨n = L, n, lines.getD (n - 1) []⟩) ∧
        Row.read? arrow = some ⟨true, L, content⟩ ∧
        caret.toList = "        | ".toList ++ List.replicate (C - 1) ' ' ++ ['^'] ∧
        PointsAt arrow ∧ ∀ line ∈ header ++ above ++ caret :: below, ¬PointsAt line := by
  intro L C lines
  obtain ⟨c, content, member, message, bounds, found, character, above, below, same, single, split,
    points, others⟩ := exists_lines reported
  let arrow : Row := ⟨true, L, content⟩
  refine ⟨c, content, member, message, bounds, found, character, above.map Row.text,
    below.map Row.text, arrow.text, caretLine e.position, same, single, ?_, arrow.read?_text,
    toList_caretLine e.position, points, others⟩
  have texts : above.map Row.text ++ arrow.text :: below.map Row.text =
      (rows source L).map Row.text := by
    rw [← split, List.map_append, List.map_cons]
  rw [texts, rows_eq source bounds.1, List.map_map, List.map_map]
  exact List.map_congr_left fun n _ => Row.read?_text _

/-- A carriage return ends a line only in front of a line feed, and a string without an end is no
error. -/
theorem points_at_error_returns :
    let source := "a\r\n\"x\n# \r#"
    let e : LexError := ⟨"Unknown character '#'", ⟨3, 4⟩⟩
    e ∈ LexError.ofTokens (tokenize source) ∧
      ∃ (above below : List String) (arrow caret : String),
        formatPlain source (lexical e) =
          joinLines (["", (lexical e).render, ""] ++ above ++ arrow :: caret :: below) ∧
        (above ++ arrow :: below).map Row.read? =
          [some ⟨false, 1, ['a']⟩, some ⟨false, 2, ['"', 'x']⟩,
            some ⟨true, 3, ['#', ' ', '\x0d', '#']⟩] ∧
        Row.read? arrow = some ⟨true, 3, ['#', ' ', '\x0d', '#']⟩ ∧
        caret = "        |    ^" := by
  intro source e
  have member : ⟨.unknownCharacter '#', ⟨3, 4⟩⟩ ∈ tokenize source := by decide +kernel
  have reported : e ∈ LexError.ofTokens (tokenize source) := LexError.mem_ofTokens_sign member
  obtain ⟨c, content, -, -, -, found, -, above, below, arrow, caret, same, -, split, marked, place,
    -⟩ := points_at_error reported
  have third : (lines source.toList)[3 - 1]? = some ['#', ' ', '\x0d', '#'] := by decide
  obtain rfl : _ = content := Option.some.inj (third.symm.trans found)
  exact ⟨reported, above, below, arrow, caret, same, split.trans (by decide), marked,
    String.toList_inj.mp place⟩

section Caret
variable {source : String} {e : LexError}

theorem idxOf_caretLine (p : Position) : (caretLine p).toList.idxOf '^' = 10 + (p.column - 1) := by
  have fresh : '^' ∉ "        | ".toList ++ List.replicate (p.column - 1) ' ' := by
    rw [List.mem_append, List.mem_replicate]
    rintro (margin | ⟨-, indent⟩)
    · exact absurd margin (by decide)
    · exact absurd indent (by decide)
  have margin : "        | ".toList.length = 10 := rfl
  rw [toList_caretLine, List.idxOf_append_of_notMem fresh, List.idxOf_cons_self, List.length_append,
    List.length_replicate, margin, Nat.add_zero]

theorem count_caretLine (p : Position) : (caretLine p).toList.count '^' = 1 := by
  have margin : "        | ".toList.count '^' = 0 := by decide
  have indent : (List.replicate (p.column - 1) ' ').count '^' = 0 :=
    List.count_eq_zero.mpr fun member => absurd (List.eq_of_mem_replicate member) (by decide)
  rw [toList_caretLine, List.count_append, List.count_append, margin, indent,
    List.count_singleton_self]

theorem length_toString_le_four {n : Nat} : (toString n).length ≤ 4 ↔ n < 10000 := by
  rw [← String.length_toList, Decimal.toList_toString,
    Nat.length_toDigits_le_iff (by decide) (by decide)]

/-- In the diagnostic of an error of a source, the caret is below the character that the error is
about as long as the number of the line has no more than four digits. The margin of the arrow's line
grows by every further digit and that of the caret's line does not, so the caret is then too far left
by so many places. -/
theorem caret_below_character (reported : e ∈ LexError.ofTokens (tokenize source)) :
    let L := e.position.line
    let C := e.position.column
    ∃ (c : Char) (front back : List String) (arrow caret : String) (margin content : List Char),
      e.message = "Unknown character " ++ quoteChar c ∧
      formatPlain source (lexical e) = joinLines (front ++ arrow :: caret :: back) ∧
      (∀ line ∈ front ++ arrow :: caret :: back, OneLine line) ∧
      PointsAt arrow ∧ (∀ line ∈ front ++ caret :: back, ¬PointsAt line) ∧
      Row.read? arrow = some ⟨true, L, content⟩ ∧
      (lines source.toList)[L - 1]? = some content ∧ content[C - 1]? = some c ∧
      arrow.toList = margin ++ content ∧ arrow.toList[margin.length + (C - 1)]? = some c ∧
      caret.toList.count '^' = 1 ∧
      caret.toList.idxOf '^' + ((toString L).length - 4) = margin.length + (C - 1) ∧
      (caret.toList.idxOf '^' = margin.length + (C - 1) ↔ L < 10000) := by
  intro L C
  obtain ⟨c, content, -, message, -, found, character, above, below, same, single, -, points,
    others⟩ := exists_lines reported
  let arrow : Row := ⟨true, L, content⟩
  have text : arrow.text.toList = arrow.margin.toList ++ content := by
    rw [Row.text, String.toList_append, String.toList_ofList]
  have margin : arrow.margin.toList.length = 6 + max 4 (toString L).length := by
    rw [String.length_toList, Row.length_margin]
  have stands : arrow.text.toList[arrow.margin.toList.length + (C - 1)]? = some c := by
    rw [text, List.getElem?_append_right (Nat.le_add_right _ _), Nat.add_sub_cancel_left, character]
  have caret : (caretLine e.position).toList.idxOf '^' = 10 + (C - 1) := idxOf_caretLine e.position
  have short : (toString L).length ≤ 4 ↔ L < 10000 := length_toString_le_four
  refine ⟨c, _, below.map Row.text, arrow.text, caretLine e.position, arrow.margin.toList, content,
    message, same, single, points, others, arrow.read?_text, found, character, text, stands,
    count_caretLine e.position, ?_, ?_⟩
  · rw [caret, margin]
    omega
  · rw [caret, margin, ← short]
    omega

/-- An error on the first line. -/
theorem caret_below_character_first :
    let source := "[1, #]"
    let e : LexError := ⟨"Unknown character '#'", ⟨1, 5⟩⟩
    e ∈ LexError.ofTokens (tokenize source) ∧
      ∃ (front back : List String) (arrow caret : String),
        formatPlain source (lexical e) = joinLines (front ++ arrow :: caret :: back) ∧
        PointsAt arrow ∧ arrow.toList[caret.toList.idxOf '^']? = some '#' := by
  intro source e
  have member : ⟨.unknownCharacter '#', ⟨1, 5⟩⟩ ∈ tokenize source := by decide +kernel
  have reported : e ∈ LexError.ofTokens (tokenize source) := LexError.mem_ofTokens_sign member
  obtain ⟨c, front, back, arrow, caret, margin, content, -, same, -, points, -, -, found, character,
    -, stands, -, -, aligned⟩ := caret_below_character reported
  have first : (lines source.toList)[1 - 1]? = some source.toList := by decide
  obtain rfl : _ = content := Option.some.inj (first.symm.trans found)
  have fifth : source.toList[5 - 1]? = some '#' := by decide
  obtain rfl : '#' = c := Option.some.inj (fifth.symm.trans character)
  rw [← aligned.mpr (by decide)] at stands
  exact ⟨reported, front, back, arrow, caret, same, points, stands⟩

end Caret

section FifthDigit

def belowFeeds (n : Nat) : String := String.ofList (List.replicate n '\n' ++ ['#'])

theorem lines_belowFeeds (n : Nat) :
    lines (belowFeeds n).toList = List.replicate n [] ++ [['#']] := by
  rw [belowFeeds, String.toList_ofList]
  induction n with
  | zero => rfl
  | succ n ih =>
    rw [List.replicate_succ, List.replicate_succ, List.cons_append, List.cons_append, lines_feed, ih]

theorem mem_tokenize_belowFeeds (n : Nat) :
    (⟨.unknownCharacter '#', ⟨n + 1, 1⟩⟩ : Located) ∈ tokenize (belowFeeds n) := by
  rw [belowFeeds]
  induction n with
  | zero => decide +kernel
  | succ n ih =>
    have feed := tokenize_feed [] (List.replicate n '\n' ++ ['#'])
    rw [List.nil_append] at feed
    rw [List.replicate_succ, List.cons_append, feed]
    exact List.mem_append_right _ (List.mem_map_of_mem ih)

theorem rows_belowFeeds {n : Nat} (many : 2 ≤ n) :
    rows (belowFeeds n) (n + 1) = [⟨false, n - 1, []⟩, ⟨false, n, []⟩, ⟨true, n + 1, ['#']⟩] := by
  have count : (lines (belowFeeds n).toList).length = n + 1 := by simp [lines_belowFeeds]
  have first : max 1 (n + 1 - 2) = n - 1 := by omega
  have three : min (n + 1) (n + 1 + 2) + 1 - (n - 1) = 3 := by omega
  have empty {i : Nat} (above : i < n) : (lines (belowFeeds n).toList).getD i [] = [] := by
    rw [lines_belowFeeds, List.getD_eq_getElem?_getD,
      List.getElem?_append_left (by simpa using above)]
    simp [above]
  have last : (lines (belowFeeds n).toList).getD n [] = ['#'] := by simp [lines_belowFeeds]
  have next : n - 1 + 1 = n := by omega
  have numbers : List.range' (n - 1) 3 = [n - 1, n, n + 1] := by simp only [List.range', next]
  rw [rows_eq _ (Nat.le_add_left 1 n), count, first, three, numbers]
  simp only [List.map_cons, List.map_nil, rowAt, Nat.add_sub_cancel, last]
  rw [empty (by omega), empty (by omega)]
  simp

/-- A number of five digits moves the content of its line one place to the right, and the caret stays
where it is. -/
theorem caret_misplaced :
    let source := belowFeeds 9999
    let e : LexError := ⟨"Unknown character '#'", ⟨10000, 1⟩⟩
    let arrow := " → 10000 | #"
    let caret := "        | ^"
    e ∈ LexError.ofTokens (tokenize source) ∧
      formatPlain source (lexical e) = joinLines ["",
        "Lexical error at line 10000, column 1: Unknown character '#'", "", "   9998 | ",
        "   9999 | ", arrow, caret] ∧
      arrow.toList.idxOf '#' = 11 ∧ caret.toList.idxOf '^' = 10 := by
  intro source e arrow caret
  have reported : e ∈ LexError.ofTokens (tokenize source) :=
    LexError.mem_ofTokens_sign (mem_tokenize_belowFeeds 9999)
  have shown : rows source e.position.line =
      [⟨false, 9998, []⟩, ⟨false, 9999, []⟩, ⟨true, 10000, ['#']⟩] := rows_belowFeeds (by decide)
  have same : formatPlain source (lexical e) = joinLines ["",
      "Lexical error at line 10000, column 1: Unknown character '#'", "", "   9998 | ",
      "   9999 | ", arrow, caret] := by
    rw [formatPlain_lexical, shownLines, shown]
    decide +kernel
  exact ⟨reported, same, by decide, by decide⟩

end FifthDigit

end Diagnostic

end DemandLex
