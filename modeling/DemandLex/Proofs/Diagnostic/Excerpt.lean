import DemandLex.Proofs.Decimal.NumeralText
import DemandLex.Proofs.Text.Lines
import DemandLex.Proofs.Text.OneLine

/-! A diagnostic line by line: a headline between two empty lines, and the lines of the source around
the error, of which the one with the error is marked and has the caret below it. -/

namespace DemandLex.Diagnostic

open Text Report

structure Row where
  marked : Bool
  number : Nat
  content : List Char
  deriving DecidableEq, Repr

namespace Row

def margin (r : Row) : String :=
  (if r.marked then " → " else "   ") ++ lineNumber r.number ++ " | "

def text (r : Row) : String := r.margin ++ String.ofList r.content

def read? (line : String) : Option Row :=
  match line.toList with
  | ' ' :: mark :: ' ' :: rest =>
    let aligned := rest.dropWhile (· = ' ')
    let digits := aligned.takeWhile Decimal.isDigit
    match aligned.dropWhile Decimal.isDigit with
    | ' ' :: '|' :: ' ' :: content =>
      if digits.isEmpty then none
      else if mark = '→' then some ⟨true, Decimal.value digits, content⟩
      else if mark = ' ' then some ⟨false, Decimal.value digits, content⟩
      else none
    | _ => none
  | _ => none

variable (r : Row)

theorem toList_text : r.text.toList = ' ' :: (if r.marked then '→' else ' ') :: ' ' ::
    (List.replicate (4 - (toString r.number).length) ' ' ++ ((toString r.number).toList ++
      (' ' :: '|' :: ' ' :: r.content))) := by
  rw [text, margin, lineNumber]
  split <;> simp

theorem dropWhile_spaces {digits rest : List Char} (nonempty : digits ≠ [])
    (inside : ∀ c ∈ digits, Decimal.isDigit c = true) (count : Nat) :
    (List.replicate count ' ' ++ (digits ++ rest)).dropWhile (· = ' ') = digits ++ rest := by
  obtain ⟨c, later, rfl⟩ := List.exists_cons_of_ne_nil nonempty
  have digit : Decimal.isDigit c = true := inside c List.mem_cons_self
  have apart : c ≠ ' ' := by
    rintro rfl
    exact absurd digit (by decide)
  rw [List.dropWhile_append_of_pos fun d member => by simp [List.eq_of_mem_replicate member],
    List.cons_append, List.dropWhile_cons_of_neg (by simpa using apart)]

theorem read?_eq {line : String} {mark : Char} {digits content : List Char} {count : Nat}
    (same : line.toList = ' ' :: mark :: ' ' ::
      (List.replicate count ' ' ++ (digits ++ (' ' :: '|' :: ' ' :: content))))
    (nonempty : digits ≠ []) (inside : ∀ c ∈ digits, Decimal.isDigit c = true) :
    read? line =
      if mark = '→' then some ⟨true, Decimal.value digits, content⟩
      else if mark = ' ' then some ⟨false, Decimal.value digits, content⟩ else none := by
  have stops : ∀ c ∈ (' ' :: '|' :: ' ' :: content).head?, Decimal.isDigit c = false := by
    rintro _ ⟨⟩
    decide
  obtain ⟨front, back⟩ := Decimal.takeWhile_isDigit inside stops
  simp only [read?, same, dropWhile_spaces nonempty inside, front, back, List.isEmpty_iff, nonempty,
    if_false]

theorem read?_text : read? r.text = some r := by
  rw [read?_eq r.toList_text (Decimal.toList_toString_ne_nil r.number)
    (Decimal.isDigit_of_mem_toString r.number), Decimal.value_toString]
  obtain ⟨marked, number, content⟩ := r
  cases marked <;> rfl

theorem length_margin : r.margin.length = 6 + max 4 (toString r.number).length := by
  have gutter : (if r.marked then " → " else "   ").length = 3 := by split <;> rfl
  rw [margin, String.length_append, String.length_append, gutter, lineNumber, String.length_append,
    String.length_ofList, List.length_replicate]
  have bar : " | ".length = 3 := rfl
  omega

end Row

def PointsAt (line : String) : Prop := " → ".toList <+: line.toList

def caretLine (p : Position) : String :=
  "        | " ++ String.ofList (List.replicate (p.column - 1) ' ') ++ "^"

section Caret
variable (p : Position)

theorem toList_caretLine :
    (caretLine p).toList = "        | ".toList ++ List.replicate (p.column - 1) ' ' ++ ['^'] := by
  have caret : "^".toList = ['^'] := rfl
  rw [caretLine, String.toList_append, String.toList_append, caret, String.toList_ofList,
    String.toList_ofList]

theorem not_pointsAt_caretLine : ¬PointsAt (caretLine p) := by
  rw [PointsAt, toList_caretLine]
  simp

end Caret

section Rows
variable (source : String)

def excerpt (line : Nat) : List (Nat × String) :=
  ((indexedLines source).take (line - 1 + 3)).drop (line - 1 - 2)

def rows (line : Nat) : List Row :=
  (excerpt source line).map fun (i, content) => ⟨i = line - 1, i + 1, content.toList⟩

def rowAt (line n : Nat) : Row := ⟨n = line, n, (lines source.toList).getD (n - 1) []⟩

theorem rows_eq {line : Nat} (positive : 1 ≤ line) :
    rows source line = (List.range' (max 1 (line - 2))
      (min (lines source.toList).length (line + 2) + 1 - max 1 (line - 2))).map
        (rowAt source line) := by
  apply List.ext_getElem
  · simp only [rows, excerpt, indexedLines, List.length_map, List.length_mapIdx, List.length_drop,
      List.length_take, List.length_range']
    omega
  · intro i bound bound'
    have first : line - 1 - 2 + i + 1 = max 1 (line - 2) + i := by omega
    simp only [rows, excerpt, indexedLines, List.length_map, List.length_mapIdx, List.length_drop,
      List.length_take] at bound
    have inside : line - 1 - 2 + i < (lines source.toList).length := by omega
    have same : line - 1 - 2 + i = line - 1 ↔ max 1 (line - 2) + i = line := by omega
    have place : max 1 (line - 2) + i - 1 = line - 1 - 2 + i := by omega
    simp only [rows, excerpt, indexedLines, List.getElem_map, List.getElem_mapIdx, List.getElem_drop,
      List.getElem_take, List.getElem_range', Nat.one_mul, rowAt, String.toList_ofList, first, same,
      place]
    simp [inside]

end Rows

def headline (p : Position) : String :=
  "Lexical error at line " ++ toString p.line ++ ", column " ++ toString p.column

section Layout
variable (source : String) (e : LexError)

theorem render_lexical : (lexical e).render = headline e.position ++ ": " ++ e.message := rfl

def rowLines (p : Position) (r : Row) : List String :=
  r.text :: if r.marked then [caretLine p] else []

def shownLines : List String :=
  ["", (lexical e).render, ""] ++ (rows source e.position.line).flatMap (rowLines e.position)

theorem foldl_joinLines {α : Type} {step : String → α → String} {linesOf : α → List String}
    (same : ∀ text x, step text x = text ++ joinLines (linesOf x)) (values : List α)
    (text : String) : values.foldl step text = text ++ joinLines (values.flatMap linesOf) := by
  induction values generalizing text with
  | nil => simp [joinLines]
  | cons x later ih =>
    rw [List.foldl_cons, ih, List.flatMap_cons, joinLines_append, same, String.append_assoc]

theorem header_eq : "\nLexical error at line " ++ toString e.position.line ++ ", column " ++
    toString e.position.column ++ ": " ++ e.message ++ "\n\n" =
      joinLines ["", (lexical e).render, ""] := by
  rw [render_lexical]
  unfold headline
  generalize toString e.position.line = line, toString e.position.column = column
  have feed : "\nLexical error at line " = "\n" ++ "Lexical error at line " := by simp
  have feeds : "\n\n" = "\n" ++ "\n" := rfl
  rw [feed, feeds]
  simp only [joinLines, List.map_cons, List.map_nil, String.join_cons, String.join_nil,
    String.empty_append, String.append_empty, String.append_assoc]

theorem formatPlain_lexical : formatPlain source (lexical e) = joinLines (shownLines source e) := by
  let p := e.position
  let row (x : Nat × String) : Row := ⟨x.1 = p.line - 1, x.1 + 1, x.2.toList⟩
  let step (text : String) (x : Nat × String) : String :=
    if x.1 = p.line - 1 then
      text ++ " → " ++ lineNumber (x.1 + 1) ++ " | " ++ x.2 ++ "\n" ++ "        | " ++
        String.ofList (List.replicate (p.column - 1) ' ') ++ "^\n"
    else text ++ "   " ++ lineNumber (x.1 + 1) ++ " | " ++ x.2 ++ "\n"
  have same (text : String) (x : Nat × String) :
      step text x = text ++ joinLines (rowLines p (row x)) := by
    by_cases here : x.1 = p.line - 1
    · have feed : "^\n" = "^" ++ "\n" := rfl
      simp only [step, row, rowLines, Row.text, Row.margin, here, joinLines, caretLine, feed,
        decide_true, if_true, List.map_cons, List.map_nil, String.join_cons, String.join_nil,
        String.ofList_toList, String.append_empty, String.append_assoc]
    · simp [step, row, rowLines, Row.text, Row.margin, here, joinLines, String.append_assoc]
  have rowsLines : (rows source p.line).flatMap (rowLines p) =
      (excerpt source p.line).flatMap fun x => rowLines p (row x) := by
    rw [rows, List.flatMap_map]
  calc formatPlain source (lexical e)
    _ = (excerpt source p.line).foldl step ("\nLexical error at line " ++ toString p.line ++
        ", column " ++ toString p.column ++ ": " ++ e.message ++ "\n\n") := rfl
    _ = joinLines ["", (lexical e).render, ""] ++
        joinLines ((rows source p.line).flatMap (rowLines p)) := by
      rw [foldl_joinLines same, header_eq, rowsLines]
    _ = joinLines (shownLines source e) := (joinLines_append _ _).symm

theorem oneLine_lineNumber (n : Nat) : OneLine (lineNumber n) :=
  (oneLine_replicate (by decide) _).append (oneLine_nat n)

theorem oneLine_caretLine (p : Position) : OneLine (caretLine p) :=
  (OneLine.append (by decide) (oneLine_replicate (by decide) _)).append (by decide)

theorem Row.oneLine_text {r : Row} (inside : '\n' ∉ r.content) : OneLine r.text := by
  have gutter : OneLine (if r.marked then " → " else "   ") := by split <;> decide
  exact ((gutter.append (oneLine_lineNumber _)).append (by decide)).append
    (oneLine_ofList.mpr inside)

theorem oneLine_render (single : OneLine e.message) : OneLine (lexical e).render := by
  have place : OneLine (headline e.position) :=
    (((OneLine.append (by decide) (oneLine_nat _)).append (by decide)).append (oneLine_nat _))
  exact (place.append (by decide)).append single

theorem feed_notMem_rows {line : Nat} : ∀ r ∈ rows source line, '\n' ∉ r.content := by
  intro r member
  obtain ⟨x, inside, rfl⟩ := List.mem_map.mp member
  obtain ⟨i, bound, rfl⟩ := List.mem_mapIdx.mp (List.mem_of_mem_take (List.mem_of_mem_drop inside))
  simp only [String.toList_ofList]
  exact feed_notMem_lines _ _ (List.getElem_mem bound)

theorem oneLine_shownLines (single : OneLine e.message) :
    ∀ line ∈ shownLines source e, OneLine line := by
  have empty : OneLine "" := by decide
  intro line member
  rcases List.mem_append.mp member with member | member
  · simp only [List.mem_cons, List.not_mem_nil, or_false] at member
    rcases member with rfl | rfl | rfl
    · exact empty
    · exact oneLine_render e single
    · exact empty
  · obtain ⟨r, inside, member⟩ := List.mem_flatMap.mp member
    rcases List.mem_cons.mp member with rfl | member
    · exact Row.oneLine_text (feed_notMem_rows source r inside)
    · split at member
      · rw [List.mem_singleton.mp member]
        exact oneLine_caretLine e.position
      · cases member

theorem exists_headline (p : Position) : ∃ later, headline p = "Lexical error at line " ++ later := by
  unfold headline
  exact ⟨_, (String.append_assoc ..).trans (String.append_assoc ..)⟩

theorem exists_render : ∃ later, (lexical e).render = "Lexical error at line " ++ later := by
  obtain ⟨place, headed⟩ := exists_headline e.position
  rw [render_lexical, headed]
  exact ⟨_, (String.append_assoc ..).trans (String.append_assoc ..)⟩

theorem not_pointsAt_header : ∀ line ∈ ["", (lexical e).render, ""], ¬PointsAt line := by
  obtain ⟨later, headed⟩ := exists_render e
  simp [PointsAt, headed]

theorem pointsAt_text {r : Row} : PointsAt r.text ↔ r.marked = true := by
  rw [PointsAt, r.toList_text]
  cases r.marked <;> simp

theorem exists_rows {line : Nat} (positive : 1 ≤ line)
    (inside : line ≤ (lines source.toList).length) :
    ∃ above below, rows source line = above ++ rowAt source line line :: below ∧
      ∀ r ∈ above ++ below, r.marked = false := by
  let first := max 1 (line - 2)
  let last := min (lines source.toList).length (line + 2)
  have count : last + 1 - first = (line - first) + ((last - line) + 1) := by omega
  have here : first + (line - first) = line := by omega
  refine ⟨(List.range' first (line - first)).map (rowAt source line),
    (List.range' (line + 1) (last - line)).map (rowAt source line), ?_, ?_⟩
  · rw [rows_eq source positive, count, ← List.range'_append_1, here, List.range'_succ,
      List.map_append, List.map_cons]
  · intro r member
    rw [← List.map_append] at member
    obtain ⟨n, among, rfl⟩ := List.mem_map.mp member
    have other : n ≠ line := by
      rcases List.mem_append.mp among with among | among
      · have bounds := List.mem_range'_1.mp among
        omega
      · have bounds := List.mem_range'_1.mp among
        omega
    simpa [rowAt] using other

theorem flatMap_rowLines {p : Position} {rs : List Row} (unmarked : ∀ r ∈ rs, r.marked = false) :
    rs.flatMap (rowLines p) = rs.map Row.text := by
  induction rs with
  | nil => rfl
  | cons r later ih =>
    obtain ⟨first, others⟩ := List.forall_mem_cons.mp unmarked
    rw [List.flatMap_cons, ih others, rowLines, first]
    rfl

/-- The lines around the caret: the header and the rows above, the marked row, and the rows below. Only
the marked row has the arrow. -/
theorem exists_shownLines (positive : 1 ≤ e.position.line)
    (inside : e.position.line ≤ (lines source.toList).length) :
    let arrow := rowAt source e.position.line e.position.line
    ∃ above below, rows source e.position.line = above ++ arrow :: below ∧
      shownLines source e = ["", (lexical e).render, ""] ++ above.map Row.text ++
        arrow.text :: caretLine e.position :: below.map Row.text ∧
      PointsAt arrow.text ∧
      ∀ line ∈ ["", (lexical e).render, ""] ++ above.map Row.text ++
        caretLine e.position :: below.map Row.text, ¬PointsAt line := by
  intro arrow
  obtain ⟨above, below, split, unmarked⟩ := exists_rows source positive inside
  obtain ⟨first, second⟩ := List.forall_mem_append.mp unmarked
  have marked : arrow.marked = true := decide_eq_true rfl
  have around {rs : List Row} (others : ∀ r ∈ rs, r.marked = false) :
      ∀ line ∈ rs.map Row.text, ¬PointsAt line := by
    intro line member
    obtain ⟨r, among, rfl⟩ := List.mem_map.mp member
    rw [pointsAt_text, others r among]
    exact Bool.false_ne_true
  refine ⟨above, below, split, ?_, pointsAt_text.mpr marked, ?_⟩
  · have both : rowLines e.position arrow = [arrow.text, caretLine e.position] := by
      rw [rowLines, marked]
      rfl
    rw [shownLines, split, List.flatMap_append, List.flatMap_cons, flatMap_rowLines first,
      flatMap_rowLines second, both]
    rfl
  · intro line member
    rcases List.mem_append.mp member with member | member
    · rcases List.mem_append.mp member with member | member
      · exact not_pointsAt_header e line member
      · exact around first line member
    · rcases List.mem_cons.mp member with rfl | member
      · exact not_pointsAt_caretLine e.position
      · exact around second line member

end Layout

end DemandLex.Diagnostic
