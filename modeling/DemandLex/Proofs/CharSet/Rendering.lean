import DemandLex.CharSet
import DemandLex.Proofs.Decimal.NumeralText

/-! The text of a character set is read back as the spans that it shows. The reader knows nothing of how
the text is written: a brace at both ends, a comma and a space between two spans, and in each span two
decimal numbers with two dots between them. -/

namespace DemandLex.CharSet

open Decimal

def readNumber? (digits : List Char) : Option Nat :=
  if digits ≠ [] ∧ digits.all isDigit then some (value digits) else none

/-- A span with a space in front of it. -/
def readSpan? (text : List Char) : Option (Nat × Nat) :=
  match text.splitOn '.' with
  | [' ' :: first, [], stop] => do
    let first ← readNumber? first
    let stop ← readNumber? stop
    pure (first, stop)
  | _ => none

def readSpans? (text : String) : Option (List (Nat × Nat)) :=
  match text.toList with
  | '\x7b' :: rest =>
    if rest.getLast? = some '\x7d' then
      -- No space stands in front of the first span, so it gets one.
      if rest.dropLast = [] then some [] else ((' ' :: rest.dropLast).splitOn ',').mapM readSpan?
    else none
  | _ => none

section Spans
variable (n : Nat) (span : Nat × Nat)

theorem readNumber?_toString : readNumber? (toString n).toList = some n := by
  have digits : (toString n).toList.all isDigit = true :=
    List.all_eq_true.mpr (isDigit_of_mem_toString n)
  rw [readNumber?, if_pos ⟨toList_toString_ne_nil n, digits⟩, value_toString]

theorem notMem_toString {c : Char} (other : isDigit c = false) : c ∉ (toString n).toList := by
  intro member
  rw [isDigit_of_mem_toString n c member] at other
  cases other

def spanText : List Char := (toString span.1).toList ++ '.' :: '.' :: (toString span.2).toList

theorem readSpan?_spanText : readSpan? (' ' :: spanText span) = some span := by
  have parts : ' ' :: spanText span = ['.'].intercalate
      [' ' :: (toString span.1).toList, [], (toString span.2).toList] := by
    rw [List.intercalate_cons_cons, List.intercalate_cons_cons, List.intercalate_singleton,
      List.append_assoc]
    rfl
  have apart : ∀ part ∈ [' ' :: (toString span.1).toList, [], (toString span.2).toList],
      '.' ∉ part := by
    rw [List.forall_mem_cons, List.forall_mem_cons, List.forall_mem_singleton, List.mem_cons, not_or]
    exact ⟨⟨by decide, notMem_toString span.1 rfl⟩, List.not_mem_nil, notMem_toString span.2 rfl⟩
  rw [readSpan?, parts, List.splitOn_intercalate '.' apart (List.cons_ne_nil _ _)]
  simp only [readNumber?_toString]
  rfl

theorem comma_notMem_spanText : ',' ∉ ' ' :: spanText span := by
  simp only [spanText, List.mem_cons, List.mem_append, not_or]
  exact ⟨by decide, notMem_toString span.1 rfl, by decide, by decide, notMem_toString span.2 rfl⟩

end Spans

/-- Spans one after the other, with a comma and a space between two of them, are spans with a space in
front of each and a comma between two of them. -/
theorem space_cons_intercalate (span : Nat × Nat) (later : List (Nat × Nat)) :
    ' ' :: [',', ' '].intercalate ((span :: later).map spanText) =
      [','].intercalate ((span :: later).map fun span => ' ' :: spanText span) := by
  induction later generalizing span with
  | nil => simp only [List.map_cons, List.map_nil, List.intercalate_singleton]
  | cons next later ih =>
    have rest := ih next
    rw [List.map_cons] at rest ⊢
    simp only [List.map_cons, List.intercalate_cons_cons] at rest ⊢
    rw [← rest]
    simp

theorem mapM_readSpan? (read : List (Nat × Nat)) :
    (read.map fun span => ' ' :: spanText span).mapM readSpan? = some read := by
  induction read with
  | nil => rfl
  | cons span later ih =>
    rw [List.map_cons, List.mapM_cons, readSpan?_spanText, ih]
    rfl

theorem toList_render (s : CharSet) : s.render.toList =
    '\x7b' :: ([',', ' '].intercalate ((spans none s.ranges.breakpoints).map spanText) ++
      ['\x7d']) := by
  have each (span : Nat × Nat) :
      (toString span.1 ++ ".." ++ toString span.2).toList = spanText span := by
    rw [String.toList_append, String.toList_append, List.append_assoc]
    rfl
  rw [render, String.toList_append, String.toList_append, String.toList_intercalate, List.map_map]
  simp only [Function.comp_def, each]
  rfl

/-- A set is read back from its text, span by span. -/
theorem readSpans?_render (s : CharSet) :
    readSpans? s.render = some (spans none s.ranges.breakpoints) := by
  rw [readSpans?, toList_render]
  generalize spans none s.ranges.breakpoints = shown
  simp only [List.getLast?_concat, List.dropLast_concat, if_true]
  cases shown with
  | nil => rfl
  | cons span later =>
    have apart : ∀ part ∈ (span :: later).map fun span => ' ' :: spanText span, ',' ∉ part :=
      List.forall_mem_map.mpr fun span _ => comma_notMem_spanText span
    have nonempty : [',', ' '].intercalate ((span :: later).map spanText) ≠ [] := by
      cases later <;> simp [spanText, List.intercalate_cons_cons]
    rw [if_neg nonempty, space_cons_intercalate, List.splitOn_intercalate ',' apart (by simp),
      mapM_readSpan?]

end DemandLex.CharSet
