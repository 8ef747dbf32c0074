import DemandLex.Position
import DemandLex.Text.Lines
import Mathlib.Data.List.Basic

/-! Lines and positions. Positions count line feeds only, and lines lose the carriage return in front
of a line feed too; so both agree about every other character. -/

namespace DemandLex.Text

/-- What the line feeds cut a text into, with what has been read of the first piece in front. -/
def pieces (current text : List Char) : List (List Char) :=
  (splitFeeds current text).1 ++ [(splitFeeds current text).2.reverse]

variable {c : Char} {piece current front back : List Char} (text : List Char)

theorem pieces_feed : pieces current ('\n' :: text) = current.reverse :: pieces [] text := rfl

theorem pieces_cons (other : c ≠ '\n') :
    pieces current (c :: text) = pieces (c :: current) text := by
  simp only [pieces, splitFeeds]

/-- What has been read of the first piece stays in front of it. -/
theorem getElem?_pieces_zero (current : List Char) :
    ∃ later, (pieces current text)[0]? = some (current.reverse ++ later) := by
  induction text generalizing current with
  | nil => exact ⟨[], by simp [pieces, splitFeeds]⟩
  | cons c text ih =>
    by_cases feed : c = '\n'
    · subst feed
      exact ⟨[], by simp [pieces_feed]⟩
    · obtain ⟨later, first⟩ := ih (c :: current)
      refine ⟨c :: later, ?_⟩
      rw [pieces_cons _ feed, first, List.reverse_cons, List.append_assoc]
      rfl

/-- A character is in the piece behind as many line feeds as are in front of it, at the place that
its column says. -/
theorem getElem?_pieces (other : c ≠ '\n') {p : Position} (column : p.column = current.length + 1) :
    ∃ piece, (pieces current (front ++ c :: back))[front.count '\n']? = some piece ∧
      piece[(front.foldl Position.advance p).column - 1]? = some c := by
  induction front generalizing current p with
  | nil =>
    obtain ⟨later, first⟩ := getElem?_pieces_zero back (c :: current)
    refine ⟨_, by rw [List.nil_append, pieces_cons _ other, List.count_nil, first], ?_⟩
    simp [column]
  | cons d front ih =>
    by_cases feed : d = '\n'
    · subst feed
      have next : (p.advance '\n').column = ([] : List Char).length + 1 := by simp [Position.advance]
      obtain ⟨piece, found, place⟩ := ih next
      refine ⟨piece, ?_, place⟩
      rw [List.cons_append, pieces_feed, List.count_cons_self, List.getElem?_cons_succ, found]
    · have next : (p.advance d).column = (d :: current).length + 1 := by
        simp [Position.advance, feed, column]
      obtain ⟨piece, found, place⟩ := ih next
      refine ⟨piece, ?_, place⟩
      rw [List.cons_append, pieces_cons _ feed, List.count_cons_of_ne feed, found]

theorem getElem?_dropReturn {i : Nat} (found : piece[i]? = some c) (other : c ≠ '\x0d') :
    (dropReturn piece)[i]? = some c := by
  rw [dropReturn]
  split
  · next last =>
    have bound : i < piece.length := (List.getElem?_eq_some_iff.mp found).1
    have before : i < piece.length - 1 := by
      by_contra ends
      have same : i = piece.length - 1 := by omega
      rw [List.getLast?_eq_getElem?, ← same, found] at last
      exact other (Option.some.inj last)
    rw [List.getElem?_dropLast, if_pos before, found]
  · exact found

theorem dropReturn_sublist (line : List Char) : (dropReturn line).Sublist line := by
  rw [dropReturn]
  split
  · exact List.dropLast_sublist line
  · exact List.Sublist.refl line

theorem getElem?_lines {i j : Nat} (found : (pieces [] text)[i]? = some piece)
    (place : piece[j]? = some c) (other : c ≠ '\x0d') :
    ∃ content, (lines text)[i]? = some content ∧ content[j]? = some c := by
  rw [pieces] at found
  rw [lines]
  by_cases ended : i < (splitFeeds [] text).1.length
  · rw [List.getElem?_append_left ended] at found
    refine ⟨dropReturn piece, ?_, getElem?_dropReturn place other⟩
    rw [List.getElem?_append_left (by simpa using ended), List.getElem?_map, found]
    rfl
  · rw [List.getElem?_append_right (by omega), List.getElem?_singleton] at found
    split at found
    · next last =>
      cases found
      have some : (splitFeeds [] text).2.isEmpty = false := by
        rw [List.isEmpty_eq_false_iff]
        intro empty
        rw [empty] at place
        cases place
      refine ⟨_, ?_, place⟩
      rw [List.getElem?_append_right (by rw [List.length_map]; omega), List.length_map, last, some]
      rfl
    · cases found

theorem lines_feed : lines ('\n' :: text) = [] :: lines text := rfl

theorem exists_line (front back : List Char) (feed : c ≠ '\n') (return_ : c ≠ '\x0d') :
    ∃ content, (lines (front ++ c :: back))[front.count '\n']? = some content ∧
      content[(front.foldl Position.advance .start).column - 1]? = some c := by
  have first : Position.start.column = ([] : List Char).length + 1 := rfl
  obtain ⟨piece, found, place⟩ := getElem?_pieces feed first
  exact getElem?_lines _ found place return_

theorem feed_notMem_splitFeeds (fresh : '\n' ∉ current) :
    (∀ line ∈ (splitFeeds current text).1, '\n' ∉ line) ∧ '\n' ∉ (splitFeeds current text).2 := by
  induction text generalizing current with
  | nil => exact ⟨nofun, fresh⟩
  | cons c text ih =>
    by_cases feed : c = '\n'
    · subst feed
      have none : '\n' ∉ ([] : List Char) := List.not_mem_nil
      obtain ⟨ended, last⟩ := ih none
      exact ⟨List.forall_mem_cons.mpr ⟨by simpa using fresh, ended⟩, last⟩
    · have kept : '\n' ∉ c :: current := List.not_mem_cons_of_ne_of_not_mem (Ne.symm feed) fresh
      simpa only [splitFeeds] using ih kept

theorem feed_notMem_lines : ∀ line ∈ lines text, '\n' ∉ line := by
  obtain ⟨ended, last⟩ := feed_notMem_splitFeeds text List.not_mem_nil
  intro line member
  rw [lines] at member
  rcases List.mem_append.mp member with member | member
  · obtain ⟨piece, inside, rfl⟩ := List.mem_map.mp member
    exact fun feed => ended piece inside ((dropReturn_sublist piece).mem feed)
  · split at member
    · cases member
    · rw [List.mem_singleton.mp member, List.mem_reverse]
      exact last

/-- Of two carriage returns one stays, and a carriage return at the end of the text stays too. -/
example : lines "a\r\r\n\nb\r".toList = ["a\r".toList, [], "b\r".toList] := by decide

end DemandLex.Text
