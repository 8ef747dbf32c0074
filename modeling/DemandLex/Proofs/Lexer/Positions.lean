import DemandLex.Proofs.Lexer.Demand
import DemandLex.Proofs.Sequence.Taking
import Mathlib.Data.List.DropRight

/-! The positions of tagged characters in closed form: the line counts the line feeds in front of the
character, and the column the characters behind the last of these. The scan that tags the characters
of a lazy sequence carries just that position. -/

namespace DemandLex

namespace Position

def behind (front : List Char) : Position :=
  ⟨1 + front.count '\n', 1 + (front.rtakeWhile (· ≠ '\n')).length⟩

theorem behind_concat (front : List Char) (c : Char) :
    behind (front ++ [c]) = (behind front).advance c := by
  rw [behind, behind, advance, List.count_append]
  by_cases feed : c = '\n'
  · rw [if_pos feed, feed, List.rtakeWhile_concat_neg _ _ _ (by simp)]
    rfl
  · rw [if_neg feed, List.rtakeWhile_concat_pos _ _ _ (by simpa using feed), List.length_append,
      List.count_singleton, if_neg (by simpa using feed)]
    rfl

theorem foldl_advance (front : List Char) : front.foldl advance start = behind front := by
  induction front using List.reverseRecOn with
  | nil => rfl
  | append_singleton front c ih =>
    rw [List.foldl_append, ih, behind_concat]
    rfl

theorem compare_behind_append (front : List Char) (c : Char) (later : List Char) :
    (behind front).compare (behind (front ++ c :: later)) = .lt := by
  induction later using List.reverseRecOn with
  | nil =>
    rw [behind_concat]
    exact compare_advance _ c
  | append_singleton later d ih =>
    rw [← List.cons_append, ← List.append_assoc, behind_concat]
    exact compare_trans ih (compare_advance _ d)

theorem ne_of_compare {p q : Position} (before : p.compare q = .lt) : p ≠ q := by
  rintro rfl
  rw [compare_eq_lt] at before
  omega

theorem compare_behind_take {text : List Char} {i j : Nat} (earlier : i < j)
    (inside : j ≤ text.length) :
    (behind (text.take i)).compare (behind (text.take j)) = .lt ∧
      behind (text.take i) ≠ behind (text.take j) := by
  have here : i < (text.take j).length := by
    rw [List.length_take]
    omega
  have parts : text.take j = text.take i ++ (text.take j)[i] :: (text.take j).drop (i + 1) := by
    rw [← List.drop_eq_getElem_cons here]
    conv_lhs =>
      rw [← List.take_append_drop i (text.take j), List.take_take, Nat.min_eq_left earlier.le]
  have before := compare_behind_append (text.take i) (text.take j)[i] ((text.take j).drop (i + 1))
  rw [← parts] at before
  exact ⟨before, ne_of_compare before⟩

end Position

open Position

namespace Tagged

theorem getElem?_zero_ofChars (p : Position) (chars : List Char) :
    (ofChars p chars)[0]? = some ⟨chars.head?, p⟩ := by
  cases chars <;> rfl

theorem getElem?_ofChars {text : List Char} {i : Nat} (inside : i ≤ text.length) :
    (ofChars start text)[i]? = some ⟨text[i]?, behind (text.take i)⟩ := by
  have parts := ofChars_append start (text.take i) (text.drop i)
  have count : (placed start (text.take i)).length = i := by
    rw [length_placed, List.length_take, Nat.min_eq_left inside]
  rw [List.take_append_drop] at parts
  rw [parts, List.getElem?_append_right count.le, count, Nat.sub_self, getElem?_zero_ofChars,
    foldl_advance, List.head?_drop]

theorem getElem?_placed {text : List Char} {i : Nat} (inside : i < text.length) :
    (placed start text)[i]? = some ⟨text[i]?, behind (text.take i)⟩ := by
  have whole := getElem?_ofChars inside.le
  rwa [ofChars_eq, List.getElem?_append_left (by rwa [length_placed])] at whole

theorem line_of_mem_ofText {source : String} (single : '\n' ∉ source.toList) :
    ∀ x ∈ ofText source, x.position.line = 1 := by
  intro x member
  obtain ⟨i, place⟩ := List.mem_iff_getElem?.mp member
  have inside := (List.getElem?_eq_some_iff.mp place).1
  rw [ofText, length_ofChars] at inside
  rw [ofText, getElem?_ofChars (Nat.le_of_lt_succ inside), Option.some_inj] at place
  have none : (source.toList.take i).count '\n' = 0 :=
    List.count_eq_zero_of_not_mem fun feed => single (List.mem_of_mem_take feed)
  rw [← place, behind, none]

end Tagged

namespace Sequence

variable {ω : Type} {M : Meaning Stage} {store : Store ω Stage} {chars : Sequence Stage}
  {text : List Char}

theorem finds_addPosition (ready : store.Ready M) (has : store.Has chars)
    (begins : M.Begins chars (text.map .char)) {i : Nat} (inside : i < text.length) :
    chars.addPosition.Finds store i (some (.tagged ⟨text[i]?, behind (text.take i)⟩)) := by
  have listed : Tagged.ofListing ⟨text, false⟩ = Tagged.placed start text := rfl
  have inside' : i < (Tagged.ofListing ⟨text, false⟩).length := by
    rwa [listed, Tagged.length_placed]
  have begins' : M.Begins chars ((⟨text, false⟩ : Listing Char).known.map .char) := begins
  obtain ⟨cells, t, last, -, -, draws⟩ := Producer.draws_tagged (ω := ω) begins' nofun inside'
  have count : (((Tagged.placed start text).take i).map Stage.tagged).length = i := by
    rw [List.length_map, List.length_take, Tagged.length_placed, Nat.min_eq_left inside.le]
  rw [listed, List.take_add_one, Tagged.getElem?_placed inside, List.map_append] at draws
  have found := draws.finds (Producer.mute_tagged chars) ready (Producer.grounded_tagged has)
  rwa [count] at found

/-- The element behind `i` others is the character there, or the end of the input behind all of them and
nothing behind that, and its position counts the line feeds before it and the characters since the last
one. A sequence without an end has no end of the input. The positions increase, and no two are the
same. -/
theorem addPosition_counts (ready : store.Ready M) (has : store.Has chars) :
    (∀ text : List Char, M.Holds chars (text.map .char) →
      (∀ i ≤ text.length, chars.addPosition.Finds store i
        (some (.tagged ⟨text[i]?, behind (text.take i)⟩))) ∧
      (∀ i > text.length, chars.addPosition.Finds store i none) ∧
      ∀ i j, i < j → j ≤ text.length →
        (behind (text.take i)).compare (behind (text.take j)) = .lt ∧
          behind (text.take i) ≠ behind (text.take j)) ∧
    ∀ text : Nat → Char, (∀ n, M.Begins chars (((List.range n).map text).map .char)) →
      (∀ i, chars.addPosition.Finds store i
        (some (.tagged ⟨some (text i), behind ((List.range i).map text)⟩))) ∧
      ∀ i j, i < j →
        (behind ((List.range i).map text)).compare (behind ((List.range j).map text)) = .lt ∧
          behind ((List.range i).map text) ≠ behind ((List.range j).map text) := by
  constructor
  · intro text holds
    have found := (returns_addPosition (ω := ω) ready has holds).finds
    refine ⟨?_, ?_, fun i j earlier inside => compare_behind_take earlier inside⟩
    · intro i inside
      have here := found i
      rwa [List.getElem?_map, Tagged.getElem?_ofChars inside] at here
    · intro i past
      have here := found i
      rwa [List.getElem?_eq_none (by rwa [List.length_map, Tagged.length_ofChars])] at here
  · intro text begins
    have front {i n : Nat} (inside : i ≤ n) :
        ((List.range n).map text).take i = (List.range i).map text := by
      rw [← List.map_take, List.take_range, Nat.min_eq_left inside]
    constructor
    · intro i
      have inside : i < ((List.range (i + 1)).map text).length := by simp
      have found := finds_addPosition (ω := ω) ready has (begins (i + 1)) inside
      rw [front (Nat.le_succ i)] at found
      simpa using found
    · intro i j earlier
      have increasing := @compare_behind_take ((List.range j).map text) i j earlier (by simp)
      rwa [front earlier.le, front le_rfl] at increasing

def lineFeeds : Producer Char Stage Stage :=
  (Producer.readText ['\n'] true).map fun c => pure (.char c)

theorem given_lineFeeds (n : Nat) : Producer.given M lineFeeds.step n lineFeeds.state =
    ⟨(List.replicate n '\n').map .char, false⟩ := by
  have read (n : Nat) {text : List Char} (here : text = [] ∨ text = ['\n']) :
      Producer.given M (Producer.readText (ν := Stage) ['\n'] true).step n text =
        ⟨List.replicate n '\n', false⟩ := by
    induction n generalizing text with
    | zero => rfl
    | succ n ih =>
      have move : ((Producer.readText (ν := Stage) ['\n'] true).step text).value =
          .yield '\n' [] := by
        rcases here with rfl | rfl <;> rfl
      exact (Producer.given_yield move).trans (congrArg (Listing.cons '\n') (ih (Or.inl rfl)))
  exact Producer.given_map.trans (congrArg (Listing.map · Stage.char) (read n (Or.inr rfl)))

theorem behind_feeds (i : Nat) : behind ((List.range i).map fun _ => '\n') = ⟨i + 1, 1⟩ := by
  rw [List.map_const', List.length_range, behind, List.count_replicate_self, Nat.add_comm]
  cases i with
  | zero => rfl
  | succ i =>
    rw [List.replicate_succ', List.rtakeWhile_concat_neg _ _ _ (by simp)]
    rfl

/-- The end of a text that ends behind a line feed, and line feeds without an end. -/
theorem addPosition_counts_feeds :
    (∃ (chars : Sequence Stage) (store : Store Char Stage) (M : Meaning Stage),
      Store.Settles (fun fuel =>
        (Producer.ofList [Stage.char 'a', .char '\n']).share fuel .empty) (chars, store) ∧
      store.Ready M ∧ store.Has chars ∧ M.Holds chars (['a', '\n'].map .char) ∧
      chars.addPosition.Finds store 2 (some (.tagged ⟨none, ⟨2, 1⟩⟩)) ∧
      chars.addPosition.Finds store 3 none) ∧
    ∃ (chars : Sequence Stage) (store : Store Char Stage) (M : Meaning Stage),
      Store.Settles (fun fuel => lineFeeds.share fuel .empty) (chars, store) ∧
      store.Ready M ∧ store.Has chars ∧
      (∀ n, M.Begins chars (((List.range n).map fun _ => '\n').map .char)) ∧
      ∀ i, chars.addPosition.Finds store i (some (.tagged ⟨some '\n', ⟨i + 1, 1⟩⟩)) := by
  constructor
  · obtain ⟨chars, store, M, cells, settles, ready, has, walks, listed⟩ :=
      Store.exists_shared (ω := Char) (['a', '\n'].map Stage.char)
    have holds : M.Holds chars (['a', '\n'].map .char) := listed ▸ walks.holds
    obtain ⟨found, past, -⟩ := (addPosition_counts (ω := Char) ready has).1 _ holds
    exact ⟨chars, store, M, settles, ready, has, holds, found 2 (by decide), past 3 (by decide)⟩
  · have grounded : Producer.Grounded 0 lineFeeds.step (Store.empty : Store Char Stage).size
        lineFeeds.state :=
      Producer.grounded_scanFilter (Producer.grounded_of_alone Producer.alone_unfold)
    obtain ⟨chars, store, M, settles, leaves, shared⟩ :=
      Producer.returns_share Store.ready_empty grounded (.yield rfl)
    have begins (n : Nat) : M.Begins chars (((List.range n).map fun _ => '\n').map .char) := by
      obtain ⟨m, more⟩ := (shared.denotes.ge n).exists
      rw [given_lineFeeds] at more
      obtain ⟨later, same⟩ : (List.replicate n '\n').map Stage.char <+: (M.shown m chars).known :=
        more.1
      have shown : M.Begins chars (M.shown m chars).known := Meaning.begins_shown
      rw [← same] at shown
      rw [List.map_const', List.length_range]
      exact shown.of_append
    obtain ⟨found, -⟩ := (addPosition_counts (ω := Char) leaves.ready shared.has).2 _ begins
    simp only [behind_feeds] at found
    exact ⟨chars, store, M, settles, leaves.ready, shared.has, begins, found⟩

end Sequence

end DemandLex
