import DemandLex.Proofs.Sequence.Scanning
import DemandLex.Proofs.Sequence.Scanner
import DemandLex.Proofs.Sequence.Drawing

/-! How far a scanner behind a stored sequence has read for an output: up to the element that has it, with
one call of the step for each element on the way. -/

namespace DemandLex

open Effect Producer

variable {ω ν β : Type} {M : Meaning ν}

namespace Scanner

def effects (g : Scanner ω ν β) : g.State → List (Cell ν) → List (Effect ω)
  | _, [] => []
  | carried, cell :: later =>
    noting (g.step carried cell.value).notes ++
      .look cell.node :: g.effects (g.step carried cell.value).value.1 later

/-- What is done for the output behind so many others, and that output: the cells before the one that
has it are passed, and the step is called on that one. If there are not so many outputs, all cells are
passed. -/
inductive Demands (M : Meaning ν) (g : Scanner ω ν β) (carried : g.State) (s : Sequence ν)
    (count : Nat) : List (Effect ω) → Option β → Prop
  | within {cells : List (Cell ν)} {last : Cell ν} {before after : g.State} {output : β}
      (walks : M.Walks s cells (some last))
      (place : (scanned g.step carried (cells.map Cell.value)).length = count)
      (here : before = carriedBehind g.step carried (cells.map Cell.value))
      (given : (g.step before last.value).value = (after, some output)) :
      Demands M g carried s count
        (g.effects carried cells ++ noting (g.step before last.value).notes) (some output)
  | past {cells : List (Cell ν)} (walks : M.Walks s cells none)
      (place : (scanned g.step carried (cells.map Cell.value)).length ≤ count) :
      Demands M g carried s count (g.effects carried cells) none

section Feeds
variable {g : Scanner ω ν β} {carried next : g.State} {s t : Sequence ν} {cells : List (Cell ν)}
  {effects : List (Effect ω)} {shown : Option β} {count : Nat}

theorem effects_cons {cell : Cell ν} {output : Option β}
    (given : (g.step carried cell.value).value = (next, output)) :
    g.effects carried (cell :: cells) =
      noting (g.step carried cell.value).notes ++ .look cell.node :: g.effects next cells := by
  rw [Scanner.effects, given]

theorem Demands.cons {cell : Cell ν} {output : Option β} {q : Sequence ν}
    (demands : Demands M g next q count effects shown)
    (given : (g.step carried cell.value).value = (next, output))
    (follows : M.after cell.node = some q) :
    Demands M g carried (some cell) (output.toList.length + count)
      (noting (g.step carried cell.value).notes ++ .look cell.node :: effects) shown := by
  cases demands with
  | within walks place here given' =>
    rw [← List.cons_append, ← List.append_assoc, ← effects_cons given]
    refine .within (.cons follows walks) ?_ ?_ given'
    · rw [List.map_cons, scanned_cons given, List.length_append, place]
    · rw [List.map_cons, carriedBehind_cons given, here]
  | past walks place =>
    rw [← effects_cons given]
    refine .past (.cons follows walks) ?_
    rw [List.map_cons, scanned_cons given, List.length_append]
    exact Nat.add_le_add_left place _

end Feeds

section Fed
variable {g : Scanner ω ν β} {carried : g.State} {s t : Sequence ν} {cells : List (Cell ν)}
  {effects : List (Effect ω)} {shown : Option β} {count : Nat}

theorem fed_behind (walks : M.Walks s cells t)
    (fed : Fed M reading g.step (.here t) (carriedBehind g.step carried (cells.map Cell.value))
      count effects shown) :
    Fed M reading g.step (.here s) carried
      ((scanned g.step carried (cells.map Cell.value)).length + count)
      (g.effects carried cells ++ effects) shown := by
  induction walks generalizing carried with
  | nil =>
    rw [List.map_nil, scanned, List.length_nil, Nat.zero_add]
    exact fed
  | @cons cell rest t cells follows tail ih =>
    have first : Comes M (reading (ω := ω)) (.here (some cell)) []
        (some (cell.value, .after cell.node)) := comes_reading_here.mpr ⟨rfl, rfl⟩
    have ahead (later : List (Effect ω)) (r : Option (ν × Reading ν))
        (comes : Comes M reading (.here rest) later r) :
        Comes M reading (.after cell.node) ([.look cell.node] ++ later) r := .force rfl follows comes
    rcases given : (g.step carried cell.value).value with ⟨next, _ | output⟩
    · rw [List.map_cons, carriedBehind_cons given] at fed
      rw [List.map_cons, scanned_none given, effects_cons given, List.append_assoc]
      exact .absorb first given ((ih fed).before ahead)
    · rw [List.map_cons, carriedBehind_cons given] at fed
      rw [List.map_cons, scanned_some given, effects_cons given, List.append_assoc,
        List.length_cons, Nat.add_right_comm]
      exact .pass first given ((ih fed).before ahead)

inductive Leads (M : Meaning ν) : Reading ν → List (Effect ω) → Sequence ν → Prop
  | here {t : Sequence ν} : Leads M (.here t) [] t
  | after {node : Node} {q : Sequence ν} (follows : M.after node = some q) :
      Leads M (.after node) [.look node] q

theorem leads_of_comes {place : Reading ν} {r : Option (ν × Reading ν)}
    (comes : Comes M reading place effects r) : ∃ q, Leads M place effects q ∧ r = readingAt q := by
  cases place with
  | here t =>
    obtain ⟨rfl, rfl⟩ := comes_reading_here.mp comes
    exact ⟨t, .here, rfl⟩
  | after node =>
    obtain ⟨q, follows, rfl, rfl⟩ := comes_reading_after.mp comes
    exact ⟨q, .after follows, rfl⟩

theorem demands_of_fed {place : Reading ν}
    (fed : Fed M reading g.step place carried count effects shown) :
    ∃ q first later, Leads M place first q ∧ Demands M g carried q count later shown ∧
      effects = first ++ later := by
  induction fed with
  | past comes =>
    obtain ⟨_ | cell, leads, found⟩ := leads_of_comes comes
    · exact ⟨none, _, [], leads, .past .nil (Nat.zero_le _), (List.append_nil _).symm⟩
    · cases found
  | here comes given =>
    obtain ⟨_ | cell, leads, found⟩ := leads_of_comes comes
    · cases found
    · cases found
      exact ⟨some cell, _, _, leads, .within .nil rfl rfl given, rfl⟩
  | @pass _ _ _ _ _ _ count _ _ _ comes given feeds ih =>
    obtain ⟨_ | cell, leads, found⟩ := leads_of_comes comes
    · cases found
    · cases found
      obtain ⟨q, _, later, ⟨⟩ | ⟨follows⟩, demands, rfl⟩ := ih
      rw [Nat.add_comm]
      exact ⟨some cell, _, _, leads, demands.cons given follows, List.append_assoc ..⟩
  | @absorb _ _ _ _ _ count _ _ _ comes given feeds ih =>
    obtain ⟨_ | cell, leads, found⟩ := leads_of_comes comes
    · cases found
    · cases found
      obtain ⟨q, _, later, ⟨⟩ | ⟨follows⟩, demands, rfl⟩ := ih
      rw [← Nat.zero_add count]
      exact ⟨some cell, _, _, leads, demands.cons given follows, List.append_assoc ..⟩

theorem demands_iff :
    Demands M g carried s count effects shown ↔
      Fed M reading g.step (.here s) carried count effects shown := by
  constructor
  · intro demands
    cases demands with
    | @within _ last _ _ _ walks place here given =>
      subst here
      rw [← place]
      exact fed_behind walks (.here (comes_reading_here.mpr ⟨rfl, rfl⟩) given)
    | past walks place =>
      obtain ⟨extra, rfl⟩ := Nat.exists_eq_add_of_le place
      rw [← List.append_nil (g.effects carried _)]
      exact fed_behind walks (.past (comes_reading_here.mpr ⟨rfl, rfl⟩))
  · intro fed
    obtain ⟨q, _, later, ⟨⟩, demands, rfl⟩ := demands_of_fed fed
    exact demands

/-- A scanner behind a stored sequence exposes just what it demands. -/
theorem demands_iff_exposes :
    Demands M g g.start s count effects shown ↔
      ∃ values r, Exposes M ((ofSequence s).through g).step ((ofSequence s).through g).state count
        effects values r ∧ r.map Prod.fst = shown :=
  demands_iff.trans (fed_iff_exposes (p := ofSequence s))

end Fed

end Scanner

end DemandLex
