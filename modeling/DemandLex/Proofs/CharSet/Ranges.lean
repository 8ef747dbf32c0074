import DemandLex.Proofs.CharSet.Expression
import DemandLex.Proofs.CharSet.Rendering
import DemandLex.Proofs.StepFunction.Canonical
import Mathlib.Algebra.Order.BigOperators.Group.List
import Mathlib.Algebra.Order.Group.Nat
import Mathlib.Algebra.Ring.Parity

/-! The code points of a character set determine its ranges, and with them its text, which shows no
other code points. -/

namespace DemandLex.CharSet

open StepFunction

instance : Std.LawfulEqCmp strategy.compare :=
  inferInstanceAs (Std.LawfulEqCmp (compare : Nat → Nat → Ordering))

def ends (span : Nat × Nat) : List (Breakpoint Nat Bool) := [⟨span.1, true⟩, ⟨span.2, false⟩]

section Spans
variable {bs : List (Breakpoint Nat Bool)} {start : Option Nat} {pairs : List (Nat × Nat)}
  {code key : Nat}

/-- Breakpoints that change the value every time, and in the end back to false, are the ends of the
spans read off them; a span that was open before is the first one. -/
theorem ends_spans (minimal : Minimal strategy.equal start.isSome bs)
    (passed : ∀ b ∈ bs, b.edge ≤ key)
    (closed : valueFrom strategy.compare key start.isSome bs = false) :
    (start.map (⟨·, true⟩)).toList ++ bs = (spans start bs).flatMap ends := by
  induction bs generalizing start with
  | nil =>
    cases start with
    | none => rfl
    | some first => cases closed
  | cons b later ih =>
    obtain ⟨edge, value⟩ := b
    obtain ⟨changes, minimal⟩ := minimal
    have reached : strategy.compare edge key ≠ .gt :=
      mt after_iff.mp (Nat.not_lt.mpr (passed _ List.mem_cons_self))
    have rest (c) (member : c ∈ later) : c.edge ≤ key := passed c (List.mem_cons_of_mem _ member)
    rw [valueFrom_cons_passed reached] at closed
    cases start with
    | none =>
      cases value with
      | false => cases changes
      | true => exact @ih (some edge) minimal rest closed
    | some first =>
      cases value with
      | true => cases changes
      | false =>
        have split : later = (spans none later).flatMap ends := @ih none minimal rest closed
        calc (⟨first, true⟩ : Breakpoint Nat Bool) :: ⟨edge, false⟩ :: later
            = ends (first, edge) ++ (spans none later).flatMap ends := by rw [← split]; rfl
          _ = (spans (some first) (⟨edge, false⟩ :: later)).flatMap ends := rfl

theorem value_of_ends {i : Nat} {b : Breakpoint Nat Bool}
    (found : (pairs.flatMap ends)[i]? = some b) : b.value = decide (Even i) := by
  induction pairs generalizing i with
  | nil => cases found
  | cons pair later ih =>
    match i with
    | 0 =>
      cases found
      rfl
    | 1 =>
      cases found
      rfl
    | i + 2 =>
      rw [ih found]
      simp [Nat.even_add]

theorem length_ends : (pairs.flatMap ends).length = 2 * pairs.length := by
  induction pairs with
  | nil => rfl
  | cons pair later ih =>
    rw [List.flatMap_cons, List.length_append, ih, List.length_cons, Nat.mul_succ, Nat.add_comm]
    rfl

theorem apart_of_increasing (increasing : Increasing strategy.compare (pairs.flatMap ends)) :
    (∀ pair ∈ pairs, pair.1 < pair.2) ∧ pairs.Pairwise fun a b => a.2 < b.1 := by
  obtain ⟨inside, apart⟩ := List.pairwise_flatMap.mp (increasing_iff_pairwise.mp increasing)
  constructor
  · intro pair member
    have ordered := inside pair member
    simpa [ends, strategy, Strategy.natural, Nat.compare_eq_lt] using ordered
  · apply apart.imp
    intro a b ordered
    have between := ordered ⟨a.2, false⟩ (by simp [ends]) ⟨b.1, true⟩ (by simp [ends])
    exact Nat.compare_eq_lt.mp between

theorem valueFrom_ends (nonempty : ∀ pair ∈ pairs, pair.1 < pair.2)
    (apart : pairs.Pairwise fun a b => a.2 < b.1) :
    valueFrom strategy.compare code false (pairs.flatMap ends) = true ↔
      ∃ pair ∈ pairs, pair.1 ≤ code ∧ code < pair.2 := by
  induction pairs with
  | nil => simp [valueFrom]
  | cons pair later ih =>
    obtain ⟨before, apart⟩ := List.pairwise_cons.mp apart
    obtain ⟨first, nonempty⟩ := List.forall_mem_cons.mp nonempty
    show valueFrom strategy.compare code false
      (⟨pair.1, true⟩ :: ⟨pair.2, false⟩ :: later.flatMap ends) = true ↔ _
    by_cases early : code < pair.1
    · rw [valueFrom_cons_after (after_iff.mpr early)]
      refine iff_of_false Bool.false_ne_true ?_
      rintro ⟨other, member, reached, -⟩
      rcases List.mem_cons.mp member with rfl | behind
      · exact Nat.not_lt.mpr reached early
      · exact Nat.not_lt.mpr reached ((early.trans first).trans (before other behind))
    · rw [valueFrom_cons_passed (mt after_iff.mp early)]
      by_cases inside : code < pair.2
      · rw [valueFrom_cons_after (after_iff.mpr inside)]
        exact iff_of_true rfl ⟨pair, List.mem_cons_self, Nat.le_of_not_lt early, inside⟩
      · rw [valueFrom_cons_passed (mt after_iff.mp inside), ih nonempty apart]
        simp [inside]

end Spans

/-- The ranges begin outside of the set and change sides at every breakpoint, the last time back out,
so that the spans read off them are all there is to them. The text shows just these spans. They are not
empty, in order and apart from each other, and together they are the given code points. -/
structure Canonical (s : CharSet) (codes : Set Nat) : Prop where
  first : s.ranges.first = false
  even : Even s.ranges.breakpoints.length
  alternates : ∀ (i : Nat) (b : Breakpoint Nat Bool), s.ranges.breakpoints[i]? = some b →
    b.value = decide (Even i)
  complete : s.ranges.breakpoints = (spans none s.ranges.breakpoints).flatMap ends
  text : readSpans? s.render = some (spans none s.ranges.breakpoints)
  nonempty : ∀ span ∈ spans none s.ranges.breakpoints, span.1 < span.2
  apart : (spans none s.ranges.breakpoints).Pairwise fun a b => a.2 < b.1
  members : ∀ code, code ∈ codes ↔
    ∃ span ∈ spans none s.ranges.breakpoints, span.1 ≤ code ∧ code < span.2

section Holds
variable {s t : CharSet} {codes : Set Nat} {limit : Nat}

theorem Holds.closed (holds : s.Holds codes) (bounded : ∀ code ∈ codes, code ≤ limit) :
    ∃ key, (∀ b ∈ s.ranges.breakpoints, b.edge ≤ key) ∧
      s.ranges.get strategy.compare key = false := by
  refine ⟨limit + 1 + (s.ranges.breakpoints.map (·.edge)).sum, ?_, ?_⟩
  · intro b member
    have part : b.edge ≤ (s.ranges.breakpoints.map (·.edge)).sum :=
      List.le_sum_of_mem (List.mem_map_of_mem member)
    omega
  · rw [Bool.eq_false_iff]
    intro found
    have within := bounded _ ((holds.get _).mp found)
    omega

theorem Holds.canonical (holds : s.Holds codes) (bounded : ∀ code ∈ codes, code ≤ limit) :
    s.Canonical codes := by
  obtain ⟨key, passed, closed⟩ := holds.closed bounded
  have minimal := holds.formed.minimal
  rw [StepFunction.get, holds.first] at closed
  rw [holds.first] at minimal
  have complete : s.ranges.breakpoints = (spans none s.ranges.breakpoints).flatMap ends :=
    @ends_spans _ none key minimal passed closed
  have increasing := holds.formed.increasing
  rw [complete] at increasing
  obtain ⟨nonempty, apart⟩ := apart_of_increasing increasing
  refine ⟨holds.first, ?_, ?_, complete, readSpans?_render s, nonempty, apart, ?_⟩
  · rw [complete, length_ends]
    exact even_two_mul _
  · intro i b found
    rw [complete] at found
    exact value_of_ends found
  · intro code
    rw [← holds.get, StepFunction.get, holds.first, ← valueFrom_ends nonempty apart, ← complete]

theorem Canonical.codes_unique {codes' : Set Nat} (left : s.Canonical codes)
    (right : t.Canonical codes') (same : s.render = t.render) : codes = codes' := by
  have shown : spans none s.ranges.breakpoints = spans none t.ranges.breakpoints :=
    Option.some_inj.mp (left.text.symm.trans (same ▸ right.text))
  ext code
  rw [left.members, right.members, shown]

theorem Holds.ranges_unique (left : s.Holds codes) (right : t.Holds codes) : s.ranges = t.ranges := by
  refine eq_of_get (fun x => equal_iff.mpr rfl) left.formed right.formed
    (left.first.trans right.first.symm) ?_
  intro code
  rw [Bool.eq_iff_iff, left.get, right.get]

end Holds

namespace Expression

theorem codePoints_le (e : Expression) : ∀ code ∈ e.codePoints, code ≤ 0x10FFFF := by
  have character (c : Char) : c.toNat ≤ 0x10FFFF := by
    rcases c.valid with low | ⟨-, high⟩
    · exact Nat.le_trans (Nat.le_of_lt low) (by decide)
    · exact Nat.le_of_lt_succ high
  induction e with
  | empty => exact fun code member => absurd member (Set.notMem_empty code)
  | one c =>
    rintro code rfl
    exact character c
  | any chars =>
    rintro code ⟨c, -, rfl⟩
    exact character c
  | range first last => exact fun code member => member.2.trans (character last)
  | union left right leftBounded rightBounded =>
    exact fun code member => member.elim (leftBounded code) (rightBounded code)

theorem canonical_build (e : Expression) : e.build.Canonical e.codePoints :=
  e.holds_build.canonical e.codePoints_le

/-- The ranges of a set are in canonical form, and its code points alone determine them and the text
that shows them, whatever the order, the nesting and the overlaps of the unions. The text in turn
determines the code points. -/
theorem canonical_ranges (e : Expression) :
    e.build.Canonical e.codePoints ∧
      (∀ e' : Expression, e'.codePoints = e.codePoints →
        e'.build.ranges = e.build.ranges ∧ e'.build.render = e.build.render) ∧
      ∀ e' : Expression, e'.build.render = e.build.render → e'.codePoints = e.codePoints := by
  refine ⟨e.canonical_build, ?_, ?_⟩
  · intro e' same
    have ranges : e'.build.ranges = e.build.ranges :=
      (same ▸ e'.holds_build).ranges_unique e.holds_build
    refine ⟨ranges, ?_⟩
    rw [render, render, ranges]
  · exact fun e' same => e'.canonical_build.codes_unique e.canonical_build same

/-- Ranges that overlap and ranges that touch, put together in two ways; one of them passes over code
points that are no characters. -/
theorem canonical_ranges_two :
    let e : Expression := .union (.any "abca") (.union (.range '\uD7FF' '\uE000') (.range 'b' 'd'))
    let e' : Expression :=
      .union (.union (.range '\uD7FF' '\uE000') (.union (.one 'd') (.range 'z' 'y')))
        (.range 'a' 'c')
    0xDABC ∈ e.codePoints ∧ e'.build.ranges = e.build.ranges ∧ e'.build.render = e.build.render ∧
      e'.build.ranges.breakpoints = [⟨97, true⟩, ⟨101, false⟩, ⟨0xD7FF, true⟩, ⟨0xE001, false⟩] ∧
      e'.build.render = "\x7b97..101, 55295..57345\x7d" ∧
      readSpans? e'.build.render = some [(97, 101), (55295, 57345)] := by
  intro e e'
  have same : e'.codePoints = e.codePoints := by
    ext code
    simp only [e, e', codePoints, Char.reduceToNat, String.reduceToList, Set.mem_union,
      Set.mem_singleton_iff, Set.mem_ofPred_eq, List.mem_cons, List.not_mem_nil, or_false,
      exists_eq_or_imp, ↓existsAndEq, true_and]
    omega
  obtain ⟨-, determined, -⟩ := e.canonical_ranges
  obtain ⟨ranges, texts⟩ := determined e' same
  exact ⟨by simp [e, codePoints], ranges, texts, by decide +kernel, by decide +kernel,
    by decide +kernel⟩

end Expression

end DemandLex.CharSet
