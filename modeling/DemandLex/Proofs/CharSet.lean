import DemandLex.CharSet
import DemandLex.Proofs.StepFunction.Lookup
import DemandLex.Proofs.StepFunction.Pointwise
import DemandLex.Proofs.StepFunction.WellFormed
import Mathlib.Order.Interval.Set.Defs

/-! Character sets contain exactly the characters they are put together from. -/

namespace DemandLex.CharSet

open StepFunction

instance : Std.TransCmp strategy.compare :=
  inferInstanceAs (Std.TransCmp (compare : Nat → Nat → Ordering))

variable {s t : CharSet} {codes codes' : Set Nat} {test test' : Char → Bool}

/-- The ranges are a step function in its minimal form, which is true at the given code points and
false at all others. -/
structure Holds (s : CharSet) (codes : Set Nat) : Prop where
  formed : WellFormed strategy.compare strategy.equal s.ranges
  first : s.ranges.first = false
  get (code : Nat) : s.ranges.get strategy.compare code = true ↔ code ∈ codes

theorem equal_iff {x y : Bool} : strategy.equal x y = true ↔ x = y := beq_iff_eq

theorem after_iff {edge code : Nat} : strategy.compare edge code = .gt ↔ code < edge :=
  Nat.compare_eq_gt

theorem holds_empty : empty.Holds ∅ where
  formed := wellFormed_constant
  first := rfl
  get code := iff_of_false Bool.false_ne_true (Set.notMem_empty code)

theorem holds_range (first last : Char) :
    (range first last).Holds (Set.Icc first.toNat last.toNat) where
  formed := wellFormed_constant.add
  first := first_add
  get code := by
    have found : (range first last).ranges.get strategy.compare code = _ :=
      get_add_of_exact code (fun x y => equal_iff.mp) increasing_nil
    rw [found]
    have inside : compare first.toNat code ≠ .gt ∧ compare (last.toNat + 1) code = .gt ↔
        code ∈ Set.Icc first.toNat last.toNat :=
      and_congr Nat.compare_ne_gt (after_iff.trans Nat.lt_succ_iff)
    split
    · rename_i within
      exact iff_of_true rfl (inside.mp within)
    · rename_i outside
      exact iff_of_false Bool.false_ne_true (mt inside.mpr outside)

theorem holds_one (c : Char) : (one c).Holds {c.toNat} := by
  rw [← Set.Icc_self]
  exact holds_range c c

theorem Holds.union (left : s.Holds codes) (right : t.Holds codes') :
    (s.union t).Holds (codes ∪ codes') where
  formed := wellFormed_merge left.formed.increasing right.formed.increasing
  first := by
    show (s.ranges.first || t.ranges.first) = false
    rw [left.first, right.first]
    rfl
  get code := by
    have found : (s.union t).ranges.get strategy.compare code = _ :=
      get_merge_of_exact code (fun x y => equal_iff.mp) left.formed.increasing
        right.formed.increasing
    rw [found, Bool.or_eq_true]
    exact or_congr (left.get code) (right.get code)

theorem Holds.unions (chars : List Char) (holds : s.Holds codes) :
    (chars.foldl (fun s c => s.union (one c)) s).Holds
      (codes ∪ {code | ∃ c ∈ chars, c.toNat = code}) := by
  induction chars generalizing s codes with
  | nil =>
    have same : codes ∪ {code | ∃ c ∈ ([] : List Char), c.toNat = code} = codes := by simp
    rw [same]
    exact holds
  | cons first later ih =>
    have front : {code | ∃ c ∈ first :: later, c.toNat = code} =
        {first.toNat} ∪ {code | ∃ c ∈ later, c.toNat = code} := by
      ext code
      simp [eq_comm]
    rw [front, ← Set.union_assoc]
    exact ih (holds.union (holds_one first))

theorem holds_any (chars : String) :
    (any chars).Holds {code | ∃ c ∈ chars.toList, c.toNat = code} := by
  rw [← Set.empty_union {code | ∃ c ∈ chars.toList, c.toNat = code}]
  exact holds_empty.unions chars.toList

theorem tree_get (increasing : Increasing strategy.compare s.ranges.breakpoints) (code : Nat) :
    s.tree.get strategy.compare code = s.ranges.get strategy.compare code := by
  rw [s.tree_eq]
  exact get_of_toStepFunction code (LookupTree.toStepFunction_balanced s.ranges) increasing

theorem Holds.contains (holds : s.Holds codes) (c : Char) :
    s.contains c = true ↔ c.toNat ∈ codes := by
  rw [CharSet.contains, tree_get holds.formed.increasing]
  exact holds.get c.toNat

structure Reads (s : CharSet) (test : Char → Bool) : Prop where
  increasing : Increasing strategy.compare s.ranges.breakpoints
  contains (c : Char) : s.contains c = test c

theorem Holds.reads (holds : s.Holds codes) (same : ∀ c : Char, c.toNat ∈ codes ↔ test c = true) :
    s.Reads test := by
  refine ⟨holds.formed.increasing, fun c => ?_⟩
  rw [Bool.eq_iff_iff, holds.contains, same]

theorem reads_range (first last : Char) :
    (range first last).Reads fun c => decide (first ≤ c ∧ c ≤ last) := by
  apply (holds_range first last).reads
  intro c
  rw [decide_eq_true_iff, Char.le_def, Char.le_def, UInt32.le_iff_toNat_le, UInt32.le_iff_toNat_le]
  exact Iff.rfl

theorem Reads.congr (reads : s.Reads test) (same : ∀ c, test c = test' c) : s.Reads test' :=
  ⟨reads.increasing, fun c => (reads.contains c).trans (same c)⟩

theorem Reads.union (left : s.Reads test) (right : t.Reads test') :
    (s.union t).Reads fun c => test c || test' c := by
  have increasing : Increasing strategy.compare (s.union t).ranges.breakpoints :=
    (wellFormed_merge left.increasing right.increasing).increasing
  refine ⟨increasing, fun c => ?_⟩
  rw [← left.contains, ← right.contains, CharSet.contains, CharSet.contains, CharSet.contains,
    tree_get increasing, tree_get left.increasing, tree_get right.increasing]
  exact get_merge_of_exact c.toNat (fun x y => equal_iff.mp) left.increasing right.increasing

end DemandLex.CharSet

namespace DemandLex.CharClasses

open CharSet

private theorem value_unions {s : CharSet} (chars : List Char) :
    (chars.foldlM (fun s c => do
      let one ← built (.one c)
      built (s.union one)) s : Noted CharSet CharSet).value =
      chars.foldl (fun s c => s.union (one c)) s := by
  induction chars generalizing s with
  | nil => rfl
  | cons first later ih =>
    rw [List.foldlM_cons, Noted.value_bind]
    exact ih

theorem reads_buildAny (chars : String) :
    (buildAny chars).value.Reads fun c => chars.toList.contains c := by
  have same : (buildAny chars).value = .any chars := by
    rw [buildAny, Noted.value_bind]
    exact value_unions chars.toList
  rw [same]
  apply (holds_any chars).reads
  intro c
  simp [Char.toNat_inj]

end DemandLex.CharClasses
