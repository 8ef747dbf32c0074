import DemandLex.Proofs.StepFunction.Lookup
import Mathlib.Data.Nat.Log
import Mathlib.Data.Nat.PSub
import Mathlib.Order.Bounds.Basic
import Mathlib.Tactic.GCongr
import Mathlib.Tactic.Ring

/-! How many comparisons look-up trees make. Halving the leaves gives the least depth and the least
comparisons in all that a tree with so many leaves can have. -/

namespace DemandLex.LookupTree

variable {E T : Type}

section Shape
variable (t : LookupTree E T)

theorem leafCount_pos : 0 < t.leafCount := by
  rw [leafCount_eq]
  exact Nat.succ_pos _

theorem comparisonsBelow_eq (above : Nat) :
    t.comparisonsBelow above = t.totalComparisons + above * t.leafCount := by
  induction t generalizing above with
  | leaf value => simp [totalComparisons, comparisonsBelow, leafCount]
  | node left rightMin right first second =>
    simp only [totalComparisons, comparisonsBelow, leafCount]
    rw [first, second, first (0 + 1), second (0 + 1)]
    ring

@[simp] theorem totalComparisons_leaf (value : T) :
    (leaf value : LookupTree E T).totalComparisons = 0 := rfl

theorem totalComparisons_node (left right : LookupTree E T) (rightMin : E) :
    (node left rightMin right).totalComparisons =
      left.totalComparisons + right.totalComparisons + (left.leafCount + right.leafCount) := by
  rw [totalComparisons, comparisonsBelow, comparisonsBelow_eq, comparisonsBelow_eq right]
  omega

theorem comparisons_le_depth (compare : E → E → Ordering) (key : E) :
    t.comparisons compare key ≤ t.depth := by
  induction t with
  | leaf value => exact Nat.le_refl 0
  | node left rightMin right first second =>
    simp only [comparisons, depth]
    split <;> omega

theorem leafCount_le_two_pow_depth : t.leafCount ≤ 2 ^ t.depth := by
  induction t with
  | leaf value => exact Nat.le_refl 1
  | node left rightMin right first second =>
    have wider : 2 ^ left.depth ≤ 2 ^ max left.depth right.depth :=
      Nat.pow_le_pow_right Nat.two_pos (Nat.le_max_left _ _)
    have wider' : 2 ^ right.depth ≤ 2 ^ max left.depth right.depth :=
      Nat.pow_le_pow_right Nat.two_pos (Nat.le_max_right _ _)
    rw [leafCount, depth, Nat.pow_add]
    omega

/-- Where no number of levels that is enough for the leaves is below the depth, the depth is the
least that is enough. -/
theorem isLeast_depth (shallow : ∀ d, t.leafCount ≤ 2 ^ d → t.depth ≤ d) :
    IsLeast {d | t.leafCount ≤ 2 ^ d} t.depth :=
  ⟨t.leafCount_le_two_pow_depth, fun d enough => shallow d enough⟩

/-- The comparisons of any tree are on or above each of the lines that touch the least ones at a
power of two: the line of slope `k + 2` at `2 ^ k` and `2 ^ (k + 1)` leaves. -/
theorem le_totalComparisons (k : Nat) :
    (k + 2) * t.leafCount ≤ t.totalComparisons + 2 ^ (k + 1) := by
  induction t generalizing k with
  | leaf value =>
    have below : k + 1 < 2 ^ (k + 1) := Nat.lt_two_pow_self
    rw [leafCount, totalComparisons_leaf]
    omega
  | node left rightMin right first second =>
    rw [leafCount, totalComparisons_node]
    cases k with
    | zero =>
      have some := left.leafCount_pos
      have some' := right.leafCount_pos
      have inLeft := first 0
      have inRight := second 0
      omega
    | succ k =>
      have double := Nat.two_pow_succ (k + 1)
      calc (k + 1 + 2) * (left.leafCount + right.leafCount)
        _ = (k + 2) * left.leafCount + (k + 2) * right.leafCount +
            (left.leafCount + right.leafCount) := by ring
        _ ≤ (left.totalComparisons + 2 ^ (k + 1)) + (right.totalComparisons + 2 ^ (k + 1)) +
            (left.leafCount + right.leafCount) := by
          gcongr
          · exact first k
          · exact second k
        _ = left.totalComparisons + right.totalComparisons +
            (left.leafCount + right.leafCount) + 2 ^ (k + 1 + 1) := by omega

end Shape

section Halving
variable (first : T) (breakpoints : Array (Breakpoint E T))

/-- The tree of a range of leaves of which nothing is known: every difference and every look at a
breakpoint may fail. -/
def halve? (low high : Nat) : Option (LookupTree E T) :=
  match sized : Nat.psub high low with
  | none => none
  | some size =>
    if size ≤ 1 then
      if low = 0 then some (leaf first)
      else do
        let i ← Nat.psub low 1
        let b ← breakpoints[i]?
        some (leaf b.value)
    else do
      let middle := low + size / 2
      let left ← halve? low middle
      let i ← Nat.psub middle 1
      let b ← breakpoints[i]?
      let right ← halve? middle high
      some (node left b.edge right)
termination_by high - low
decreasing_by
  all_goals
    have whole := Nat.psub_eq_some.mp sized
    omega

variable {first breakpoints} {low high : Nat}

theorem halve?_eq_some (ordered : low < high) (inside : high ≤ breakpoints.size + 1) :
    halve? first breakpoints low high = some (halve first breakpoints low high ordered inside) := by
  fun_induction halve first breakpoints low high ordered inside with
  | case1 low high ordered inside single =>
    have sized : Nat.psub high low = some 1 := Nat.psub_eq_some.mpr (by omega)
    rw [halve?]
    split
    · next fails => simp [sized] at fails
    · next size found =>
      obtain rfl : 1 = size := Option.some.inj (sized.symm.trans found)
      rw [if_pos (Nat.le_refl 1)]
      cases low with
      | zero => rfl
      | succ i =>
        have bound : i < breakpoints.size := by omega
        simp [bound]
  | case2 low high ordered inside several middle bound left right =>
    have sized : Nat.psub high low = some (high - low) := Nat.psub_eq_some.mpr (by omega)
    have before : Nat.psub middle 1 = some (middle - 1) := Nat.psub_eq_some.mpr (by omega)
    rw [halve?]
    split
    · next fails => simp [sized] at fails
    · next size found =>
      obtain rfl : high - low = size := Option.some.inj (sized.symm.trans found)
      rw [if_neg several]
      show (do
        let left ← halve? first breakpoints low middle
        let i ← Nat.psub middle 1
        let b ← breakpoints[i]?
        let right ← halve? first breakpoints middle high
        some (node left b.edge right)) = _
      simp only [left, right, before, Array.getElem?_eq_getElem bound, Option.bind_eq_bind,
        Option.bind_some]

theorem leafCount_halve (ordered : low < high) (inside : high ≤ breakpoints.size + 1) :
    (halve first breakpoints low high ordered inside).leafCount = high - low := by
  rw [leafCount_eq, toStepFunction_halve, List.length_take, List.length_drop, Array.length_toList]
  omega

theorem depth_halve_le (ordered : low < high) (inside : high ≤ breakpoints.size + 1) :
    ∀ d, high - low ≤ 2 ^ d → (halve first breakpoints low high ordered inside).depth ≤ d := by
  fun_induction halve first breakpoints low high ordered inside with
  | case1 low high ordered inside single => exact fun d enough => Nat.zero_le d
  | case2 low high ordered inside several middle bound left right =>
    intro d enough
    cases d with
    | zero => exact absurd enough several
    | succ d =>
      have double := Nat.two_pow_succ d
      have inLeft := left d (by omega)
      have inRight := right d (by omega)
      rw [depth]
      omega

/-- Between two powers of two, halving keeps the comparisons on the line through both. -/
theorem totalComparisons_halve (ordered : low < high) (inside : high ≤ breakpoints.size + 1) :
    ∀ k, 2 ^ k ≤ high - low → high - low ≤ 2 ^ (k + 1) →
      (halve first breakpoints low high ordered inside).totalComparisons + 2 ^ (k + 1) =
        (k + 2) * (high - low) := by
  fun_induction halve first breakpoints low high ordered inside with
  | case1 low high ordered inside single =>
    intro k least most
    have one : high - low = 1 := by omega
    have level : k = 0 := by
      by_contra nonzero
      have two : 2 ^ 1 ≤ 2 ^ k := Nat.pow_le_pow_right Nat.two_pos (by omega)
      omega
    rw [one, level]
    rfl
  | case2 low high ordered inside several middle bound left right =>
    intro k least most
    rw [totalComparisons_node, leafCount_halve, leafCount_halve]
    cases k with
    | zero =>
      have inLeft := left 0 (by omega) (by omega)
      have inRight := right 0 (by omega) (by omega)
      omega
    | succ k =>
      have double := Nat.two_pow_succ k
      have double' := Nat.two_pow_succ (k + 1)
      have inLeft := left k (by omega) (by omega)
      have inRight := right k (by omega) (by omega)
      have whole : high - low = (middle - low) + (high - middle) := by omega
      have slope : (k + 1 + 2) * (high - low) =
          (k + 2) * (middle - low) + (k + 2) * (high - middle) + (high - low) := by
        rw [whole]
        ring
      omega

end Halving

section Balanced
variable (f : StepFunction E T)

theorem depth_balanced_le {d : Nat} (enough : f.breakpoints.length + 1 ≤ 2 ^ d) :
    (balanced f).depth ≤ d :=
  depth_halve_le _ _ d (by simpa using enough)

theorem leafCount_balanced : (balanced f).leafCount = f.breakpoints.length + 1 := by
  rw [leafCount_eq, toStepFunction_balanced]

theorem totalComparisons_balanced {k : Nat} (least : 2 ^ k ≤ f.breakpoints.length + 1)
    (most : f.breakpoints.length + 1 ≤ 2 ^ (k + 1)) :
    (balanced f).totalComparisons + 2 ^ (k + 1) = (k + 2) * (f.breakpoints.length + 1) := by
  rw [balanced, totalComparisons_halve _ _ k (by simpa using least) (by simpa using most)]
  simp

theorem totalComparisons_balanced_le {E' T' : Type} (t : LookupTree E' T')
    (count : t.leafCount = f.breakpoints.length + 1) :
    (balanced f).totalComparisons ≤ t.totalComparisons := by
  let k := Nat.log 2 (f.breakpoints.length + 1)
  have least : 2 ^ k ≤ f.breakpoints.length + 1 := Nat.pow_log_le_self 2 (Nat.succ_ne_zero _)
  have most : f.breakpoints.length + 1 < 2 ^ (k + 1) := Nat.lt_pow_succ_log_self (by decide) _
  have line := totalComparisons_balanced f least most.le
  have above := t.le_totalComparisons k
  rw [count] at above
  omega

theorem halve?_balanced :
    halve? f.first f.breakpoints.toArray 0 (f.breakpoints.length + 1) = some (balanced f) :=
  halve?_eq_some (Nat.succ_pos _) (Nat.le_refl _)

theorem isLeast_depth_balanced :
    IsLeast {d | f.breakpoints.length + 1 ≤ 2 ^ d} (balanced f).depth := by
  rw [← leafCount_balanced]
  apply isLeast_depth
  intro d enough
  rw [leafCount_balanced] at enough
  exact depth_balanced_le f enough

/-- The halved tree is made without a look outside the breakpoints. Its depth is the least that is
enough for its leaves, and no tree of any shape with as many leaves makes fewer comparisons in all.
A stream with these breakpoints is made into this tree. -/
theorem balanced_optimal :
    let leaves := f.breakpoints.length + 1
    halve? f.first f.breakpoints.toArray 0 leaves = some (balanced f) ∧
      (balanced f).leafCount = leaves ∧ IsLeast {d | leaves ≤ 2 ^ d} (balanced f).depth ∧
      (∀ {E' T' : Type} (t : LookupTree E' T'), t.leafCount = leaves →
        (balanced f).totalComparisons ≤ t.totalComparisons) ∧
      ∀ (ω : Type) (s : StepStream E T) (store : Store ω (Breakpoint E T))
        (M : Meaning (Breakpoint E T)), store.Ready M → s.Shows f store M →
        (StepFunction.toTree <$> s.toStepFunction).Returns store M fun t _ _ => t = balanced f := by
  refine ⟨halve?_balanced f, leafCount_balanced f, isLeast_depth_balanced f,
    totalComparisons_balanced_le f, ?_⟩
  intro ω s store M ready shows
  apply (StepStream.returns_toStepFunction ready shows).map.mono
  intro t store' M' later found
  obtain ⟨g, rfl, rfl⟩ := found
  rfl

end Balanced

/-- Five leaves, halved and on a chain to the right. -/
theorem balanced_optimal_five :
    let f : StepFunction Nat Nat := ⟨0, [⟨1, 1⟩, ⟨2, 2⟩, ⟨3, 3⟩, ⟨4, 4⟩]⟩
    let chain : LookupTree Nat Nat :=
      node (leaf 0) 1 (node (leaf 1) 2 (node (leaf 2) 3 (node (leaf 3) 4 (leaf 4))))
    chain.leafCount = f.breakpoints.length + 1 ∧ (balanced f).totalComparisons = 12 ∧
      (balanced f).totalComparisons ≤ chain.totalComparisons ∧ chain.totalComparisons = 14 ∧
      ∃ (store : Store String (Breakpoint Nat Nat)) (M : Meaning (Breakpoint Nat Nat))
        (s : StepStream Nat Nat), store.Ready M ∧ s.Shows f store M ∧
        (StepFunction.toTree <$> s.toStepFunction).Returns store M fun t _ _ => t = balanced f := by
  intro f chain
  have line : (balanced f).totalComparisons + 2 ^ 3 = 4 * 5 :=
    totalComparisons_balanced f (k := 2) (by decide) (by decide)
  obtain ⟨-, -, -, optimal, streamed⟩ := balanced_optimal f
  obtain ⟨s, store, M, -, leaves, shows⟩ :=
    StepStream.returns_ofStepFunction (ω := String) (f := f) Store.ready_empty
  exact ⟨rfl, by omega, optimal chain rfl, rfl, store, M, s, leaves.ready, shows,
    streamed String s store M leaves.ready shows⟩

end DemandLex.LookupTree
