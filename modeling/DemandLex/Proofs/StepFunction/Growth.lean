import DemandLex.Proofs.StepFunction.Comparisons

/-! The tree that grows to the right: full subtrees hang off its right spine, each at least as large
as what is behind it. So its depth is the least, and its comparisons follow a recurrence. -/

namespace DemandLex.LookupTree

variable {E T E' T' : Type}

inductive Full : Nat → LookupTree E T → Prop
  | leaf (value : T) : Full 0 (leaf value)
  | node {k : Nat} {left right : LookupTree E T} (rightMin : E) (first : Full k left)
      (second : Full k right) : Full (k + 1) (node left rightMin right)

/-- Left of every step down the right spine is a full tree, with as many leaves as there are behind
it or more. -/
inductive LeftFilled : LookupTree E T → Prop
  | leaf (value : T) : LeftFilled (leaf value)
  | node {k : Nat} {left right : LookupTree E T} (rightMin : E) (full : Full k left)
      (filled : LeftFilled right) (fits : right.leafCount ≤ 2 ^ k) :
      LeftFilled (node left rightMin right)

section Shape
variable {k : Nat} {t : LookupTree E T}

theorem Full.leafCount (full : Full k t) : t.leafCount = 2 ^ k := by
  induction full with
  | leaf value => rfl
  | node rightMin first second left right =>
    rw [LookupTree.leafCount, left, right, Nat.pow_succ]
    omega

theorem Full.depth (full : Full k t) : t.depth = k := by
  induction full with
  | leaf value => rfl
  | node rightMin first second left right =>
    rw [LookupTree.depth, left, right]
    omega

theorem Full.totalComparisons (full : Full k t) : t.totalComparisons = k * 2 ^ k := by
  induction full with
  | leaf value => rfl
  | @node k _ _ rightMin first second left right =>
    rw [totalComparisons_node, left, right, first.leafCount, second.leafCount]
    ring

theorem Full.leftFilled (full : Full k t) : t.LeftFilled := by
  induction full with
  | leaf value => exact .leaf value
  | node rightMin first second left right =>
    exact .node rightMin first right second.leafCount.le

theorem LeftFilled.depth_le (filled : t.LeftFilled) (d : Nat) (enough : t.leafCount ≤ 2 ^ d) :
    t.depth ≤ d := by
  induction filled generalizing d with
  | leaf value => exact Nat.zero_le d
  | @node k left right rightMin full filled fits shallow =>
    have some := right.leafCount_pos
    rw [LookupTree.leafCount, full.leafCount] at enough
    have above : k < d := (Nat.pow_lt_pow_iff_right Nat.one_lt_two).mp (by omega)
    have inRight := shallow k fits
    rw [LookupTree.depth, full.depth]
    omega

theorem LeftFilled.exists_node (filled : t.LeftFilled) (more : 2 ^ k < t.leafCount)
    (most : t.leafCount ≤ 2 ^ (k + 1)) :
    ∃ (left right : LookupTree E T) (rightMin : E), t = LookupTree.node left rightMin right ∧
      left.Full k ∧ right.LeftFilled ∧ right.leafCount = t.leafCount - 2 ^ k := by
  cases filled with
  | leaf value =>
    have one : 0 < 2 ^ k := Nat.two_pow_pos k
    rw [LookupTree.leafCount] at more
    omega
  | @node k' left right rightMin full filled fits =>
    have some := right.leafCount_pos
    rw [LookupTree.leafCount, full.leafCount] at more most
    have double := Nat.two_pow_succ k'
    have below : k < k' + 1 := (Nat.pow_lt_pow_iff_right Nat.one_lt_two).mp (by omega)
    have above : k' < k + 1 := (Nat.pow_lt_pow_iff_right Nat.one_lt_two).mp (by omega)
    obtain rfl : k = k' := by omega
    refine ⟨left, right, rightMin, rfl, full, filled, ?_⟩
    rw [LookupTree.leafCount, full.leafCount]
    omega

/-- The comparisons of a left-filled tree depend on the number of its leaves only. -/
theorem LeftFilled.totalComparisons_congr {t' : LookupTree E' T'} (filled : t.LeftFilled)
    (filled' : t'.LeftFilled) (same : t.leafCount = t'.leafCount) :
    t.totalComparisons = t'.totalComparisons := by
  induction filled generalizing t' with
  | leaf value =>
    cases filled' with
    | leaf value' => rfl
    | @node _ left right =>
      have some := left.leafCount_pos
      have some' := right.leafCount_pos
      simp only [LookupTree.leafCount] at same
      omega
  | @node k left right rightMin full filled fits ih =>
    have some := right.leafCount_pos
    have double := Nat.two_pow_succ k
    rw [LookupTree.leafCount, full.leafCount] at same
    obtain ⟨left', right', rightMin', rfl, full', filled', rest⟩ :=
      filled'.exists_node (k := k) (by omega) (by omega)
    have behind : right.leafCount = right'.leafCount := by omega
    rw [totalComparisons_node, totalComparisons_node, ih filled' behind, full.totalComparisons,
      full'.totalComparisons, full.leafCount, full'.leafCount, behind]

theorem LeftFilled.full (filled : t.LeftFilled) (count : t.leafCount = 2 ^ k) : t.Full k := by
  induction filled generalizing k with
  | leaf value =>
    obtain rfl : 0 = k := Nat.pow_right_injective (Nat.le_refl 2) count
    exact .leaf value
  | @node k' left right rightMin full filled fits ih =>
    have some := right.leafCount_pos
    have double := Nat.two_pow_succ k'
    rw [LookupTree.leafCount, full.leafCount] at count
    have above : k' < k := (Nat.pow_lt_pow_iff_right Nat.one_lt_two).mp (by omega)
    have below : k ≤ k' + 1 := (Nat.pow_le_pow_iff_right Nat.one_lt_two).mp (by omega)
    obtain rfl : k = k' + 1 := by omega
    exact .node rightMin full (ih (by omega))

end Shape

section Growing

/-- The breakpoints that fill one level more: the two halves, and the one between them. -/
theorem two_pow_succ_sub_one (limit : Nat) :
    2 ^ (limit + 1) - 1 = (2 ^ limit - 1) + ((2 ^ limit - 1) + 1) := by
  have some : 0 < 2 ^ limit := Nat.two_pow_pos limit
  rw [Nat.pow_succ]
  omega

theorem exists_buildLimited (first : T) (rest : List (Breakpoint E T)) (limit : Nat) :
    ∃ t, buildLimited splitList first rest limit = pure (t, rest.drop (2 ^ limit - 1)) ∧
      t.toStepFunction = ⟨first, rest.take (2 ^ limit - 1)⟩ ∧ t.LeftFilled ∧
      (2 ^ limit - 1 ≤ rest.length → t.Full limit) := by
  induction limit generalizing first rest with
  | zero => exact ⟨leaf first, rfl, rfl, .leaf first, fun _ => .leaf first⟩
  | succ limit ih =>
    obtain ⟨left, built, reads, filled, full⟩ := ih first rest
    have some : 0 < 2 ^ limit := Nat.two_pow_pos limit
    rw [buildLimited, built, pure_bind, two_pow_succ_sub_one]
    cases behind : rest.drop (2 ^ limit - 1) with
    | nil =>
      have short : rest.length ≤ 2 ^ limit - 1 := List.drop_eq_nil_iff.mp behind
      refine ⟨left, ?_, ?_, filled, fun long => absurd short (by omega)⟩
      · rw [List.drop_of_length_le (by omega)]
        rfl
      · rw [reads, List.take_of_length_le short, List.take_of_length_le (by omega)]
    | cons b tail =>
      obtain ⟨right, built', reads', filled', full'⟩ := ih b.value tail
      have long : 2 ^ limit - 1 ≤ rest.length := by
        by_contra short
        rw [List.drop_of_length_le (by omega)] at behind
        cases behind
      have count : tail.length + (2 ^ limit - 1) + 1 = rest.length := by
        have length := congrArg List.length behind
        rw [List.length_drop, List.length_cons] at length
        omega
      refine ⟨node left b.edge right, ?_, ?_, ?_, ?_⟩
      · simp only [splitList_cons, pure_bind, built']
        rw [← List.drop_drop, behind, List.drop_succ_cons]
      · rw [List.take_add, behind, List.take_succ_cons]
        simp only [toStepFunction, reads, reads']
      · apply LeftFilled.node b.edge (full long) filled'
        rw [leafCount_eq, reads', List.length_take]
        omega
      · intro room
        exact .node b.edge (full long) (full' (by omega))

theorem growFrom_nil (rounds level : Nat) (t : LookupTree E T) :
    growFrom rounds (t, [], level) = t := by
  cases rounds <;> rfl

/-- A full tree grows into a left-filled one: only the last subtree that is hung on may be short of
leaves. -/
theorem leftFilled_growFrom {rounds level : Nat} {t : LookupTree E T}
    {rest : List (Breakpoint E T)} (full : t.Full level) :
    (growFrom rounds (t, rest, level)).LeftFilled := by
  induction rounds generalizing t rest level with
  | zero => exact full.leftFilled
  | succ rounds ih =>
    cases rest with
    | nil => exact full.leftFilled
    | cons b tail =>
      obtain ⟨right, built, reads, filled, room⟩ := exists_buildLimited b.value tail level
      rw [growFrom_cons built]
      by_cases long : 2 ^ level - 1 ≤ tail.length
      · exact ih (.node b.edge full (room long))
      · rw [List.drop_of_length_le (by omega), growFrom_nil]
        apply LeftFilled.node b.edge full filled
        rw [leafCount_eq, reads, List.length_take]
        have some : 0 < 2 ^ level := Nat.two_pow_pos level
        omega

theorem leftFilled_sequential (f : StepFunction E T) : (sequential f).LeftFilled :=
  leftFilled_growFrom (.leaf f.first)

end Growing

section Sequential
variable (f : StepFunction E T)

theorem leafCount_sequential : (sequential f).leafCount = f.breakpoints.length + 1 := by
  rw [leafCount_eq, toStepFunction_sequential]

theorem isLeast_depth_sequential :
    IsLeast {d | f.breakpoints.length + 1 ≤ 2 ^ d} (sequential f).depth := by
  rw [← leafCount_sequential]
  exact isLeast_depth _ (leftFilled_sequential f).depth_le

theorem depth_sequential : (sequential f).depth = (balanced f).depth :=
  (isLeast_depth_sequential f).unique (isLeast_depth_balanced f)

theorem totalComparisons_sequential_two_pow {k : Nat} (count : f.breakpoints.length + 1 = 2 ^ k) :
    (sequential f).totalComparisons = (balanced f).totalComparisons := by
  have full : (sequential f).Full k :=
    (leftFilled_sequential f).full ((leafCount_sequential f).trans count)
  have double := Nat.two_pow_succ k
  have line := totalComparisons_balanced f (k := k) count.ge (by omega)
  rw [count, Nat.add_mul] at line
  rw [full.totalComparisons]
  omega

end Sequential

section Recurrence

def grownComparisons (leaves : Nat) : Nat :=
  let f : StepFunction Unit Unit := ⟨(), List.replicate (leaves - 1) ⟨(), ()⟩⟩
  (sequential f).totalComparisons

theorem LeftFilled.totalComparisons_eq {t : LookupTree E T} (filled : t.LeftFilled) :
    t.totalComparisons = grownComparisons t.leafCount := by
  apply filled.totalComparisons_congr (leftFilled_sequential _)
  rw [leafCount_sequential, List.length_replicate]
  exact (Nat.sub_add_cancel t.leafCount_pos).symm

theorem totalComparisons_sequential (f : StepFunction E T) :
    (sequential f).totalComparisons = grownComparisons (f.breakpoints.length + 1) := by
  rw [(leftFilled_sequential f).totalComparisons_eq, leafCount_sequential]

/-- The largest full tree with room for a leaf beside it goes to the left, one level down, and the
other leaves make a tree of their own on the right. -/
theorem grownComparisons_eq {k leaves : Nat} (more : 2 ^ k < leaves) (most : leaves ≤ 2 ^ (k + 1)) :
    grownComparisons leaves =
      (k + 1) * 2 ^ k + grownComparisons (leaves - 2 ^ k) + (leaves - 2 ^ k) := by
  let f : StepFunction Unit Unit := ⟨(), List.replicate (leaves - 1) ⟨(), ()⟩⟩
  have count : (sequential f).leafCount = leaves := by
    rw [leafCount_sequential, List.length_replicate]
    omega
  obtain ⟨left, right, rightMin, same, full, filled, behind⟩ :=
    (leftFilled_sequential f).exists_node (count.symm ▸ more) (count.symm ▸ most)
  rw [count] at behind
  calc grownComparisons leaves
    _ = (node left rightMin right).totalComparisons := congrArg _ same
    _ = k * 2 ^ k + grownComparisons (leaves - 2 ^ k) + (2 ^ k + (leaves - 2 ^ k)) := by
      rw [totalComparisons_node, full.totalComparisons, filled.totalComparisons_eq, full.leafCount,
        behind]
    _ = (k + 1) * 2 ^ k + grownComparisons (leaves - 2 ^ k) + (leaves - 2 ^ k) := by ring

/-- The tree grown to the right is as deep as the halved one, so that it never asks for more
comparisons than that has levels. In all it makes no fewer comparisons, and as many where the leaves
are a power of two; how many they are depends on the number of the leaves only, and splits at the
largest power of two below it. The tree of a stream is grown the same way. -/
theorem sequential_near_optimal :
    (∀ {E T : Type} (f : StepFunction E T),
      let leaves := f.breakpoints.length + 1
      (sequential f).leafCount = leaves ∧ (sequential f).depth = (balanced f).depth ∧
        IsLeast {d | leaves ≤ 2 ^ d} (sequential f).depth ∧
        (∀ (compare : E → E → Ordering) (key : E),
          (sequential f).comparisons compare key ≤ (balanced f).depth) ∧
        (balanced f).totalComparisons ≤ (sequential f).totalComparisons ∧
        (∀ k, leaves = 2 ^ k →
          (sequential f).totalComparisons = (balanced f).totalComparisons) ∧
        ∀ (ω : Type) (s : StepStream E T) (store : Store ω (Breakpoint E T))
          (M : Meaning (Breakpoint E T)), store.Ready M → s.Shows f store M →
          s.sequentialTree.Returns store M fun t _ _ => t = sequential f) ∧
    ∃ C : Nat → Nat,
      (∀ {E T : Type} (f : StepFunction E T),
        (sequential f).totalComparisons = C (f.breakpoints.length + 1)) ∧
      C 1 = 0 ∧
      ∀ k L, 2 ^ k < L → L ≤ 2 ^ (k + 1) → C L = (k + 1) * 2 ^ k + C (L - 2 ^ k) + (L - 2 ^ k) := by
  constructor
  · intro E T f leaves
    refine ⟨leafCount_sequential f, depth_sequential f, isLeast_depth_sequential f, ?_,
      totalComparisons_balanced_le f _ (leafCount_sequential f),
      fun k => totalComparisons_sequential_two_pow f, ?_⟩
    · intro compare key
      rw [← depth_sequential]
      exact comparisons_le_depth _ compare key
    · intro ω s store M ready shows
      exact StepStream.returns_sequentialTree ready shows
  · exact ⟨grownComparisons, totalComparisons_sequential, rfl, fun k L => grownComparisons_eq⟩

/-- Five leaves take one comparison more than the least, and four the least. -/
theorem sequential_near_optimal_five :
    let f : StepFunction Nat Nat := ⟨0, [⟨1, 1⟩, ⟨2, 2⟩, ⟨3, 3⟩]⟩
    let g : StepFunction Nat Nat := ⟨0, [⟨1, 1⟩, ⟨2, 2⟩, ⟨3, 3⟩, ⟨4, 4⟩]⟩
    f.breakpoints.length + 1 = 2 ^ 2 ∧
      (sequential f).totalComparisons = (balanced f).totalComparisons ∧
      (balanced g).totalComparisons ≤ (sequential g).totalComparisons ∧
      (2 ^ 2 < 5 ∧ 5 ≤ 2 ^ 3 ∧ (sequential g).totalComparisons = 13) ∧
      ∃ (store : Store String (Breakpoint Nat Nat)) (M : Meaning (Breakpoint Nat Nat))
        (s : StepStream Nat Nat), store.Ready M ∧ s.Shows g store M ∧
        s.sequentialTree.Returns store M fun t _ _ => t = sequential g := by
  intro f g
  obtain ⟨near, C, total, alone, splits⟩ := sequential_near_optimal
  obtain ⟨-, -, -, -, -, equal, -⟩ := near f
  obtain ⟨-, -, -, -, above, -, streamed⟩ := near g
  have five : C 5 = 3 * 2 ^ 2 + C 1 + 1 := splits 2 5 (by decide) (by decide)
  obtain ⟨s, store, M, -, leaves, shows⟩ :=
    StepStream.returns_ofStepFunction (ω := String) (f := g) Store.ready_empty
  refine ⟨rfl, equal 2 rfl, above, ⟨by decide, by decide, ?_⟩, store, M, s, leaves.ready, shows,
    streamed String s store M leaves.ready shows⟩
  calc (sequential g).totalComparisons
    _ = C 5 := total g
    _ = 3 * 2 ^ 2 + 0 + 1 := by rw [five, alone]

end Recurrence

end DemandLex.LookupTree
