import DemandLex.Proofs.StepFunction.Stream

/-! A merge of two step functions reduces their two values at every key. -/

namespace DemandLex.StepFunction

section Merge
variable {ω E A B R T : Type} {compare : E → E → Ordering}

/-- The value of a merge is the reduction itself, or a value that the strategy found equal to it and
kept in its place. -/
theorem get_merge [Std.TransCmp compare] {equal : R → R → Bool} {reduce : A → B → R}
    {f : StepFunction E A} {g : StepFunction E B} (key : E)
    (left : Increasing compare f.breakpoints) (right : Increasing compare g.breakpoints) :
    (f.merge ⟨compare, equal⟩ reduce g).get compare key =
        reduce (f.get compare key) (g.get compare key) ∨
      equal ((f.merge ⟨compare, equal⟩ reduce g).get compare key)
        (reduce (f.get compare key) (g.get compare key)) = true := by
  have walked : valueFrom compare key (reduce f.first g.first)
      (overlay compare reduce f.first g.first f.breakpoints g.breakpoints) =
        reduce (f.get compare key) (g.get compare key) := valueFrom_overlay key left right
  rw [← walked]
  exact valueFrom_minimise key (increasing_overlay left right) (Or.inl rfl)

theorem get_merge_of_exact [Std.TransCmp compare] {equal : R → R → Bool} {reduce : A → B → R}
    {f : StepFunction E A} {g : StepFunction E B} (key : E)
    (exact : ∀ x y, equal x y = true → x = y) (left : Increasing compare f.breakpoints)
    (right : Increasing compare g.breakpoints) :
    (f.merge ⟨compare, equal⟩ reduce g).get compare key =
      reduce (f.get compare key) (g.get compare key) :=
  (get_merge key left right).elim id (exact _ _)

theorem get_patch {interval : Interval E T} (key : E) :
    (patch interval).get compare key =
      if compare interval.min key ≠ .gt ∧ compare interval.max key = .gt then
        some interval.value
      else none := by
  rw [get, patch]
  by_cases before : compare interval.min key = .gt
  · rw [valueFrom_cons_after before, if_neg fun inside => inside.1 before]
  · rw [valueFrom_cons_passed before]
    by_cases inside : compare interval.max key = .gt
    · rw [valueFrom_cons_after inside, if_pos ⟨before, inside⟩]
    · rw [valueFrom_cons_passed inside, if_neg fun both => inside both.2]
      rfl

theorem get_add_of_exact [Std.TransCmp compare] {equal : T → T → Bool} {interval : Interval E T}
    {f : StepFunction E T} (key : E) (exact : ∀ x y, equal x y = true → x = y)
    (increasing : Increasing compare f.breakpoints) :
    (f.add ⟨compare, equal⟩ interval).get compare key =
      if compare interval.min key ≠ .gt ∧ compare interval.max key = .gt then interval.value
      else f.get compare key := by
  by_cases nonempty : compare interval.min interval.max = .lt
  · rw [add_nonempty nonempty,
      get_merge_of_exact key exact increasing (increasing_patch nonempty), get_patch]
    split <;> rfl
  · rw [add_empty nonempty, if_neg]
    intro found
    obtain ⟨after, before⟩ := found
    exact nonempty (Std.TransCmp.lt_of_isLE_of_lt (Ordering.isLE_iff_ne_gt.mpr after)
      (Std.OrientedCmp.lt_of_gt before))

theorem returns_get_mergeWith [Std.TransCmp compare] {equal : T → T → Noted ω Bool}
    {reduce : T → T → Noted ω T} {a b : StepStream E T} {f g : StepFunction E T}
    {store : Store ω (Breakpoint E T)} {M : Meaning (Breakpoint E T)} (key : E)
    (left : Increasing compare f.breakpoints) (right : Increasing compare g.breakpoints)
    (ready : store.Ready M) (leftShows : a.Shows f store M) (rightShows : b.Shows g store M) :
    (do
      let x ← a.get compare key
      let y ← b.get compare key
      let merged ← StepStream.mergeWith compare equal reduce a b
      let m ← merged.get compare key
      pure (x, y, m)).Returns store M fun (x, y, m) _ _ =>
        m = silent reduce x y ∨ silent equal m (silent reduce x y) = true := by
  apply (StepStream.returns_get ready leftShows).bind
  intro x store₁ M₁ leaves₁ same
  subst same
  have leftShows₁ := leftShows.later ready leaves₁
  have rightShows₁ := rightShows.later ready leaves₁
  apply (StepStream.returns_get leaves₁.ready rightShows₁).bind
  intro y store₂ M₂ leaves₂ same
  subst same
  refine (StepStream.returns_mergeWith leaves₂.ready (leftShows₁.later leaves₁.ready leaves₂)
    (rightShows₁.later leaves₁.ready leaves₂)).bind ?_
  intro merged store₃ M₃ leaves₃ shows
  apply (StepStream.returns_get leaves₃.ready shows).bind
  intro m store₄ M₄ leaves₄ same
  subst same
  exact Lazy.returns_pure leaves₄.ready (get_merge key left right)

/-- At every key a merge has the reduction of the two values, or a value equal to it; where equal
values are the same, it has the reduction. So do the merge of two lists of breakpoints and the merge
of two streams that is run while it is read. -/
theorem merge_pointwise (compare : E → E → Ordering) [Std.TransCmp compare] (key : E) :
    (∀ (A B R : Type) (equal : R → R → Bool) (reduce : A → B → R) (f : StepFunction E A)
      (g : StepFunction E B), Increasing compare f.breakpoints → Increasing compare g.breakpoints →
      let r := reduce (f.get compare key) (g.get compare key)
      let m := (f.merge ⟨compare, equal⟩ reduce g).get compare key
      (m = r ∨ equal m r = true) ∧ ((∀ x y, equal x y = true → x = y) → m = r)) ∧
    ∀ (ω T : Type) (equal : T → T → Noted ω Bool) (reduce : T → T → Noted ω T)
      (a b : StepStream E T) (f g : StepFunction E T) (store : Store ω (Breakpoint E T))
      (M : Meaning (Breakpoint E T)), Increasing compare f.breakpoints →
      Increasing compare g.breakpoints → store.Ready M → a.Shows f store M → b.Shows g store M →
      (do
        let x ← a.get compare key
        let y ← b.get compare key
        let merged ← StepStream.mergeWith compare equal reduce a b
        let m ← merged.get compare key
        pure (x, y, m)).Returns store M fun (x, y, m) _ _ =>
          (m = silent reduce x y ∨ silent equal m (silent reduce x y) = true) ∧
            ((∀ x y, silent equal x y = true → x = y) → m = silent reduce x y) := by
  constructor
  · intro A B R equal reduce f g left right
    exact ⟨get_merge key left right, fun same => get_merge_of_exact key same left right⟩
  · intro ω T equal reduce a b f g store M left right ready leftShows rightShows
    apply (returns_get_mergeWith key left right ready leftShows rightShows).mono
    intro result store' M' leaves close
    obtain ⟨x, y, m⟩ := result
    exact ⟨close, fun same => close.elim id (same _ _)⟩

end Merge

/-- Keys that have their tens in common are not told apart, and the equality is not transitive. -/
theorem merge_pointwise_tens :
    let tens : Nat → Nat → Ordering := compareOn (· / 10)
    let near (x y : Nat) : Bool := x ≤ y + 1 && y ≤ x + 1
    let f : StepFunction Nat Nat := ⟨0, [⟨21, 1⟩, ⟨43, 2⟩, ⟨65, 3⟩]⟩
    let g : StepFunction Nat Nat := ⟨1, [⟨47, 1⟩, ⟨50, 2⟩]⟩
    Increasing tens f.breakpoints ∧ Increasing tens g.breakpoints ∧
      ((f.merge ⟨tens, near⟩ (· + ·) g).get tens 59 = 4 ∨
        near ((f.merge ⟨tens, near⟩ (· + ·) g).get tens 59) 4 = true) ∧
      ∃ (store : Store String (Breakpoint Nat Nat)) (M : Meaning (Breakpoint Nat Nat))
        (a b : StepStream Nat Nat), store.Ready M ∧ a.Shows f store M ∧ b.Shows g store M ∧
        (do
          let x ← a.get tens 59
          let y ← b.get tens 59
          let merged ← StepStream.mergeWith tens (fun x y => pure (near x y))
            (fun x y => pure (x + y)) a b
          let m ← merged.get tens 59
          pure (x, y, m)).Returns store M fun (x, y, m) _ _ => m = x + y ∨ near m (x + y) = true := by
  intro tens near f g
  have left : Increasing tens f.breakpoints := by decide
  have right : Increasing tens g.breakpoints := by decide
  obtain ⟨listed, streamed⟩ := merge_pointwise tens 59
  obtain ⟨a, store, M, -, leaves, leftShows⟩ :=
    StepStream.returns_ofStepFunction (ω := String) (f := f) Store.ready_empty
  obtain ⟨b, store', M', -, leaves', rightShows⟩ :=
    StepStream.returns_ofStepFunction (f := g) leaves.ready
  have both := leftShows.later leaves.ready leaves'
  refine ⟨left, right, (listed Nat Nat Nat near (· + ·) f g left right).1, store', M', a, b,
    leaves'.ready, both, rightShows, ?_⟩
  refine (streamed String Nat (fun x y => pure (near x y)) (fun x y => pure (x + y)) a b f g store' M'
    left right leaves'.ready both rightShows).mono ?_
  intro result store'' M'' leaves'' found
  obtain ⟨x, y, m⟩ := result
  obtain ⟨close, -⟩ := found
  exact close

end DemandLex.StepFunction
