import DemandLex.Proofs.StepFunction.Increasing

/-! Merging is pointwise: at every key the combination of two step functions has the reduction of
their two values, up to the equality that leaves breakpoints out. -/

namespace DemandLex.StepFunction

variable {E A B T R : Type} {compare : E → E → Ordering}

section Overlay
variable {reduce : A → B → R} {a : A} {b : B}
  {xs : List (Breakpoint E A)} {ys : List (Breakpoint E B)}

theorem overlay_cons_left {x : Breakpoint E A}
    (smaller : ∀ y ∈ ys.head?, compare x.edge y.edge = .lt) :
    overlay compare reduce a b (x :: xs) ys =
      ⟨x.edge, reduce x.value b⟩ :: overlay compare reduce x.value b xs ys := by
  cases ys with
  | nil => rw [overlay]
  | cons y ys => rw [overlay, smaller y rfl]

theorem overlay_cons_right {y : Breakpoint E B}
    (larger : ∀ x ∈ xs.head?, compare x.edge y.edge = .gt) :
    overlay compare reduce a b xs (y :: ys) =
      ⟨y.edge, reduce a y.value⟩ :: overlay compare reduce a y.value xs ys := by
  cases xs with
  | nil => rw [overlay]
  | cons x xs => rw [overlay, larger x rfl]

theorem overlay_cons_both {x : Breakpoint E A} {y : Breakpoint E B}
    (same : compare x.edge y.edge = .eq) :
    overlay compare reduce a b (x :: xs) (y :: ys) =
      ⟨x.edge, reduce x.value y.value⟩ :: overlay compare reduce x.value y.value xs ys := by
  rw [overlay, same]

theorem edge_mem_overlay {z : Breakpoint E R} (member : z ∈ overlay compare reduce a b xs ys) :
    (∃ x ∈ xs, z.edge = x.edge) ∨ ∃ y ∈ ys, z.edge = y.edge := by
  fun_induction overlay compare reduce a b xs ys with
  | case1 => cases member
  | case2 a b x xs ih | case3 a b y ys ih | case4 a b x xs y ys order ih
  | case5 a b x xs y ys order ih | case6 a b x xs y ys order ih =>
    rcases List.mem_cons.mp member with rfl | member
    · simp
    · rcases ih member with ⟨w, inside, same⟩ | ⟨w, inside, same⟩
      · exact Or.inl ⟨w, by simp_all, same⟩
      · exact Or.inr ⟨w, by simp_all, same⟩

theorem before_overlay {edge : E} (left : ∀ x ∈ xs, compare edge x.edge = .lt)
    (right : ∀ y ∈ ys, compare edge y.edge = .lt) :
    ∀ z ∈ overlay compare reduce a b xs ys, compare edge z.edge = .lt := by
  intro z member
  rcases edge_mem_overlay member with ⟨w, inside, same⟩ | ⟨w, inside, same⟩
  · exact same ▸ left w inside
  · exact same ▸ right w inside

theorem increasing_overlay [Std.TransCmp compare] (left : Increasing compare xs)
    (right : Increasing compare ys) : Increasing compare (overlay compare reduce a b xs ys) := by
  fun_induction overlay compare reduce a b xs ys with
  | case1 => exact increasing_nil
  | case2 a b x xs ih =>
    obtain ⟨before, rest⟩ := increasing_cons.mp left
    exact increasing_cons.mpr ⟨before_overlay before (by simp), ih rest right⟩
  | case3 a b y ys ih =>
    obtain ⟨before, rest⟩ := increasing_cons.mp right
    exact increasing_cons.mpr ⟨before_overlay (by simp) before, ih left rest⟩
  | case4 a b x xs y ys order ih =>
    obtain ⟨before, rest⟩ := increasing_cons.mp left
    exact increasing_cons.mpr ⟨before_overlay before (right.before order), ih rest right⟩
  | case5 a b x xs y ys order ih =>
    obtain ⟨before, rest⟩ := increasing_cons.mp left
    obtain ⟨before', rest'⟩ := increasing_cons.mp right
    have behind : ∀ w ∈ ys, compare x.edge w.edge = .lt := fun w inside =>
      Std.TransCmp.lt_of_eq_of_lt order (before' w inside)
    exact increasing_cons.mpr ⟨before_overlay before behind, ih rest rest'⟩
  | case6 a b x xs y ys order ih =>
    obtain ⟨before, rest⟩ := increasing_cons.mp right
    have behind := left.before (Std.OrientedCmp.lt_of_gt order)
    exact increasing_cons.mpr ⟨before_overlay behind before, ih left rest⟩

theorem valueFrom_overlay [Std.TransCmp compare] (key : E) (left : Increasing compare xs)
    (right : Increasing compare ys) :
    valueFrom compare key (reduce a b) (overlay compare reduce a b xs ys) =
      reduce (valueFrom compare key a xs) (valueFrom compare key b ys) := by
  fun_induction overlay compare reduce a b xs ys with
  | case1 => rfl
  | case2 a b x xs ih =>
    by_cases after : compare x.edge key = .gt
    · rw [valueFrom_cons_after after, valueFrom_cons_after after]
      rfl
    · rw [valueFrom_cons_passed after, valueFrom_cons_passed after]
      exact ih (increasing_cons.mp left).2 right
  | case3 a b y ys ih =>
    by_cases after : compare y.edge key = .gt
    · rw [valueFrom_cons_after after, valueFrom_cons_after after]
      rfl
    · rw [valueFrom_cons_passed after, valueFrom_cons_passed after]
      exact ih left (increasing_cons.mp right).2
  | case4 a b x xs y ys order ih =>
    by_cases after : compare x.edge key = .gt
    · have behind : compare y.edge key = .gt :=
        Std.TransCmp.gt_trans (Std.OrientedCmp.gt_of_lt order) after
      rw [valueFrom_cons_after after, valueFrom_cons_after after, valueFrom_cons_after behind]
    · rw [valueFrom_cons_passed after, valueFrom_cons_passed after]
      exact ih (increasing_cons.mp left).2 right
  | case5 a b x xs y ys order ih =>
    have together : compare x.edge key = compare y.edge key := Std.TransCmp.congr_left order
    by_cases after : compare x.edge key = .gt
    · rw [valueFrom_cons_after after, valueFrom_cons_after after,
        valueFrom_cons_after (together ▸ after)]
    · rw [valueFrom_cons_passed after, valueFrom_cons_passed after,
        valueFrom_cons_passed (together ▸ after)]
      exact ih (increasing_cons.mp left).2 (increasing_cons.mp right).2
  | case6 a b x xs y ys order ih =>
    by_cases after : compare y.edge key = .gt
    · have behind : compare x.edge key = .gt := Std.TransCmp.gt_trans order after
      rw [valueFrom_cons_after after, valueFrom_cons_after behind, valueFrom_cons_after after]
    · rw [valueFrom_cons_passed after, valueFrom_cons_passed after]
      exact ih left (increasing_cons.mp right).2

end Overlay

section Minimise
variable {equal : T → T → Bool} {kept : T} {bs : List (Breakpoint E T)}

theorem minimise_sublist : (minimise equal kept bs).Sublist bs := by
  fun_induction minimise equal kept bs with
  | case1 => exact List.Sublist.refl []
  | case2 kept b later absorbed ih => exact List.Sublist.cons b ih
  | case3 kept b later different ih => exact List.Sublist.cons_cons b ih

theorem increasing_minimise [Std.TransCmp compare] (increasing : Increasing compare bs) :
    Increasing compare (minimise equal kept bs) := increasing.sublist minimise_sublist

/-- The comparison is always with the last value kept. -/
theorem minimal_minimise : Minimal equal kept (minimise equal kept bs) := by
  fun_induction minimise equal kept bs with
  | case1 => exact trivial
  | case2 kept b later absorbed ih => exact ih
  | case3 kept b later different ih => exact ⟨by simpa using different, ih⟩

theorem minimise_of_minimal (minimal : Minimal equal kept bs) : minimise equal kept bs = bs := by
  induction bs generalizing kept with
  | nil => rfl
  | cons b later ih =>
    obtain ⟨changes, minimal⟩ := minimal
    rw [minimise, if_neg (by rw [changes]; exact Bool.false_ne_true), ih minimal]

/-- Leaving breakpoints out gives at every key the value itself or one that was found equal to it,
however many have been left out since the value shown was kept. -/
theorem valueFrom_minimise [Std.TransCmp compare] (key : E) {value : T}
    (increasing : Increasing compare bs) (close : kept = value ∨ equal kept value = true) :
    valueFrom compare key kept (minimise equal kept bs) = valueFrom compare key value bs ∨
      equal (valueFrom compare key kept (minimise equal kept bs))
        (valueFrom compare key value bs) = true := by
  fun_induction minimise equal kept bs generalizing value with
  | case1 => exact close
  | case2 kept b later absorbed ih =>
    by_cases after : compare b.edge key = .gt
    · have beyond : ∀ c ∈ minimise equal kept later, compare c.edge key = .gt := fun c member =>
        edges_after increasing after c (minimise_sublist.subset member)
      rw [valueFrom_cons_after after, valueFrom_all_after beyond]
      exact close
    · rw [valueFrom_cons_passed after]
      exact ih (increasing_cons.mp increasing).2 (Or.inr absorbed)
  | case3 kept b later different ih =>
    by_cases after : compare b.edge key = .gt
    · rw [valueFrom_cons_after after, valueFrom_cons_after after]
      exact close
    · rw [valueFrom_cons_passed after, valueFrom_cons_passed after]
      exact ih (increasing_cons.mp increasing).2 (Or.inl rfl)

end Minimise

section Add
variable {equal : T → T → Bool} {interval : Interval E T} {f : StepFunction E T}

theorem increasing_patch (nonempty : compare interval.min interval.max = .lt) :
    Increasing compare (patch interval).breakpoints :=
  List.isChain_cons_cons.mpr ⟨nonempty, List.isChain_singleton _⟩

theorem add_nonempty (nonempty : compare interval.min interval.max = .lt) :
    f.add ⟨compare, equal⟩ interval =
      f.merge ⟨compare, equal⟩ (fun old new => new.getD old) (patch interval) := by
  rw [add]
  simp only [nonempty]

theorem add_empty (empty : compare interval.min interval.max ≠ .lt) :
    f.add ⟨compare, equal⟩ interval = f := by
  rw [add]
  split
  · contradiction
  · rfl

theorem first_add : (f.add ⟨compare, equal⟩ interval).first = f.first := by
  rw [add]
  split <;> rfl

end Add

end DemandLex.StepFunction
