import DemandLex.Proofs.StepFunction.WellFormed
import Mathlib.Data.List.Forall2

/-! A step function that repeats no value has its breakpoints from its values alone: they stand where
the value changes. -/

namespace DemandLex.StepFunction

variable {E T : Type} {compare : E → E → Ordering} {equal : T → T → Bool} {value : T}
  {b : Breakpoint E T} {bs cs later : List (Breakpoint E T)}

def SameSteps (compare : E → E → Ordering) (bs cs : List (Breakpoint E T)) : Prop :=
  List.Forall₂ (fun b c => compare b.edge c.edge = .eq ∧ b.value = c.value) bs cs

theorem SameSteps.eq [Std.LawfulEqCmp compare] (same : SameSteps compare bs cs) : bs = cs := by
  induction same with
  | nil => rfl
  | @cons b c bs cs first later ih =>
    obtain ⟨edge, value⟩ := b
    obtain ⟨edge', value'⟩ := c
    obtain ⟨together, rfl⟩ := first
    cases Std.LawfulEqCmp.eq_of_compare together
    rw [ih]

theorem valueFrom_at_edge [Std.TransCmp compare] (increasing : Increasing compare (b :: later)) :
    valueFrom compare b.edge value (b :: later) = b.value := by
  obtain ⟨behind, -⟩ := increasing_cons.mp increasing
  rw [valueFrom_cons_passed (by simp [Std.ReflCmp.compare_self])]
  exact valueFrom_all_after fun c member => Std.OrientedCmp.gt_of_lt (behind c member)

theorem valueFrom_ne_of_before [Std.TransCmp compare] (reflexive : ∀ x, equal x x = true)
    (increasing : Increasing compare (b :: later)) (minimal : Minimal equal value (b :: later))
    (before : ∀ c ∈ cs, compare b.edge c.edge = .lt) :
    valueFrom compare b.edge value (b :: later) ≠ valueFrom compare b.edge value cs := by
  rw [valueFrom_at_edge increasing,
    valueFrom_all_after fun c member => Std.OrientedCmp.gt_of_lt (before c member)]
  intro same
  have changes := minimal.1
  rw [same, reflexive] at changes
  cases changes

/-- Breakpoints that repeat no value and give the same value at every key are the same, up to keys
that compare equal. -/
theorem sameSteps_of_valueFrom [Std.TransCmp compare] (reflexive : ∀ x, equal x x = true)
    (left : Increasing compare bs) (right : Increasing compare cs)
    (leftMinimal : Minimal equal value bs) (rightMinimal : Minimal equal value cs)
    (same : ∀ key, valueFrom compare key value bs = valueFrom compare key value cs) :
    SameSteps compare bs cs := by
  -- A breakpoint that one list has before the other changes the value there, as the list is minimal.
  induction bs generalizing value cs with
  | nil =>
    cases cs with
    | nil => exact .nil
    | cons c cs =>
      exact absurd (same c.edge).symm (valueFrom_ne_of_before reflexive right rightMinimal (by simp))
  | cons b bs ih =>
    cases cs with
    | nil => exact absurd (same b.edge) (valueFrom_ne_of_before reflexive left leftMinimal (by simp))
    | cons c cs =>
      cases order : compare b.edge c.edge with
      | lt =>
        exact absurd (same b.edge)
          (valueFrom_ne_of_before reflexive left leftMinimal (right.before order))
      | gt =>
        have before := left.before (Std.OrientedCmp.lt_of_gt order)
        exact absurd (same c.edge).symm (valueFrom_ne_of_before reflexive right rightMinimal before)
      | eq =>
        have values : b.value = c.value := by
          have found := same b.edge
          rw [valueFrom_at_edge left, valueFrom_cons_passed] at found
          · rw [found]
            obtain ⟨behind, -⟩ := increasing_cons.mp right
            exact valueFrom_all_after fun d member =>
              Std.OrientedCmp.gt_of_lt (Std.TransCmp.lt_of_eq_of_lt order (behind d member))
          · simp [Std.OrientedCmp.eq_symm order]
        refine .cons ⟨order, values⟩ (ih (increasing_cons.mp left).2 (increasing_cons.mp right).2
          leftMinimal.2 (values ▸ rightMinimal.2) ?_)
        intro key
        -- Before the common edge the tails show its value, behind it they are the lists themselves.
        by_cases after : compare b.edge key = .gt
        · have after' : compare c.edge key = .gt := Std.TransCmp.congr_left order ▸ after
          rw [valueFrom_all_after (edges_after left after),
            valueFrom_all_after (edges_after right after')]
        · have after' : compare c.edge key ≠ .gt := Std.TransCmp.congr_left order ▸ after
          have found := same key
          rw [valueFrom_cons_passed after, valueFrom_cons_passed after'] at found
          rw [found, values]

theorem sameSteps_of_get [Std.TransCmp compare] {f g : StepFunction E T}
    (reflexive : ∀ x, equal x x = true) (left : WellFormed compare equal f)
    (right : WellFormed compare equal g) (first : f.first = g.first)
    (same : ∀ key, f.get compare key = g.get compare key) :
    SameSteps compare f.breakpoints g.breakpoints := by
  refine sameSteps_of_valueFrom reflexive left.increasing right.increasing left.minimal
    (first ▸ right.minimal) ?_
  intro key
  exact (same key).trans (by rw [get, first])

theorem eq_of_parts {f g : StepFunction E T} (first : f.first = g.first)
    (breakpoints : f.breakpoints = g.breakpoints) : f = g := by
  cases f
  cases g
  cases first
  cases breakpoints
  rfl

theorem eq_of_get [Std.TransCmp compare] [Std.LawfulEqCmp compare] {f g : StepFunction E T}
    (reflexive : ∀ x, equal x x = true) (left : WellFormed compare equal f)
    (right : WellFormed compare equal g) (first : f.first = g.first)
    (same : ∀ key, f.get compare key = g.get compare key) : f = g :=
  eq_of_parts first (sameSteps_of_get reflexive left right first same).eq

end DemandLex.StepFunction
