import DemandLex.StepFunction.Basic
import Mathlib.Data.List.Chain

/-! Look-up on breakpoints in key order. -/

namespace DemandLex.StepFunction

variable {E A B T R : Type} {compare : E → E → Ordering}

def Increasing (compare : E → E → Ordering) (breakpoints : List (Breakpoint E T)) : Prop :=
  breakpoints.IsChain fun b c => compare b.edge c.edge = .lt

/-- No breakpoint has a value that is equal to the value in force before it. -/
def Minimal (equal : T → T → Bool) : T → List (Breakpoint E T) → Prop
  | _, [] => True
  | value, b :: later => equal value b.value = false ∧ Minimal equal b.value later

instance {breakpoints : List (Breakpoint E T)} : Decidable (Increasing compare breakpoints) :=
  inferInstanceAs (Decidable (breakpoints.IsChain _))

instance decidableMinimal (equal : T → T → Bool) :
    (value : T) → (breakpoints : List (Breakpoint E T)) →
      Decidable (Minimal equal value breakpoints)
  | _, [] => isTrue trivial
  | _, b :: later =>
    haveI := decidableMinimal equal b.value later
    inferInstanceAs (Decidable (_ ∧ _))

theorem increasing_iff_pairwise [Std.TransCmp compare] {bs : List (Breakpoint E T)} :
    Increasing compare bs ↔ bs.Pairwise fun b c => compare b.edge c.edge = .lt :=
  haveI : IsTrans (Breakpoint E T) fun b c => compare b.edge c.edge = .lt :=
    ⟨fun _ _ _ first second => Std.TransCmp.lt_trans first second⟩
  List.isChain_iff_pairwise

theorem increasing_nil : Increasing compare ([] : List (Breakpoint E T)) := List.IsChain.nil

theorem increasing_cons [Std.TransCmp compare] {b : Breakpoint E T}
    {later : List (Breakpoint E T)} :
    Increasing compare (b :: later) ↔
      (∀ c ∈ later, compare b.edge c.edge = .lt) ∧ Increasing compare later := by
  rw [increasing_iff_pairwise, increasing_iff_pairwise, List.pairwise_cons]

theorem Increasing.sublist [Std.TransCmp compare] {bs cs : List (Breakpoint E T)}
    (increasing : Increasing compare cs) (part : bs.Sublist cs) : Increasing compare bs := by
  rw [increasing_iff_pairwise] at increasing ⊢
  exact increasing.sublist part

theorem Increasing.before [Std.TransCmp compare] {edge : E} {b : Breakpoint E T}
    {later : List (Breakpoint E T)} (increasing : Increasing compare (b :: later))
    (first : compare edge b.edge = .lt) : ∀ c ∈ b :: later, compare edge c.edge = .lt := by
  intro c member
  rcases List.mem_cons.mp member with same | behind
  · rw [same]
    exact first
  · exact Std.TransCmp.lt_trans first ((increasing_cons.mp increasing).1 c behind)

theorem increasing_map {f : T → R} {bs : List (Breakpoint E T)}
    (increasing : Increasing compare bs) :
    Increasing compare (bs.map fun b => (⟨b.edge, f b.value⟩ : Breakpoint E R)) :=
  (List.isChain_map _).mpr increasing

section Lookup
variable {key edge : E} {value next : T} {b : Breakpoint E T} {bs later : List (Breakpoint E T)}

theorem valueFrom_cons_after (after : compare edge key = .gt) :
    valueFrom compare key value (⟨edge, next⟩ :: later) = value := by
  simp only [valueFrom, after]

theorem valueFrom_cons_passed (passed : compare edge key ≠ .gt) :
    valueFrom compare key value (⟨edge, next⟩ :: later) = valueFrom compare key next later := by
  rw [valueFrom]
  split
  · contradiction
  · rfl

theorem valueFrom_all_after (after : ∀ b ∈ bs, compare b.edge key = .gt) :
    valueFrom compare key value bs = value := by
  cases bs with
  | nil => rfl
  | cons b later => exact valueFrom_cons_after (after b List.mem_cons_self)

theorem edges_after [Std.TransCmp compare] (increasing : Increasing compare (b :: later))
    (after : compare b.edge key = .gt) : ∀ c ∈ later, compare c.edge key = .gt := by
  intro c member
  have before := increasing.before (Std.OrientedCmp.lt_of_gt after)
  exact Std.OrientedCmp.gt_of_lt (before c (List.mem_cons_of_mem b member))

/-- Where a key precedes an edge, only the breakpoints before that edge count; where it does not,
only the breakpoint itself and those behind it. -/
theorem valueFrom_append [Std.TransCmp compare] (increasing : Increasing compare (bs ++ b :: later)) :
    valueFrom compare key value (bs ++ b :: later) =
      if compare b.edge key = .gt then valueFrom compare key value bs
      else valueFrom compare key b.value later := by
  induction bs generalizing value with
  | nil =>
    by_cases after : compare b.edge key = .gt
    · rw [List.nil_append, valueFrom_cons_after after, if_pos after]
      rfl
    · rw [List.nil_append, valueFrom_cons_passed after, if_neg after]
  | cons c bs ih =>
    obtain ⟨before, rest⟩ := increasing_cons.mp increasing
    rw [List.cons_append]
    by_cases after : compare c.edge key = .gt
    · have beyond : compare b.edge key = .gt := edges_after increasing after b (by simp)
      rw [valueFrom_cons_after after, if_pos beyond, valueFrom_cons_after after]
    · rw [valueFrom_cons_passed after, ih rest]
      by_cases beyond : compare b.edge key = .gt
      · rw [if_pos beyond, if_pos beyond, valueFrom_cons_passed after]
      · rw [if_neg beyond, if_neg beyond]

end Lookup

end DemandLex.StepFunction
