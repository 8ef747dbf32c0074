import DemandLex.Sequence.Lazy
import Mathlib.Order.Basic

/-! What lazy sequences mean: the lists they hold, whatever part of them has been computed. A
meaning says for every place of every spine which sequence begins there. Producers are read against
a meaning, which answers their questions about other spines. -/

namespace DemandLex

/-- The sequence that begins at each place of each spine; none where its computation does not
end. -/
abbrev Meaning (ν : Type) := Node → Option (Sequence ν)

namespace Meaning

variable {ν : Type}

def after (M : Meaning ν) (node : Node) : Option (Sequence ν) := M ⟨node.spine, node.index + 1⟩

inductive Holds (M : Meaning ν) : Sequence ν → List ν → Prop
  | nil : Holds M none []
  | cons {cell : Cell ν} {rest : Sequence ν} {values : List ν}
      (follows : M.after cell.node = some rest) (tail : Holds M rest values) :
      Holds M (some cell) (cell.value :: values)

/-- The first elements of a sequence, which may go on behind them or never get there. -/
inductive Begins (M : Meaning ν) : Sequence ν → List ν → Prop
  | nil {s : Sequence ν} : Begins M s []
  | one {cell : Cell ν} : Begins M (some cell) [cell.value]
  | cons {cell : Cell ν} {rest : Sequence ν} {values : List ν}
      (follows : M.after cell.node = some rest) (tail : Begins M rest values) :
      Begins M (some cell) (cell.value :: values)

def Agree (M N : Meaning ν) (bound : Nat) : Prop :=
  ∀ node : Node, node.spine < bound → N node = M node

theorem Holds.unique {M : Meaning ν} {s : Sequence ν} {first second : List ν}
    (left : Holds M s first) (right : Holds M s second) : first = second := by
  induction left generalizing second with
  | nil =>
    cases right
    rfl
  | cons follows tail ih =>
    cases right with
    | cons follows' tail' =>
      cases follows.symm.trans follows'
      rw [ih tail']

end Meaning

/-- A sequence whose first element stands in a spine before `bound`, at a place already computed
when the spines have these sizes. -/
def Sequence.Within {ν : Type} (bound : Nat) (sizes : Nat → Nat) (s : Sequence ν) : Prop :=
  ∀ cell, s = some cell → cell.node.spine < bound ∧ cell.node.index < sizes cell.node.spine

theorem Sequence.within_none {ν : Type} {bound : Nat} {sizes : Nat → Nat} :
    Sequence.Within bound sizes (none : Sequence ν) := fun _ found => by cases found

theorem Sequence.Within.grow {ν : Type} {bound : Nat} {sizes sizes' : Nat → Nat} {s : Sequence ν}
    (within : s.Within bound sizes) (more : sizes ≤ sizes') : s.Within bound sizes' :=
  fun cell found => ⟨(within cell found).1, Nat.lt_of_lt_of_le (within cell found).2 (more _)⟩

theorem Sequence.Within.weaken {ν : Type} {bound bound' : Nat} {sizes : Nat → Nat} {s : Sequence ν}
    (within : s.Within bound sizes) (larger : bound ≤ bound') : s.Within bound' sizes :=
  fun cell found => ⟨Nat.lt_of_lt_of_le (within cell found).1 larger, (within cell found).2⟩

namespace Producer

variable {ω ν σ α : Type} {M N : Meaning ν} {step : σ → Noted ω (Move ν σ α)}

/-- Where a producer comes to rest: at its next element and the state behind it, or at its end. -/
inductive Reaches (M : Meaning ν) (step : σ → Noted ω (Move ν σ α)) : σ → Option (α × σ) → Prop
  | yield {s next : σ} {value : α} (move : (step s).value = .yield value next) :
      Reaches M step s (some (value, next))
  | done {s : σ} (move : (step s).value = .done) : Reaches M step s none
  | skip {s next : σ} {r : Option (α × σ)} (move : (step s).value = .skip next)
      (later : Reaches M step next r) : Reaches M step s r
  | force {s : σ} {node : Node} {resume : Sequence ν → σ} {q : Sequence ν} {r : Option (α × σ)}
      (move : (step s).value = .force node resume) (follows : M.after node = some q)
      (later : Reaches M step (resume q) r) : Reaches M step s r

inductive Starts (M : Meaning ν) (step : σ → Noted ω (Move ν σ α)) : σ → List α → σ → Prop
  | nil {s : σ} : Starts M step s [] s
  | cons {s next last : σ} {value : α} {values : List α}
      (first : Reaches M step s (some (value, next))) (later : Starts M step next values last) :
      Starts M step s (value :: values) last

def Gives (M : Meaning ν) (step : σ → Noted ω (Move ν σ α)) (s : σ) (values : List α) : Prop :=
  ∃ last, Starts M step s values last ∧ Reaches M step last none

theorem gives_nil {s : σ} : Gives M step s [] ↔ Reaches M step s none := by
  constructor
  · intro found
    obtain ⟨last, start, stop⟩ := found
    cases start
    exact stop
  · intro stop
    exact ⟨s, .nil, stop⟩

theorem gives_cons {s : σ} {value : α} {values : List α} :
    Gives M step s (value :: values) ↔
      ∃ next, Reaches M step s (some (value, next)) ∧ Gives M step next values := by
  constructor
  · intro found
    obtain ⟨last, start, stop⟩ := found
    cases start with
    | cons first later => exact ⟨_, first, last, later, stop⟩
  · intro found
    obtain ⟨next, first, last, later, stop⟩ := found
    exact ⟨last, .cons first later, stop⟩

section Steps
variable {s next : σ}

theorem reaches_yield {value : α} {r : Option (α × σ)}
    (move : (step s).value = .yield value next) :
    Reaches M step s r ↔ r = some (value, next) := by
  constructor
  · intro reached
    cases reached with
    | yield move' => cases move.symm.trans move'; rfl
    | done move' | skip move' | force move' => cases move.symm.trans move'
  · intro same
    subst same
    exact .yield move

theorem reaches_done {r : Option (α × σ)} (move : (step s).value = .done) :
    Reaches M step s r ↔ r = none := by
  constructor
  · intro reached
    cases reached with
    | done move' => rfl
    | yield move' | skip move' | force move' => cases move.symm.trans move'
  · intro same
    subst same
    exact .done move

theorem reaches_skip {r : Option (α × σ)} (move : (step s).value = .skip next) :
    Reaches M step s r ↔ Reaches M step next r := by
  constructor
  · intro reached
    cases reached with
    | skip move' later => cases move.symm.trans move'; exact later
    | yield move' | done move' | force move' => cases move.symm.trans move'
  · exact .skip move

theorem reaches_force {node : Node} {resume : Sequence ν → σ} {q : Sequence ν}
    {r : Option (α × σ)} (move : (step s).value = .force node resume)
    (follows : M.after node = some q) :
    Reaches M step s r ↔ Reaches M step (resume q) r := by
  constructor
  · intro reached
    cases reached with
    | force move' follows' later =>
      cases move.symm.trans move'
      cases follows.symm.trans follows'
      exact later
    | yield move' | done move' | skip move' => cases move.symm.trans move'
  · exact .force move follows

end Steps

theorem Reaches.unique {s : σ} {first second : Option (α × σ)} (left : Reaches M step s first)
    (right : Reaches M step s second) : first = second := by
  induction left with
  | yield move => exact ((reaches_yield move).mp right).symm
  | done move => exact ((reaches_done move).mp right).symm
  | skip move later ih => exact ih ((reaches_skip move).mp right)
  | force move follows later ih => exact ih ((reaches_force move follows).mp right)

end Producer

end DemandLex
