import DemandLex.Noted

/-! Machines that show a value and move on inputs. -/

namespace DemandLex

/-- A machine holds a state, shows an output of it, and moves to another state on every input. -/
structure Machine (ω ι o : Type) : Type 1 where
  State : Type
  state : State
  output : State → o
  next : State → ι → Noted ω State

namespace Machine
variable {ω ι o : Type}

def value (m : Machine ω ι o) : o := m.output m.state

/-- The machine after one input; the machine stepped is unchanged. -/
def step (m : Machine ω ι o) (input : ι) : Noted ω (Machine ω ι o) :=
  let moved := m.next m.state input
  ⟨moved.notes, { m with state := moved.value }⟩

def accumulator (reduce : o → ι → Noted ω o) (start : o) : Machine ω ι o where
  State := o
  state := start
  output := id
  next := reduce

/-- Shows the items in turn, moving on at any input and from the last back to the first. -/
def cycle (first : o) (others : List o) : Machine ω ι o where
  State := o × List o
  state := (first, others)
  output := Prod.fst
  next := fun
    | (shown, next :: later), _ => pure (next, later ++ [shown])
    | (shown, []), _ => pure (shown, [])

end Machine

end DemandLex
