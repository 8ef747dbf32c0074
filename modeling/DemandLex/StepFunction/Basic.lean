import DemandLex.Strategy

/-! Total step functions over ordered keys, given by a first value and the breakpoints at which the
value changes. -/

namespace DemandLex

/-- A key from which on the step function has a new value. -/
structure Breakpoint (E T : Type) where
  edge : E
  value : T
  deriving DecidableEq, Repr, Inhabited

/-- The keys from `min` on and before `max`, with a value for them. -/
structure Interval (E T : Type) where
  min : E
  max : E
  value : T

/-- Keys before the first breakpoint have the value `first`; any other key has the value of the last
breakpoint that is not after it. -/
structure StepFunction (E T : Type) where
  first : T
  breakpoints : List (Breakpoint E T)
  deriving DecidableEq, Repr, Inhabited

namespace StepFunction
variable {E A B T R : Type}

def constant (value : T) : StepFunction E T := ⟨value, []⟩

/-- The value in force at a key, starting from a value and passing the edges that are not after
the key. -/
def valueFrom (compare : E → E → Ordering) (key : E) (value : T) : List (Breakpoint E T) → T
  | [] => value
  | b :: later =>
    match compare b.edge key with
    | .gt => value
    | _ => valueFrom compare key b.value later

def get (f : StepFunction E T) (compare : E → E → Ordering) (key : E) : T :=
  valueFrom compare key f.first f.breakpoints

/-- Leaves out every breakpoint whose value is equal to the last value kept. -/
def minimise (equal : T → T → Bool) : T → List (Breakpoint E T) → List (Breakpoint E T)
  | _, [] => []
  | kept, b :: later =>
    if equal kept b.value then minimise equal kept later
    else b :: minimise equal b.value later

/-- Walks two lists of breakpoints in edge order and reduces the two values in force at every edge;
an edge that both lists have gives one breakpoint. -/
def overlay (compare : E → E → Ordering) (reduce : A → B → R) :
    A → B → List (Breakpoint E A) → List (Breakpoint E B) → List (Breakpoint E R)
  | _, _, [], [] => []
  | _, b, x :: xs, [] => ⟨x.edge, reduce x.value b⟩ :: overlay compare reduce x.value b xs []
  | a, _, [], y :: ys => ⟨y.edge, reduce a y.value⟩ :: overlay compare reduce a y.value [] ys
  | a, b, x :: xs, y :: ys =>
    match compare x.edge y.edge with
    | .lt => ⟨x.edge, reduce x.value b⟩ :: overlay compare reduce x.value b xs (y :: ys)
    | .eq => ⟨x.edge, reduce x.value y.value⟩ :: overlay compare reduce x.value y.value xs ys
    | .gt => ⟨y.edge, reduce a y.value⟩ :: overlay compare reduce a y.value (x :: xs) ys
termination_by _ _ xs ys => xs.length + ys.length

/-- The pointwise combination of two step functions, without repeated values. -/
def merge (strategy : Strategy E R) (reduce : A → B → R) (a : StepFunction E A)
    (b : StepFunction E B) : StepFunction E R :=
  let first := reduce a.first b.first
  ⟨first, minimise strategy.equal first
    (overlay strategy.compare reduce a.first b.first a.breakpoints b.breakpoints)⟩

/-- Transforms every value and leaves out the repetitions this makes. -/
def map (equal : R → R → Bool) (f : T → R) (s : StepFunction E T) : StepFunction E R :=
  let first := f s.first
  ⟨first, minimise equal first (s.breakpoints.map fun b => ⟨b.edge, f b.value⟩)⟩

def patch (interval : Interval E T) : StepFunction E (Option T) :=
  ⟨none, [⟨interval.min, some interval.value⟩, ⟨interval.max, none⟩]⟩

/-- Overwrites the values inside an interval; an empty interval changes nothing. -/
def add (strategy : Strategy E T) (s : StepFunction E T) (interval : Interval E T) :
    StepFunction E T :=
  match strategy.compare interval.min interval.max with
  | .lt => merge strategy (fun old new => new.getD old) s (patch interval)
  | _ => s

def render (edge : E → String) (value : T → String) (s : StepFunction E T) : String :=
  s.breakpoints.foldl (fun text b => text ++ " | " ++ edge b.edge ++ ": " ++ value b.value)
    (value s.first)

end StepFunction

end DemandLex
