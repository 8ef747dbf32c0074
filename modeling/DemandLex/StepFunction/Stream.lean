import DemandLex.Sequence.Lazy
import DemandLex.StepFunction.Tree

/-! Step functions whose breakpoints are a lazy sequence, possibly without an end. -/

namespace DemandLex

/-- One of the two streams of a merge: its next element still to be asked for, at hand, or none. -/
inductive Side (σ α : Type) where
  | pending (state : σ)
  | ready (value : α) (next : σ)
  | ended

/-- A merge holds both streams, the values in force, and the edge it has just passed. -/
structure MergeState (σ τ E A B : Type) where
  left : Side σ (Breakpoint E A)
  leftValue : A
  right : Side τ (Breakpoint E B)
  rightValue : B
  passed : Option E

namespace MergeState
variable {ω ν σ τ E A B R : Type}

def takeLeft (s : MergeState σ τ E A B) (x : Breakpoint E A) (next : σ) : MergeState σ τ E A B :=
  { s with left := .pending next, leftValue := x.value, passed := some x.edge }

def takeRight (s : MergeState σ τ E A B) (y : Breakpoint E B) (next : τ) : MergeState σ τ E A B :=
  { s with right := .pending next, rightValue := y.value, passed := some y.edge }

/-- Passes the smaller of the two next edges, or both when they are equal; the edge of the left
stream is the one that is kept. -/
def pass? (compare : E → E → Ordering) (s : MergeState σ τ E A B) :
    Option (MergeState σ τ E A B) :=
  match s.left, s.right with
  | .ready x next, .ready y later =>
    match compare x.edge y.edge with
    | .lt => some (s.takeLeft x next)
    | .eq => some ((s.takeRight y later).takeLeft x next)
    | .gt => some (s.takeRight y later)
  | .ready x next, _ => some (s.takeLeft x next)
  | _, .ready y later => some (s.takeRight y later)
  | _, _ => none

end MergeState

def Move.advance {ν σ κ α β : Type} (place : Side σ α → κ) : Move ν σ α → Move ν κ β
  | .yield value next => .skip (place (.ready value next))
  | .skip next => .skip (place (.pending next))
  | .force node resume => .force node fun s => place (.pending (resume s))
  | .done => .skip (place .ended)

namespace Producer
variable {ω ν E A B R : Type}

/-- Walks two streams of breakpoints in edge order. Behind every edge passed, the streams that had
it are first brought to their next breakpoint, the left one before the right one; then the two
values in force are reduced. -/
def overlay (compare : E → E → Ordering) (reduce : A → B → Noted ω R) (a : A) (b : B)
    (p : Producer ω ν (Breakpoint E A)) (q : Producer ω ν (Breakpoint E B)) :
    Producer ω ν (Breakpoint E R) where
  State := MergeState p.State q.State E A B
  state := ⟨.pending p.state, a, .pending q.state, b, none⟩
  step s :=
    match s.left, s.right, s.passed with
    | .pending next, _, _ => do
      let move ← p.step next
      pure (move.advance fun side => { s with left := side })
    | _, .pending next, _ => do
      let move ← q.step next
      pure (move.advance fun side => { s with right := side })
    | _, _, some edge => do
      let value ← reduce s.leftValue s.rightValue
      pure (.yield ⟨edge, value⟩ { s with passed := none })
    | _, _, none =>
      match s.pass? compare with
      | some next => pure (.skip next)
      | none => pure .done

def minimise (equal : R → R → Noted ω Bool) (first : R) (p : Producer ω ν (Breakpoint E R)) :
    Producer ω ν (Breakpoint E R) :=
  p.scanFilter first fun kept b => do
    if ← equal kept b.value then pure (kept, none) else pure (b.value, some b)

end Producer

structure StepStream (E T : Type) where
  first : T
  rest : Sequence (Breakpoint E T)

namespace StepStream
variable {ω E T U : Type}

def constant (value : T) : StepStream E T := ⟨value, none⟩

def ofStepFunction (f : StepFunction E T) : Lazy ω (Breakpoint E T) (StepStream E T) := do
  let rest ← (Producer.ofList f.breakpoints).share
  pure ⟨f.first, rest⟩

def merge (compare : E → E → Ordering) (equal : T → T → Noted ω Bool)
    (reduce : T → U → Noted ω T) (a : StepStream E T) (first : U)
    (q : Producer ω (Breakpoint E T) (Breakpoint E U)) :
    Lazy ω (Breakpoint E T) (StepStream E T) := do
  let value ← Lazy.noted (reduce a.first first)
  let rest ← (((Producer.ofSequence a.rest).overlay compare reduce a.first first q).minimise
    equal value).share
  pure ⟨value, rest⟩

def mergeWith (compare : E → E → Ordering) (equal : T → T → Noted ω Bool)
    (reduce : T → T → Noted ω T) (a b : StepStream E T) :
    Lazy ω (Breakpoint E T) (StepStream E T) :=
  merge compare equal reduce a b.first (.ofSequence b.rest)

/-- Overwrites the values inside an interval; an empty interval gives the step function back. -/
def add (compare : E → E → Ordering) (equal : T → T → Noted ω Bool) (s : StepStream E T)
    (interval : Interval E T) : Lazy ω (Breakpoint E T) (StepStream E T) :=
  match compare interval.min interval.max with
  | .lt =>
    let patch := StepFunction.patch interval
    merge compare equal (fun old new => pure (new.getD old)) s patch.first
      (.ofList patch.breakpoints)
  | _ => pure s

def map (equal : T → T → Noted ω Bool) (f : T → Noted ω T) (s : StepStream E T) :
    Lazy ω (Breakpoint E T) (StepStream E T) := do
  let first ← Lazy.noted (f s.first)
  let mapped := (Producer.ofSequence s.rest).map fun b => do
    let value ← f b.value
    pure { b with value := value }
  let rest ← (mapped.minimise equal first).share
  pure ⟨first, rest⟩

/-- The value at a key. The rest behind a breakpoint is asked for before its edge is compared. -/
def get (compare : E → E → Ordering) (key : E) (s : StepStream E T) :
    Lazy ω (Breakpoint E T) T :=
  s.rest.iterateWhile none s.first fun value b =>
    match compare b.edge key with
    | .gt => (value, false)
    | _ => (b.value, true)

def toStepFunction (s : StepStream E T) : Lazy ω (Breakpoint E T) (StepFunction E T) := do
  let breakpoints ← s.rest.toList
  pure ⟨s.first, breakpoints⟩

def equal (sameEdge : E → E → Bool) (sameValue : T → T → Bool) (s t : StepStream E T) :
    Lazy ω (Breakpoint E T) Bool :=
  if sameValue s.first t.first then
    s.rest.equal (fun b c => sameEdge b.edge c.edge && sameValue b.value c.value) t.rest
  else pure false

def sequentialTree (s : StepStream E T) : Lazy ω (Breakpoint E T) (LookupTree E T) :=
  Lazy.iterate (LookupTree.grow Sequence.splitFirst) (.leaf s.first, s.rest, 0)

end StepStream

end DemandLex
