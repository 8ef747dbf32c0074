import DemandLex.Noted
import DemandLex.Sequence.Basic
import DemandLex.Sequence.Machine

/-! Producers: what a suspended sequence still has to say, one move at a time. Every operator on
sequences is a producer built from producers, so it asks its source for an element only when its own
consumer asks for one. -/

namespace DemandLex

inductive Move (ν σ α : Type) where
  | yield (value : α) (next : σ)
  | skip (next : σ)
  /-- Asks for the sequence after a node and resumes with it. -/
  | force (node : Node) (resume : Sequence ν → σ)
  | done

structure Producer (ω ν α : Type) : Type 1 where
  State : Type
  state : State
  step : State → Noted ω (Move ν State α)

namespace Move
variable {ν σ τ α : Type}

def lift (place : σ → τ) : Move ν σ α → Move ν τ α
  | yield value next => yield value (place next)
  | skip next => skip (place next)
  | force node resume => force node fun s => place (resume s)
  | done => done

end Move

namespace Producer
variable {ω ν α β σ τ : Type}

def empty : Producer ω ν α where
  State := Unit
  state := ()
  step _ := pure .done

def play (step : σ → Noted ω (Option (α × σ))) (s : σ) : Noted ω (Move ν σ α) := do
  match ← step s with
  | some (value, next) => pure (.yield value next)
  | none => pure .done

/-- Grows elements from a seed until the step gives none. -/
def unfold (seed : σ) (step : σ → Noted ω (Option (α × σ))) : Producer ω ν α where
  State := σ
  state := seed
  step := play step

def ofList (items : List α) : Producer ω ν α :=
  unfold items fun
    | [] => pure none
    | item :: rest => pure (some (item, rest))

def constant (value : α) : Producer ω ν α :=
  unfold () fun _ => pure (some (value, ()))

/-- Where the reading of a stored sequence stands: at a sequence already in hand, or after a node
whose rest has not been asked for yet. -/
inductive Reading (ν : Type) where
  | here (s : Sequence ν)
  | after (node : Node)

def Reading.step : Reading ν → Move ν (Reading ν) ν
  | here none => .done
  | here (some cell) => .yield cell.value (after cell.node)
  | after node => .force node here

def ofSequence (s : Sequence ν) : Producer ω ν ν where
  State := Reading ν
  state := .here s
  step r := pure r.step

/-- Feeds every element to a step that carries a state and may give an output. -/
def scanFilter (p : Producer ω ν α) (start : σ) (step : σ → α → Noted ω (σ × Option β)) :
    Producer ω ν β where
  State := p.State × σ
  state := (p.state, start)
  step s := do
    match ← p.step s.1 with
    | .done => pure .done
    | .skip next => pure (.skip (next, s.2))
    | .force node resume => pure (.force node fun q => (resume q, s.2))
    | .yield value next =>
      match ← step s.2 value with
      | (carried, some output) => pure (.yield output (next, carried))
      | (carried, none) => pure (.skip (next, carried))

def map (p : Producer ω ν α) (f : α → Noted ω β) : Producer ω ν β :=
  p.scanFilter () fun _ value => do
    let output ← f value
    pure ((), some output)

def filter (p : Producer ω ν α) (keep : α → Noted ω Bool) : Producer ω ν α :=
  p.scanFilter () fun _ value => do
    let kept ← keep value
    pure ((), if kept then some value else none)

def filterMap (p : Producer ω ν α) (f : α → Option β) : Producer ω ν β :=
  p.scanFilter () fun _ value => pure ((), f value)

/-- Drops every element that is equal to the last one kept. -/
def dedup (p : Producer ω ν α) (equal : α → α → Noted ω Bool) : Producer ω ν α :=
  p.scanFilter none fun kept value =>
    match kept with
    | none => pure (some value, some value)
    | some last => do
      if ← equal last value then pure (some last, none) else pure (some value, some value)

def entries (p : Producer ω ν α) : Producer ω ν (Nat × α) :=
  p.scanFilter 0 fun index value => pure (index + 1, some (index, value))

def scan (p : Producer ω ν α) (start : β) (f : β → α → Noted ω β) : Producer ω ν β :=
  p.scanFilter start fun reduced value => do
    let next ← f reduced value
    pure (next, some next)

/-- The value a machine shows after each element. -/
def inclusiveScan (p : Producer ω ν α) (m : Machine ω α β) : Producer ω ν β :=
  p.scanFilter m.state fun s value => do
    let next ← m.next s value
    pure (next, some (m.output next))

/-- The value a machine shows before each element. -/
def exclusiveScan (p : Producer ω ν α) (m : Machine ω α β) : Producer ω ν β :=
  p.scanFilter m.state fun s value => do
    let next ← m.next s value
    pure (next, some (m.output s))

def takeWhile (p : Producer ω ν α) (keep : α → Noted ω Bool) : Producer ω ν α where
  State := p.State
  state := p.state
  step s := do
    match ← p.step s with
    | .yield value next => if ← keep value then pure (.yield value next) else pure .done
    | move => pure move

/-- The first `count` elements; the source is not asked for anything after the last of them. -/
def take (p : Producer ω ν α) (count : Nat) : Producer ω ν α where
  State := Nat × p.State
  state := (count, p.state)
  step
    | (0, _) => pure .done
    | (left + 1, s) => do
      match ← p.step s with
      | .yield value next => pure (.yield value (left, next))
      | move => pure (move.lift fun next => (left + 1, next))

def append (p q : Producer ω ν α) : Producer ω ν α where
  State := p.State ⊕ q.State
  state := .inl p.state
  step
    | .inl s => do
      match ← p.step s with
      | .done => pure (.skip (.inr q.state))
      | move => pure (move.lift .inl)
    | .inr s => do
      let move ← q.step s
      pure (move.lift .inr)

/-- Plays the run that each element starts, one run after the other. -/
def flatten (p : Producer ω ν σ) (run : σ → Noted ω (Move ν σ α)) : Producer ω ν α where
  State := p.State × Option σ
  state := (p.state, none)
  step
    | (outer, none) => do
      match ← p.step outer with
      | .yield start next => pure (.skip (next, some start))
      | .skip next => pure (.skip (next, none))
      | .force node resume => pure (.force node fun q => (resume q, none))
      | .done => pure .done
    | (outer, some inner) => do
      match ← run inner with
      | .done => pure (.skip (outer, none))
      | move => pure (move.lift fun next => (outer, some next))

def concatenation (parts : List (Sequence ν)) : Producer ω ν ν :=
  (ofList (parts.map Reading.here)).flatten fun reading => pure reading.step

/-- A scan in which every element starts a run of outputs. -/
def flatScan (p : Producer ω ν α) (start : τ) (step : τ → α → Noted ω (τ × σ))
    (run : σ → Noted ω (Move ν σ β)) : Producer ω ν β :=
  (p.scanFilter start fun s value => do
    let (next, output) ← step s value
    pure (next, some output)).flatten run

def playEither (step : σ → Noted ω (Option (ν × σ))) :
    Reading ν ⊕ σ → Noted ω (Move ν (Reading ν ⊕ σ) ν)
  | .inl reading => pure (reading.step.lift .inl)
  | .inr seed => do
    let move ← play step seed
    pure (move.lift .inr)

def playList : List α → Noted ω (Move ν (List α) α)
  | [] => pure .done
  | item :: rest => pure (.yield item rest)

end Producer

end DemandLex
