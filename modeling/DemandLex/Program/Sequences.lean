import DemandLex.Program.Basic

/-! Programs over lazy sequences and machines, with any functions for their operators. -/

namespace DemandLex.Program

/-- What turns the elements of one sequence into those of another. -/
inductive Operator (ω ν : Type) : Type 1 where
  | map (f : ν → Noted ω ν)
  | filter (keep : ν → Noted ω Bool)
  | dedup (equal : ν → ν → Noted ω Bool)
  | entries (pair : Nat → ν → ν)
  | scan (start : ν) (f : ν → ν → Noted ω ν)
  | scanFilter {S : Type} (start : S) (step : S → ν → Noted ω (S × Option ν))
  | inclusiveScan (machine : Machine ω ν ν)
  | exclusiveScan (machine : Machine ω ν ν)
  | takeWhile (keep : ν → Noted ω Bool)
  | take (count : Nat)
  /-- Every element starts a run, which gives its outputs one by one. -/
  | flatScan {S R : Type} (start : S) (step : S → ν → Noted ω (S × R))
      (run : R → Noted ω (Option (ν × R)))
  /-- Behind the last element a run is grown from the seed; its first step is taken when the element
  behind the last one is asked for. -/
  | goOn {R : Type} (seed : R) (run : R → Noted ω (Option (ν × R)))

namespace Operator
variable {ω ν : Type}

def apply (p : Producer ω ν ν) : Operator ω ν → Producer ω ν ν
  | map f => p.map f
  | filter keep => p.filter keep
  | dedup equal => p.dedup equal
  | entries pair => p.entries.map fun (index, value) => pure (pair index value)
  | scan start f => p.scan start f
  | scanFilter start step => p.scanFilter start step
  | inclusiveScan machine => p.inclusiveScan machine
  | exclusiveScan machine => p.exclusiveScan machine
  | takeWhile keep => p.takeWhile keep
  | take count => p.take count
  | flatScan start step run => p.flatScan start step (Producer.play run)
  | goOn seed run => p.append (.unfold seed run)

end Operator

/-- How a sequence is made; other sequences are given by their names. -/
inductive Make (ω ν : Type) : Type 1 where
  | empty
  | once (value : ν)
  | constant (value : ν)
  | items (values : List ν)
  | unfold {S : Type} (seed : S) (step : S → Noted ω (Option (ν × S)))
  | prepend (value : ν) (source : String)
  /-- The notes are taken when the source is handed over. -/
  | cons (value : ν) (source : String) (notes : List ω)
  | copy (source : String)
  | rest (source : String)
  | derive (source : String) (operator : Operator ω ν)
  | inclusiveScan (source machine : String)
  | exclusiveScan (source machine : String)
  | dropWhile (source : String) (drop : ν → Noted ω Bool)
  | appendWith (source other : String) (notes : List ω)
  | flatten (parts : List String)
  /-- Every element starts a run: a sequence of the program by its name, where a name that is not
  there starts nothing, or one that gives its outputs one by one. -/
  | flatScan (source : String) {S R : Type} (start : S)
      (step : S → ν → Noted ω (S × (String ⊕ R))) (run : R → Noted ω (Option (ν × R)))
  | reverse (source : String)

/-- The sequences that the elements of a source stand for, one behind the other. Each is a sequence of
the program or a run, and its element is asked for when those before it are at their ends. -/
def Make.flattenOf {ω ν R : Type} (source : String) (part : ν → String ⊕ R)
    (run : R → Noted ω (Option (ν × R))) : Make ω ν :=
  .flatScan source () (fun _ value => pure ((), part value)) run

inductive MakeMachine (ω ν : Type) : Type 1 where
  | ready (machine : Machine ω ν ν)
  | step (source : String) (input : ν)
  | copy (source : String)

inductive Query (ω ν : Type) : Type 1 where
  | isEmpty (source : String)
  | size (source : String)
  | list (source : String)
  | text (source : String) (render : List ν → String)
  | first (source : String)
  | last (source : String)
  | iterTake (source : String) (count : Nat)
  | splitFirst (source : String)
  | uncons (source : String)
  | equal (source other : String) (same : ν → ν → Bool)
  | fold (source : String) (start : ν) (f : ν → ν → Noted ω ν)
  | exclusiveFold (source machine : String)

inductive Step (ω ν : Type) : Type 1 where
  | make (name : String) (how : Make ω ν)
  | makeMachine (name : String) (how : MakeMachine ω ν)
  | ask (query : Query ω ν)
  | machineValue (machine : String)
  | drop (name : String)

inductive Answer (ν : Type) where
  | stored
  | yes (answer : Bool)
  | count (n : Nat)
  | text (text : String)
  | value (value : ν)
  | items (values : List ν)
  | front (value : Option ν)
  /-- The first element, and whether that is all. -/
  | split (parts : Option (ν × Bool))
  /-- The first element and the one behind it. -/
  | uncons (parts : Option (ν × Option ν))
  deriving DecidableEq

structure Shelf (ω ν : Type) : Type 1 where
  sequences : Names (Sequence ν)
  machines : Names (Machine ω ν ν)

namespace Shelf
variable {ω ν : Type}

def empty : Shelf ω ν := ⟨[], []⟩

def begin {R : Type} (shelf : Shelf ω ν) : String ⊕ R → Producer.Reading ν ⊕ R
  | .inl name => .inl (.here (shelf.sequences.lookup name).join)
  | .inr seed => .inr seed

def make (shelf : Shelf ω ν) : Make ω ν → Except Failure (Lazy ω ν (Sequence ν))
  | .empty => .ok (pure none)
  | .once value => .ok (Sequence.once value)
  | .constant value => .ok (Producer.constant value).share
  | .items values => .ok (Producer.ofList values).share
  | .unfold seed step => .ok (Producer.unfold seed step).share
  | .prepend value source => shelf.sequences.find source fun s => .ok (s.prepend value)
  | .cons value source notes => shelf.sequences.find source fun s =>
    .ok (Sequence.cons value ⟨notes, s⟩)
  | .copy source => shelf.sequences.find source fun s => .ok (pure s)
  | .rest source => shelf.sequences.find source fun s => .ok (Sequence.rest s)
  | .derive source operator => shelf.sequences.find source fun s =>
    .ok (operator.apply (.ofSequence s)).share
  | .inclusiveScan source machine => shelf.sequences.find source fun s =>
    shelf.machines.find machine fun m => .ok ((Producer.ofSequence s).inclusiveScan m).share
  | .exclusiveScan source machine => shelf.sequences.find source fun s =>
    shelf.machines.find machine fun m => .ok ((Producer.ofSequence s).exclusiveScan m).share
  | .dropWhile source drop => shelf.sequences.find source fun s => .ok (s.dropWhile drop)
  | .appendWith source other notes => shelf.sequences.find source fun s =>
    shelf.sequences.find other fun t => .ok (s.appendWith ⟨notes, t⟩)
  | .flatten parts => shelf.sequences.findAll parts fun ss =>
    .ok (Producer.concatenation ss).share
  | .flatScan source start step run => shelf.sequences.find source fun s =>
    .ok ((Producer.ofSequence s).flatScan start (fun carried value => do
      let (next, output) ← step carried value
      pure (next, shelf.begin output)) (Producer.playEither run)).share
  | .reverse source => shelf.sequences.find source fun s => .ok s.reverse

def makeMachine (shelf : Shelf ω ν) :
    MakeMachine ω ν → Except Failure (Noted ω (Machine ω ν ν))
  | .ready machine => .ok ⟨[], machine⟩
  | .step source input => shelf.machines.find source fun m => .ok (m.step input)
  | .copy source => shelf.machines.find source fun m => .ok ⟨[], m⟩

def ask (shelf : Shelf ω ν) : Query ω ν → Except Failure (Lazy ω ν (Answer ν))
  | .isEmpty source => shelf.sequences.find source fun s => .ok (pure (.yes s.isEmpty))
  | .size source => shelf.sequences.find source fun s => .ok (.count <$> s.size)
  | .list source => shelf.sequences.find source fun s => .ok (.items <$> s.toList)
  | .text source render => shelf.sequences.find source fun s =>
    .ok ((fun values => .text (render values)) <$> s.toList)
  | .first source => shelf.sequences.find source fun s => .ok (pure (.front s.first?))
  | .last source => shelf.sequences.find source fun s => .ok (.front <$> s.last?)
  | .iterTake source count => shelf.sequences.find source fun s =>
    .ok (.items <$> s.iterTake count)
  | .splitFirst source => shelf.sequences.find source fun s =>
    .ok ((fun parts => .split (parts.map fun (value, rest) => (value, rest.isEmpty))) <$>
      s.splitFirst)
  | .uncons source => shelf.sequences.find source fun s =>
    .ok ((fun parts => .uncons (parts.map fun (value, rest) => (value, rest.first?))) <$>
      s.splitFirst)
  | .equal source other same => shelf.sequences.find source fun s =>
    shelf.sequences.find other fun t => .ok (.yes <$> s.equal same t)
  | .fold source start f => shelf.sequences.find source fun s => .ok (.value <$> s.foldM start f)
  | .exclusiveFold source machine => shelf.sequences.find source fun s =>
    shelf.machines.find machine fun m => .ok (.value <$> s.exclusiveFold m)

def act (rounds : Nat) (step : Step ω ν) (shelf : Shelf ω ν) (store : Store ω ν) :
    Except Failure (Answer ν × Shelf ω ν × Store ω ν) :=
  match step with
  | .make name how =>
    match shelf.make how with
    | .error failure => .error failure
    | .ok x =>
      match force rounds x store with
      | .error failure => .error failure
      | .ok (s, store) =>
        .ok (.stored, { shelf with sequences := shelf.sequences.insert name s }, store)
  | .makeMachine name how =>
    match shelf.makeMachine how with
    | .error failure => .error failure
    | .ok made =>
      .ok (.stored, { shelf with machines := shelf.machines.insert name made.value },
        store.log made.notes)
  | .ask query =>
    match shelf.ask query with
    | .error failure => .error failure
    | .ok x =>
      match force rounds x store with
      | .error failure => .error failure
      | .ok (answer, store) => .ok (answer, shelf, store)
  | .machineValue machine =>
    shelf.machines.find machine fun m => .ok (.value m.value, shelf, store)
  | .drop name =>
    .ok (.yes (shelf.sequences.contains name),
      { shelf with sequences := shelf.sequences.erase name }, store)

end Shelf

def run {ω ν : Type} (rounds : Nat) (steps : List (Step ω ν)) :
    Except Failure (List (Entry ω (Answer ν))) :=
  runSteps (Shelf.act rounds) .empty .empty steps

end DemandLex.Program
