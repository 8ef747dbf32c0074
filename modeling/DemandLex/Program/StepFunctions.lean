import DemandLex.Program.Basic
import DemandLex.StepFunction.Pairs
import DemandLex.StepFunction.Stream

/-! Programs over step functions and look-up trees, with any orders, equalities and functions. -/

namespace DemandLex.Program

/-- The key order of a step, and an equality of values that may take notes. -/
structure NotedStrategy (ω E T : Type) where
  compare : E → E → Ordering
  equal : T → T → Noted ω Bool

inductive MakeStream (ω E T : Type) : Type 1 where
  | constant (value : T)
  /-- Takes the breakpoints as they are. -/
  | unchecked (first : T) (breakpoints : List (Breakpoint E T))
  | unfold {S : Type} (first : T) (seed : S) (step : S → Noted ω (Option (Breakpoint E T × S)))
  | ofPairs (strategy : NotedStrategy ω E T) (first : T) (pairs : List (E × T))
  | add (strategy : NotedStrategy ω E T) (source : String) (interval : Interval E T)
  | merge (strategy : NotedStrategy ω E T) (source other : String) (reduce : T → T → Noted ω T)
  | map (strategy : NotedStrategy ω E T) (source : String) (f : T → Noted ω T)
  | copy (source : String)

inductive TreeKind where
  | balanced
  | sequential
  deriving DecidableEq, Repr

inductive StreamQuery (E T : Type) where
  | get (compare : E → E → Ordering) (source : String) (keys : List E)
  | breakpoints (source : String)
  | first (source : String)
  /-- The first breakpoints, with nothing asked for behind the last of them. -/
  | head (source : String) (count : Nat)
  | size (source : String)
  | isConstant (source : String)
  | text (source : String) (render : StepFunction E T → String)
  | equal (source other : String) (sameEdge : E → E → Bool) (sameValue : T → T → Bool)

inductive TreeQuery (E T : Type) where
  | get (compare : E → E → Ordering) (tree : String) (keys : List E)
  | shape (tree : String)
  | text (tree : String) (render : LookupTree E T → String)
  | equal (tree other : String) (sameEdge : E → E → Bool) (sameValue : T → T → Bool)

inductive BoardStep (ω E T : Type) : Type 1 where
  | make (name : String) (how : MakeStream ω E T)
  | plant (name : String) (source : String) (kind : TreeKind)
  | ask (query : StreamQuery E T)
  | askTree (query : TreeQuery E T)

inductive BoardAnswer (E T : Type) where
  | stored
  | unordered (error : UnorderedEdges)
  | planted (leaves depth total : Nat)
  | values (values : List T)
  | value (value : T)
  | breakpoints (breakpoints : List (Breakpoint E T))
  | count (n : Nat)
  | yes (answer : Bool)
  | text (text : String)
  | found (values : List (T × Nat))
  | shape (tree : LookupTree E T)

structure Board (E T : Type) where
  steps : Names (StepStream E T)
  trees : Names (LookupTree E T)

namespace Board
variable {ω E T : Type}

def empty : Board E T := ⟨[], []⟩

def make (board : Board E T) : MakeStream ω E T →
    Except Failure (Lazy ω (Breakpoint E T) (Except UnorderedEdges (StepStream E T)))
  | .constant value => .ok (pure (.ok (.constant value)))
  | .unchecked first breakpoints => .ok (.ok <$> StepStream.ofStepFunction ⟨first, breakpoints⟩)
  | .unfold first seed step => .ok do
    let rest ← (Producer.unfold seed step).share
    pure (.ok ⟨first, rest⟩)
  | .ofPairs strategy first pairs => .ok do
    match ← Lazy.noted (StepFunction.ofPairs strategy.compare strategy.equal first pairs) with
    | .ok f => .ok <$> StepStream.ofStepFunction f
    | .error e => pure (.error e)
  | .add strategy source interval => board.steps.find source fun s =>
    .ok (.ok <$> s.add strategy.compare strategy.equal interval)
  | .merge strategy source other reduce => board.steps.find source fun s =>
    board.steps.find other fun t =>
      .ok (.ok <$> StepStream.mergeWith strategy.compare strategy.equal reduce s t)
  | .map strategy source f => board.steps.find source fun s =>
    .ok (.ok <$> s.map strategy.equal f)
  | .copy source => board.steps.find source fun s => .ok (pure (.ok s))

def plant (kind : TreeKind) (s : StepStream E T) :
    Lazy ω (Breakpoint E T) (LookupTree E T) :=
  match kind with
  | .balanced => StepFunction.toTree <$> s.toStepFunction
  | .sequential => s.sequentialTree

def getAll (compare : E → E → Ordering) (s : StepStream E T) :
    List E → Lazy ω (Breakpoint E T) (List T)
  | [] => pure []
  | key :: later => do
    let value ← s.get compare key
    let values ← getAll compare s later
    pure (value :: values)

def ask (board : Board E T) :
    StreamQuery E T → Except Failure (Lazy ω (Breakpoint E T) (BoardAnswer E T))
  | .get compare source keys => board.steps.find source fun s =>
    .ok (.values <$> getAll compare s keys)
  | .breakpoints source => board.steps.find source fun s =>
    .ok (.breakpoints <$> s.rest.toList)
  | .first source => board.steps.find source fun s => .ok (pure (.value s.first))
  | .head source count => board.steps.find source fun s => .ok do
    let taken ← ((Producer.ofSequence s.rest).take count).share
    .breakpoints <$> taken.toList
  | .size source => board.steps.find source fun s => .ok (.count <$> s.rest.size)
  | .isConstant source => board.steps.find source fun s => .ok (pure (.yes s.rest.isEmpty))
  | .text source render => board.steps.find source fun s =>
    .ok ((fun f => .text (render f)) <$> s.toStepFunction)
  | .equal source other sameEdge sameValue => board.steps.find source fun s =>
    board.steps.find other fun t => .ok (.yes <$> s.equal sameEdge sameValue t)

def askTree (board : Board E T) : TreeQuery E T → Except Failure (BoardAnswer E T)
  | .get compare tree keys => board.trees.find tree fun t =>
    .ok (.found (keys.map fun key => (t.get compare key, t.comparisons compare key)))
  | .shape tree => board.trees.find tree fun t => .ok (.shape t)
  | .text tree render => board.trees.find tree fun t => .ok (.text (render t))
  | .equal tree other sameEdge sameValue => board.trees.find tree fun t =>
    board.trees.find other fun u => .ok (.yes (t.same sameEdge sameValue u))

def act (rounds : Nat) (step : BoardStep ω E T) (board : Board E T)
    (store : Store ω (Breakpoint E T)) :
    Except Failure (BoardAnswer E T × Board E T × Store ω (Breakpoint E T)) :=
  match step with
  | .make name how =>
    match board.make how with
    | .error failure => .error failure
    | .ok x =>
      match force rounds x store with
      | .error failure => .error failure
      | .ok (.ok s, store) =>
        .ok (.stored, { board with steps := board.steps.insert name s }, store)
      | .ok (.error e, store) => .ok (.unordered e, board, store)
  | .plant name source kind => board.steps.find source fun s =>
    match force rounds (plant kind s) store with
    | .error failure => .error failure
    | .ok (t, store) =>
      .ok (.planted t.leafCount t.depth t.totalComparisons,
        { board with trees := board.trees.insert name t }, store)
  | .ask query =>
    match board.ask query with
    | .error failure => .error failure
    | .ok x =>
      match force rounds x store with
      | .error failure => .error failure
      | .ok (answer, store) => .ok (answer, board, store)
  | .askTree query =>
    match board.askTree query with
    | .error failure => .error failure
    | .ok answer => .ok (answer, board, store)

end Board

def runStepFunctions {ω E T : Type} (rounds : Nat) (steps : List (BoardStep ω E T)) :
    Except Failure (List (Entry ω (BoardAnswer E T))) :=
  runSteps (Board.act rounds) .empty .empty steps

end DemandLex.Program
