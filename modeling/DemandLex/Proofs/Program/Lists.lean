import DemandLex.Program.Sequences
import DemandLex.Proofs.Program.Names
import DemandLex.Proofs.Sequence.ListFunctions

/-! Programs whose sequences are lists. Every maker is a list function and every question is asked
of a list, so nothing is shared and nothing depends on what was asked before. A list that has no end is
followed as far as a depth. -/

namespace DemandLex.Program

open Filter Producer

variable {ω ν : Type}

/-- The list function of an operator. -/
def Operator.onLists (depth : Nat) (l : Listing ν) : Operator ω ν → Listing ν
  | map f => l.map fun value => (f value).value
  | filter keep => l.through fun values => values.filter fun value => (keep value).value
  | dedup equal => l.through fun values =>
    values.destutter fun last value => (equal last value).value = false
  | entries pair => l.through fun values => values.mapIdx pair
  | scan start f => l.through fun values =>
    (values.scanl (fun reduced value => (f reduced value).value) start).tail
  | scanFilter start step => l.through (scanned step start)
  | inclusiveScan m => l.through fun values =>
    (values.scanl (fun s value => (m.next s value).value) m.state).tail.map m.output
  | exclusiveScan m => l.through fun values =>
    (values.scanl (fun s value => (m.next s value).value) m.state).dropLast.map m.output
  | takeWhile keep => l.takeWhile fun value => (keep value).value
  | take count => l.take count
  | flatScan start step run =>
    let starts := l.through (outputs (fun carried value => (step carried value).value) start)
    (starts.map (Listing.unfold (fun seed => (run seed).value) depth)).flatten
  | goOn seed run => l.append (Listing.unfold (fun seed => (run seed).value) depth seed)

structure ListShelf (ω ν : Type) : Type 1 where
  lists : Names (Listing ν)
  machines : Names (Machine ω ν ν)

namespace ListShelf

def begin {R : Type} (depth : Nat) (shelf : ListShelf ω ν) (run : R → Noted ω (Option (ν × R))) :
    String ⊕ R → Listing ν
  | .inl name => (shelf.lists.lookup name).getD (.whole [])
  | .inr seed => Listing.unfold (fun seed => (run seed).value) depth seed

def make (depth : Nat) (shelf : ListShelf ω ν) : Make ω ν → Except Failure (Listing ν)
  | .empty => .ok (.whole [])
  | .once value => .ok (.whole [value])
  | .constant value => .ok ⟨List.replicate depth value, false⟩
  | .items values => .ok (.whole values)
  | .unfold seed step => .ok (Listing.unfold (fun seed => (step seed).value) depth seed)
  | .prepend value source => shelf.lists.find source fun l => .ok (l.cons value)
  | .cons value source _ => shelf.lists.find source fun l => .ok (l.cons value)
  | .copy source => shelf.lists.find source fun l => .ok l
  | .rest source => shelf.lists.find source fun l => .ok l.rest
  | .derive source operator => shelf.lists.find source fun l => .ok (operator.onLists depth l)
  | .inclusiveScan source machine => shelf.lists.find source fun l =>
    shelf.machines.find machine fun m => .ok ((Operator.inclusiveScan m).onLists depth l)
  | .exclusiveScan source machine => shelf.lists.find source fun l =>
    shelf.machines.find machine fun m => .ok ((Operator.exclusiveScan m).onLists depth l)
  | .dropWhile source drop => shelf.lists.find source fun l =>
    .ok (l.dropWhile fun value => (drop value).value)
  | .appendWith source other _ => shelf.lists.find source fun l =>
    shelf.lists.find other fun r => .ok (l.append r)
  | .flatten parts => shelf.lists.findAll parts fun ls => .ok (Listing.flatten (.whole ls))
  | .flatScan source start step run => shelf.lists.find source fun l =>
    let starts := l.through (outputs (fun carried value => (step carried value).value) start)
    .ok ((starts.map (shelf.begin depth run)).flatten)
  | .reverse source => shelf.lists.find source fun l => .ok l.reverse

theorem make_flattenOf {R : Type} {depth : Nat} {shelf : ListShelf ω ν} {source : String}
    {part : ν → String ⊕ R} {run : R → Noted ω (Option (ν × R))} :
    shelf.make depth (.flattenOf source part run) = shelf.lists.find source fun l =>
      .ok (l.map fun value => shelf.begin depth run (part value)).flatten := by
  have parts (values : List ν) :
      outputs (fun (_ : Unit) value => ((), part value)) () values = values.map part := by
    induction values with
    | nil => rfl
    | cons value later ih => exact congrArg _ ih
  have whole (l : Listing ν) :
      l.through (outputs (fun (_ : Unit) value => ((), part value)) ()) = l.map part := by
    rw [Listing.through, parts, Listing.map, Listing.through]
  have made : shelf.make depth (.flattenOf source part run) = shelf.lists.find source fun l =>
      .ok ((l.through (outputs (fun (_ : Unit) value => ((), part value)) ())).map
        (shelf.begin depth run)).flatten := rfl
  simp only [made, whole, Listing.map_map, Function.comp_def]

/-- The answer to a question, if enough is known for one. Lists have nothing to say on the comparison
of two sequences, which looks at what they share. -/
def ask (shelf : ListShelf ω ν) : Query ω ν → Except Failure (Option (Answer ν))
  | .isEmpty source => shelf.lists.find source fun l =>
    .ok (l.first?.map fun first => .yes first.isNone)
  | .size source => shelf.lists.find source fun l => .ok ((l.all? List.length).map .count)
  | .list source => shelf.lists.find source fun l => .ok ((l.all? id).map .items)
  | .text source render => shelf.lists.find source fun l =>
    .ok ((l.all? id).map fun values => .text (render values))
  | .first source => shelf.lists.find source fun l => .ok (l.first?.map .front)
  | .last source => shelf.lists.find source fun l => .ok ((l.all? List.getLast?).map .front)
  | .iterTake source count => shelf.lists.find source fun l => .ok ((l.take? count).map .items)
  | .splitFirst source => shelf.lists.find source fun l =>
    .ok (l.uncons?.map fun parts => .split (parts.map fun (value, second) => (value, second.isNone)))
  | .uncons source => shelf.lists.find source fun l => .ok (l.uncons?.map .uncons)
  | .equal source other _ => shelf.lists.find source fun _ =>
    shelf.lists.find other fun _ => .ok none
  | .fold source start f => shelf.lists.find source fun l =>
    .ok ((l.all? fun values => values.foldl (fun reduced value => (f reduced value).value) start).map
      .value)
  | .exclusiveFold source machine => shelf.lists.find source fun l =>
    shelf.machines.find machine fun m => .ok ((l.all? fun values =>
      values.foldl (fun s value => (m.next s value).value) m.state).map
        fun s => .value (m.output s))

/-- Takes one step. A list is made when it is known to begin or to be empty. -/
def act (depth : Nat) (step : Step ω ν) (shelf : ListShelf ω ν) :
    Except Failure (Answer ν × ListShelf ω ν) :=
  match step with
  | .make name how =>
    match shelf.make depth how with
    | .error failure => .error failure
    | .ok l =>
      if l.isHeaded then .ok (.stored, { shelf with lists := shelf.lists.insert name l })
      else .error .endless
  | .makeMachine name how =>
    match (⟨[], shelf.machines⟩ : Shelf ω ν).makeMachine how with
    | .error failure => .error failure
    | .ok made =>
      .ok (.stored, { shelf with machines := shelf.machines.insert name made.value })
  | .ask query =>
    match shelf.ask query with
    | .error failure => .error failure
    | .ok (some answer) => .ok (answer, shelf)
    | .ok none => .error .endless
  | .machineValue machine => shelf.machines.find machine fun m => .ok (.value m.value, shelf)
  | .drop name =>
    .ok (.yes (shelf.lists.contains name), { shelf with lists := shelf.lists.erase name })

def run (depth : Nat) : ListShelf ω ν → List (Step ω ν) → Except Failure (List (Answer ν))
  | _, [] => .ok []
  | shelf, step :: later =>
    match shelf.act depth step with
    | .error failure => .error failure
    | .ok (answer, shelf) => (shelf.run depth later).map (answer :: ·)

end ListShelf

/-- Runs a program over lists, each followed as far as a depth. -/
def runOnLists (depth : Nat) (steps : List (Step ω ν)) : Except Failure (List (Answer ν)) :=
  ListShelf.run depth ⟨[], []⟩ steps

def Step.compares : Step ω ν → Bool
  | .ask (.equal _ _ _) => true
  | _ => false

section Ends

def Finishes {σ : Type} (step : σ → Noted ω (Option (ν × σ))) (seed : σ) : Prop :=
  ∃ depth, (Listing.unfold (fun seed => (step seed).value) depth seed).complete = true

def Operator.Ends : Operator ω ν → Prop
  | flatScan _ step run => ∀ carried value, Finishes run (step carried value).value.2
  | goOn seed run => Finishes run seed
  | _ => True

def Make.Ends : Make ω ν → Prop
  | .constant _ => False
  | .unfold seed step => Finishes step seed
  | .derive _ operator => operator.Ends
  | .flatScan _ _ step run => ∀ carried value seed, (step carried value).value.2 = .inr seed →
    Finishes run seed
  | _ => True

def Step.Ends : Step ω ν → Prop
  | .make _ how => how.Ends
  | _ => True

end Ends

end DemandLex.Program
