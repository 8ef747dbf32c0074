import DemandLex.Sequence.Lazy

/-! Programs: steps that make things with names or ask about them, each with the notes it causes. -/

namespace DemandLex.Program

universe u v w

inductive Failure where
  | unknownName (name : String)
  /-- A loop went on for more rounds than allowed. -/
  | endless
  deriving DecidableEq, Repr

namespace Failure

def message : Failure → String
  | unknownName name => "unknown name " ++ name
  | endless => "no end in sight"

end Failure

/-- Things by name; the newest of a name counts. -/
abbrev Names (α : Type u) := List (String × α)

namespace Names
variable {α : Type u} {β : Type v}

def find (names : Names α) (name : String) (next : α → Except Failure β) : Except Failure β :=
  match names.lookup name with
  | some found => next found
  | none => .error (.unknownName name)

def findAll (names : Names α) (wanted : List String) (next : List α → Except Failure β) :
    Except Failure β :=
  match wanted with
  | [] => next []
  | name :: later =>
    names.find name fun first => names.findAll later fun others => next (first :: others)

def insert (names : Names α) (name : String) (thing : α) : Names α := (name, thing) :: names

def erase (names : Names α) (name : String) : Names α := names.filter (·.1 != name)

def contains (names : Names α) (name : String) : Bool := names.any (·.1 == name)

end Names

structure Entry (ω : Type) (α : Type u) where
  answer : α
  notes : List ω
  deriving DecidableEq

/-- More rounds than a loop that ends goes on for in practice. -/
def ample : Nat := 1000000000

/-- Runs a computation whose loops may go on for so many rounds each. -/
def force {ω ν α : Type} (rounds : Nat) (x : Lazy ω ν α) (store : Store ω ν) :
    Except Failure (α × Store ω ν) :=
  match x rounds store with
  | some result => .ok result
  | none => .error .endless

/-- Takes the steps in order, each in the environment and the store that the one before left. -/
def runSteps {ω ν : Type} {ε : Type u} {σ : Type v} {α : Type}
    (act : σ → ε → Store ω ν → Except Failure (α × ε × Store ω ν)) :
    ε → Store ω ν → List σ → Except Failure (List (Entry ω α))
  | _, _, [] => .ok []
  | environment, store, step :: later =>
    let before := store.notes.size
    match act step environment store with
    | .error failure => .error failure
    | .ok (answer, environment, store) =>
      match runSteps act environment store later with
      | .error failure => .error failure
      | .ok entries =>
        .ok (⟨answer, (store.notes.extract before store.notes.size).toList⟩ :: entries)

end DemandLex.Program
