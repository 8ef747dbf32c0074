/-! Handles on lazy sequences whose elements live in a store. -/

namespace DemandLex

/-- The place of one element: a spine of the store and an index on it. Two handles with one node
share everything from there on. -/
structure Node where
  spine : Nat
  index : Nat
  deriving DecidableEq, Repr, Inhabited

structure Cell (ν : Type) where
  value : ν
  node : Node

/-- A sequence is known by its head, which is always computed. -/
abbrev Sequence (ν : Type) := Option (Cell ν)

namespace Sequence
variable {ν : Type}

def empty : Sequence ν := none

def isEmpty (s : Sequence ν) : Bool := Option.isNone s

def first? (s : Sequence ν) : Option ν := Option.map Cell.value s

end Sequence

end DemandLex
