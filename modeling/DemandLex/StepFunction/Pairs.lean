import DemandLex.StepFunction.Basic

/-! Step functions from pairs of an edge and a value. -/

namespace DemandLex

structure UnorderedEdges where
  index : Nat
  deriving DecidableEq, Repr

namespace UnorderedEdges

def message (e : UnorderedEdges) : String :=
  "breakpoint " ++ toString e.index ++ " does not follow its predecessor in key order"

end UnorderedEdges

namespace StepFunction
variable {E T : Type} {m : Type → Type} [Monad m]

def keepPairs (compare : E → E → Ordering) (equal : T → T → m Bool) :
    Nat → Option E → T → List (E × T) → m (Except UnorderedEdges (List (Breakpoint E T)))
  | _, _, _, [] => pure (.ok [])
  | index, before, kept, (edge, value) :: later =>
    if before.all fun last => compare last edge == .lt then do
      if ← equal kept value then keepPairs compare equal (index + 1) (some edge) kept later
      else
        let rest ← keepPairs compare equal (index + 1) (some edge) value later
        pure (rest.map (⟨edge, value⟩ :: ·))
    else pure (.error ⟨index⟩)

/-- The step function of pairs with strictly increasing edges; pairs that repeat the value in force
are left out. The error names the first pair out of order. -/
def ofPairs (compare : E → E → Ordering) (equal : T → T → m Bool) (first : T)
    (pairs : List (E × T)) : m (Except UnorderedEdges (StepFunction E T)) := do
  let kept ← keepPairs compare equal 0 none first pairs
  pure (kept.map (⟨first, ·⟩))

end StepFunction

end DemandLex
