import DemandLex.Noted
import DemandLex.StepFunction.Tree

/-! Sets of characters as step functions over code points. -/

namespace DemandLex

/-- Membership is answered by the look-up tree of the ranges, which is built once. -/
structure CharSet where
  ranges : StepFunction Nat Bool
  tree : LookupTree Nat Bool
  tree_eq : tree = ranges.toTree

namespace CharSet

def strategy : Strategy Nat Bool := .natural

def ofRanges (ranges : StepFunction Nat Bool) : CharSet := ⟨ranges, ranges.toTree, rfl⟩

def empty : CharSet := ofRanges (.constant false)

/-- The characters from `first` to `last`; none when `last` comes before `first`. -/
def range (first last : Char) : CharSet :=
  ofRanges ((StepFunction.constant false).add strategy ⟨first.toNat, last.toNat + 1, true⟩)

def one (c : Char) : CharSet := range c c

def union (s t : CharSet) : CharSet := ofRanges (StepFunction.merge strategy or s.ranges t.ranges)

def any (chars : String) : CharSet := chars.toList.foldl (fun s c => s.union (one c)) empty

def contains (s : CharSet) (c : Char) : Bool := s.tree.get strategy.compare c.toNat

/-- The ranges of code points that belong to a set, each with the first one behind it. -/
def spans : Option Nat → List (Breakpoint Nat Bool) → List (Nat × Nat)
  | none, ⟨edge, true⟩ :: later => spans (some edge) later
  | some start, ⟨edge, false⟩ :: later => (start, edge) :: spans none later
  | start, _ :: later => spans start later
  | _, [] => []

def render (s : CharSet) : String :=
  "\x7b" ++ ", ".intercalate ((spans none s.ranges.breakpoints).map fun (first, stop) =>
    toString first ++ ".." ++ toString stop) ++ "\x7d"

end CharSet

structure CharClasses where
  whiteSpace : CharSet
  letter : CharSet
  digit : CharSet
  idStart : CharSet
  idContinue : CharSet
  hexDigit : CharSet
  exponent : CharSet

namespace CharClasses

def built (s : CharSet) : Noted CharSet CharSet := ⟨[s], s⟩

def buildAny (chars : String) : Noted CharSet CharSet := do
  chars.toList.foldlM (fun s c => do
    let one ← built (.one c)
    built (s.union one)) (← built .empty)

/-- Puts the default classes together from smaller sets, and notes every set built on the way. -/
def assembly : Noted CharSet CharClasses := do
  let whiteSpace ← buildAny " \t\n\x0d"
  let upper ← built (.range 'A' 'Z')
  let lower ← built (.range 'a' 'z')
  let letter ← built (upper.union lower)
  let digit ← built (.range '0' '9')
  let sign ← buildAny "$_"
  let idStart ← built (sign.union letter)
  let idContinue ← built (idStart.union digit)
  let lowerHex ← built (.range 'a' 'f')
  let digitOrLower ← built (digit.union lowerHex)
  let upperHex ← built (.range 'A' 'F')
  let hexDigit ← built (digitOrLower.union upperHex)
  let exponent ← buildAny "eE"
  pure { whiteSpace, letter, digit, idStart, idContinue, hexDigit, exponent }

def standard : CharClasses := assembly.value

end CharClasses

end DemandLex
