import DemandLex.StepFunction.Basic

/-! Binary trees that answer point look-ups on a step function. -/

namespace DemandLex

/-- A key goes left when it precedes `rightMin`, and right otherwise. -/
inductive LookupTree (E T : Type) where
  | leaf (value : T)
  | node (left : LookupTree E T) (rightMin : E) (right : LookupTree E T)
  deriving DecidableEq, Repr

namespace LookupTree
variable {E T : Type}

def get (compare : E → E → Ordering) (key : E) : LookupTree E T → T
  | leaf value => value
  | node left rightMin right =>
    match compare key rightMin with
    | .lt => get compare key left
    | _ => get compare key right

def same (sameEdge : E → E → Bool) (sameValue : T → T → Bool) :
    LookupTree E T → LookupTree E T → Bool
  | leaf a, leaf b => sameValue a b
  | node left k right, node left' k' right' =>
    same sameEdge sameValue left left' && sameEdge k k' && same sameEdge sameValue right right'
  | _, _ => false

/-- How many keys a look-up compares with. -/
def comparisons (compare : E → E → Ordering) (key : E) : LookupTree E T → Nat
  | leaf _ => 0
  | node left rightMin right =>
    match compare key rightMin with
    | .lt => comparisons compare key left + 1
    | _ => comparisons compare key right + 1

def leafCount : LookupTree E T → Nat
  | leaf _ => 1
  | node left _ right => left.leafCount + right.leafCount

/-- The most comparisons that a look-up makes. -/
def depth : LookupTree E T → Nat
  | leaf _ => 0
  | node left _ right => 1 + max left.depth right.depth

def comparisonsBelow (above : Nat) : LookupTree E T → Nat
  | leaf _ => above
  | node left _ right => comparisonsBelow (above + 1) left + comparisonsBelow (above + 1) right

/-- The comparisons that one look-up per leaf makes in all. -/
def totalComparisons (t : LookupTree E T) : Nat := comparisonsBelow 0 t

/-- The tree of the leaves from `low` on and before `high`, halved by index. Leaf 0 holds `first`
and leaf `i + 1` the value of breakpoint `i`. -/
def halve (first : T) (breakpoints : Array (Breakpoint E T)) (low high : Nat)
    (ordered : low < high) (inside : high ≤ breakpoints.size + 1) : LookupTree E T :=
  if single : high - low ≤ 1 then
    leaf (match low, ordered, inside with
      | 0, _, _ => first
      | i + 1, ordered, inside =>
        have bound : i < breakpoints.size := by omega
        breakpoints[i].value)
  else
    let middle := low + (high - low) / 2
    have bound : middle - 1 < breakpoints.size := by omega
    node (halve first breakpoints low middle (by omega) (by omega))
      breakpoints[middle - 1].edge
      (halve first breakpoints middle high (by omega) inside)
termination_by high - low

/-- The tree whose halves differ by at most one leaf everywhere. -/
def balanced (s : StepFunction E T) : LookupTree E T :=
  let breakpoints := s.breakpoints.toArray
  halve s.first breakpoints 0 (breakpoints.size + 1) (by omega) (by omega)

section Growing
universe v
variable {S : Type} {m : Type → Type v} [Monad m]

/-- A tree of at most `2 ^ limit` leaves from the front of a stream of breakpoints, and the stream
behind what it took. -/
def buildLimited (split : S → m (Option (Breakpoint E T × S))) (first : T) (rest : S) :
    Nat → m (LookupTree E T × S)
  | 0 => pure (leaf first, rest)
  | limit + 1 => do
    let (left, rest) ← buildLimited split first rest limit
    match ← split rest with
    | some (b, tail) =>
      let (right, rest) ← buildLimited split b.value tail limit
      pure (node left b.edge right, rest)
    | none => pure (left, rest)

/-- Hangs one more subtree to the right of a tree that has grown `level` times. -/
def grow (split : S → m (Option (Breakpoint E T × S))) :
    LookupTree E T × S × Nat → m ((LookupTree E T × S × Nat) ⊕ LookupTree E T)
  | (tree, rest, level) => do
    match ← split rest with
    | some (b, tail) =>
      let (right, rest) ← buildLimited split b.value tail level
      pure (.inl (node tree b.edge right, rest, level + 1))
    | none => pure (.inr tree)

end Growing

def splitList : List (Breakpoint E T) → Id (Option (Breakpoint E T × List (Breakpoint E T)))
  | [] => none
  | b :: later => some (b, later)

def growFrom : Nat → LookupTree E T × List (Breakpoint E T) × Nat → LookupTree E T
  | 0, (tree, _, _) => tree
  | rounds + 1, state =>
    match (grow splitList state).run with
    | .inl next => growFrom rounds next
    | .inr tree => tree

/-- The tree grown to the right from the stream of breakpoints: the subtree hung on next may hold
twice as many leaves as the one before it. -/
def sequential (s : StepFunction E T) : LookupTree E T :=
  growFrom (s.breakpoints.length + 1) (leaf s.first, s.breakpoints, 0)

end LookupTree

namespace StepFunction
variable {E T : Type}

def toTree (s : StepFunction E T) : LookupTree E T := LookupTree.balanced s

end StepFunction

end DemandLex
