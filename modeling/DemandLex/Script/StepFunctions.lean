import DemandLex.Program.StepFunctions
import DemandLex.Script.Function

/-! Named strategies and generators for programs over step functions of values. -/

namespace DemandLex.Script

open Program

/-- An order of keys and an equality of values by name; calls of the equality are noted under the
tag. -/
structure Choice where
  order : KeyOrder
  relation : Relation
  tag : Tag

namespace Choice

def standard : Choice := ⟨.natural, .eq, none⟩

def noted (c : Choice) : NotedStrategy String Key Value :=
  ⟨c.order.compare, c.relation.noted c.tag⟩

def plain (c : Choice) : Strategy Key Value := ⟨c.order.compare, c.relation.holds⟩

end Choice

/-- A step function with the edge `seed + stride * i` for every `i` below the limit, and there the
value `i`, or its remainder by `k` unless that is zero. Every `i` is noted. -/
def evenlySpaced (first : Value) (seed stride k : Int64) (limit : Option Int64) (tag : Tag) :
    MakeStream String Key Value :=
  .unfold first (0 : Int64) fun i =>
    tag.call [.int i] (if limit.any (· ≤ i) then none
      else some (⟨.int (seed + stride * i), .int (remainder i k)⟩, i + 1))

def textOfSteps (f : StepFunction Key Value) : String := f.render Key.text Value.text

def quotedSteps (f : StepFunction Key Value) : String :=
  Text.record "IntervalSequence" [("first", f.first.quoted),
    ("rest", Text.list (f.breakpoints.map fun b =>
      Text.record "Breakpoint" [("edge", b.edge.quoted), ("value", b.value.quoted)]))]

def quotedTree : LookupTree Key Value → String
  | .leaf value => "Leaf(" ++ value.quoted ++ ")"
  | .node left rightMin right => Text.record "Node"
      [("left", quotedTree left), ("right_min", rightMin.quoted), ("right", quotedTree right)]

end DemandLex.Script
