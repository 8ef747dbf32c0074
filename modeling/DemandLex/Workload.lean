import DemandLex.Decimal.Binary64
import DemandLex.StepFunction.Tree

/-! Inputs of a known shape for measuring the library. -/

namespace DemandLex.Workload

def recordLine (records i : Nat) : String :=
  let separator := if i + 1 = records then "" else ","
  "  \x7b\"id\": " ++ toString i ++ ", \"name\": \"item\\u00e9" ++ toString i ++
    "\", \"ratio\": " ++ toString (i % 97) ++ "." ++ toString (i % 13) ++
    "e-2, \"tags\": [true, null]\x7d" ++ separator ++ "\n"

def jsonDocument (records : Nat) : String :=
  (List.range records).foldl (fun text i => text ++ recordLine records i) "[\n" ++ "]"

def strategy : Strategy Binary64 Int := ⟨Binary64.compare, (· == ·)⟩

/-- A step function whose edges are spaced evenly from an offset on, with values that go round
from 0 to 6. -/
def stepFunction (count : Nat) (offset spacing : Binary64) : StepFunction Binary64 Int :=
  ⟨-1, (List.range count).map fun i =>
    ⟨offset + Binary64.ofNat i * spacing, ((i % 7 : Nat) : Int)⟩⟩

def nextState (state : UInt64) : UInt64 := state * 6364136223846793005 + 1442695040888963407

/-- The key of a state: its upper 53 bits as a fraction of the span. -/
def keyOfState (span : Binary64) (state : UInt64) : Binary64 :=
  Binary64.ofNat (state >>> 11).toNat / Binary64.ofNat (2 * Binary64.leadingBit) * span

def keysFrom (span : Binary64) (state : UInt64) : Nat → List Binary64
  | 0 => []
  | count + 1 =>
    let next := nextState state
    keyOfState span next :: keysFrom span next count

def probeKeys (count : Nat) (span : Binary64) : List Binary64 :=
  keysFrom span 0x2545f4914f6cdd1d count

def findThrice (s : StepFunction Binary64 Int) (balanced sequential : LookupTree Binary64 Int)
    (key : Binary64) : List Int :=
  [s.get strategy.compare key, balanced.get strategy.compare key,
    sequential.get strategy.compare key]

def mergeByMinimum (s t : StepFunction Binary64 Int) : StepFunction Binary64 Int :=
  StepFunction.merge strategy min s t

def mergeWithFixed (count : Nat) (s : StepFunction Binary64 Int) : StepFunction Binary64 Int :=
  mergeByMinimum s
    (stepFunction count (.ofQuotient false 1 2) (.ofNat 3))

end DemandLex.Workload
