import DemandLex.Program.Sequences
import DemandLex.Script.Function

/-! Named generators, scans and runs for programs over sequences of values. -/

namespace DemandLex.Script

open Program

abbrev MakeValues := Make String Value

abbrev ValueOperator := Operator String Value

def countFrom (start stride : Int64) (limit : Option Int64) (tag : Tag) : MakeValues :=
  .unfold start fun n =>
    tag.call [.int n] (if limit.any (· ≤ n) then none else some (.int n, n + stride))

/-- Halves an even number and takes one more than three times an odd one, until one is reached. -/
def collatzFrom (start : Int64) (tag : Tag) : MakeValues :=
  .unfold (some start) fun
    | none => pure none
    | some n => tag.call [.int n] (some (.int n,
        if n ≤ 1 then none else if n % 2 = 0 then some (n / 2) else some (3 * n + 1)))

def fibonacci (second : Int64) (tag : Tag) : MakeValues :=
  .unfold ((0 : Int64), second) fun (a, b) => tag.call [.int a] (some (.int a, (b, a + b)))

def every (k : Nat) (tag : Tag) : ValueOperator :=
  .scanFilter 0 fun i value =>
    tag.call [value] (i + 1, if i % max k 1 = 0 then some value else none)

def records (tag : Tag) : ValueOperator :=
  .scanFilter none fun (best : Option Value) value =>
    tag.call [value] (if best.all (·.compare value == .lt) then (some value, some value)
      else (best, none))

def differences (tag : Tag) : ValueOperator :=
  .scanFilter none fun (before : Option Int64) value =>
    tag.call [value] (some value.number, before.map fun n => .int (value.number - n))

inductive Outputs where
  | copies (count : Nat) (value : Value)
  | indices (start : Int64) (count : Nat)
  | items (values : List Value)
  | forever (value : Value)

namespace Outputs

def next? : Outputs → Option (Value × Outputs)
  | copies (left + 1) value => some (value, copies left value)
  | indices start (left + 1) => some (.int start, indices (start + 1) left)
  | items (value :: rest) => some (value, items rest)
  | forever value => some (value, forever value)
  | _ => none

end Outputs

inductive OutputRule where
  | repeated
  | indices
  | odd
  | none
  | forever
  | pair

namespace OutputRule

def start (rule : OutputRule) (s : Int64) (value : Value) : Int64 × Outputs :=
  let n := value.number
  let count := n.toInt.toNat
  match rule with
  | repeated => (s + 1, .copies count value)
  | indices => (s + Int64.ofNat count, .indices s count)
  | odd => (s + 1, .items (if n % 2 = 0 then [] else [value]))
  | none => (s + 1, .items [])
  | forever => (s + 1, .forever value)
  | pair => (s + 1, .items [.int s, value])

def scan (rule : OutputRule) (tag : Tag) : ValueOperator :=
  .flatScan (0 : Int64) (fun s value => tag.call [.int s, value] (rule.start s value))
    fun outputs => pure outputs.next?

def map (rule : OutputRule) (tag : Tag) : ValueOperator :=
  .flatScan () (fun _ value => tag.call [value] ((), (rule.start 0 value).2))
    fun outputs => pure outputs.next?

end OutputRule

def indexed : ValueOperator := .entries fun index value => .list [.int (Int64.ofNat index), value]

def accumulate (f : Combine) (start : Value) (tag : Tag) : Machine String Value Value :=
  .accumulator (f.noted tag) start

def quotedList (values : List Value) : String := Text.list (values.map Value.quoted)

end DemandLex.Script
