import DemandLex.Noted
import DemandLex.Script.Value

/-! The functions that scripts pass to the operators, by name. -/

namespace DemandLex.Script

inductive Transform where
  | id
  | add (k : Int64)
  | mul (k : Int64)
  | mod (k : Int64)
  | const (value : Value)
  | str
  | wrap
  | lt (bound : Value)

namespace Transform

def onInt (f : Int64 → Int64) : Value → Value
  | .int n => .int (f n)
  | value => value

def apply : Transform → Value → Value
  | id, value => value
  | add k, value => onInt (· + k) value
  | mul k, value => onInt (· * k) value
  | mod k, value => onInt (remainder · k) value
  | const other, _ => other
  | str, value => .str value.text
  | wrap, value => .list [value]
  | lt bound, value => .bool (value.compare bound == .lt)

end Transform

inductive Combine where
  | add
  | sub
  | mul
  | min
  | max
  | left
  | right
  | count
  | pair
  | cat
  | push

namespace Combine

def apply : Combine → Value → Value → Value
  | add, a, b => .int (a.number + b.number)
  | sub, a, b => .int (a.number - b.number)
  | mul, a, b => .int (a.number * b.number)
  | min, a, b => if b.compare a == .lt then b else a
  | max, a, b => if b.compare a == .lt then a else b
  | left, a, _ => a
  | right, _, b => b
  | count, a, _ => .int (a.number + 1)
  | pair, a, b => .list [a, b]
  | cat, a, b => .str (a.text ++ "." ++ b.text)
  | push, a, b => .list (a.asList ++ [b])

end Combine

inductive Predicate where
  | true
  | false
  | mod (k r : Int64)
  | lt (bound : Value)
  | gt (bound : Value)
  | eq (value : Value)
  | ne (value : Value)

namespace Predicate

def holds : Predicate → Value → Bool
  | true, _ => Bool.true
  | false, _ => Bool.false
  | mod k r, .int n => remainder n k == r
  | mod _ _, _ => Bool.false
  | lt bound, value => value.compare bound == .lt
  | gt bound, value => value.compare bound == .gt
  | eq other, value => value.same other
  | ne other, value => !value.same other

end Predicate

inductive Relation where
  | eq
  | true
  | false
  | le
  | nocase
  | mod (k : Int64)

namespace Relation

def holds : Relation → Value → Value → Bool
  | eq, a, b => a.same b
  | true, _, _ => Bool.true
  | false, _, _ => Bool.false
  | le, a, b => a.compare b != .gt
  | nocase, a, b => a.text.toLower == b.text.toLower
  | mod k, a, b => remainder a.number k == remainder b.number k

end Relation

inductive KeyOrder where
  | natural
  | reverse
  | equal
  | mod10
  | nocase

namespace KeyOrder

def compare : KeyOrder → Key → Key → Ordering
  | natural, a, b => a.compare b
  | reverse, a, b => b.compare a
  | equal, _, _ => .eq
  | mod10, .int a, .int b => Ord.compare (remainder a 10).toInt (remainder b 10).toInt
  | mod10, a, b => a.compare b
  | nocase, a, b => Ord.compare a.text.toLower b.text.toLower

end KeyOrder

abbrev Tag := Option String

namespace Tag

def notes (tag : Tag) (arguments : List Value) : List String :=
  match tag with
  | none => []
  | some name => [name ++ ":" ++ ",".intercalate (arguments.map Value.text)]

def call {α : Type} (tag : Tag) (arguments : List Value) (result : α) : Noted String α :=
  ⟨tag.notes arguments, result⟩

end Tag

def Transform.noted (f : Transform) (tag : Tag) (a : Value) : Noted String Value :=
  tag.call [a] (f.apply a)

def Combine.noted (f : Combine) (tag : Tag) (a b : Value) : Noted String Value :=
  tag.call [a, b] (f.apply a b)

def Predicate.noted (f : Predicate) (tag : Tag) (a : Value) : Noted String Bool :=
  tag.call [a] (f.holds a)

def Relation.noted (f : Relation) (tag : Tag) (a b : Value) : Noted String Bool :=
  tag.call [a, b] (f.holds a b)

end DemandLex.Script
