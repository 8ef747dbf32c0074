import DemandLex.Decimal.Layout
import DemandLex.Text.Quoted
import DemandLex.Text.Record

/-! The values and keys that scripts work on. -/

namespace DemandLex.Script

inductive Value where
  | bool (value : Bool)
  | int (value : Int64)
  | str (value : String)
  | list (items : List Value)
  deriving Repr, Inhabited

namespace Value

mutual

/-- Booleans come before integers, integers before strings, and strings before lists, which are in
lexicographic order. -/
def compare : Value → Value → Ordering
  | bool a, bool b => Ord.compare a.toNat b.toNat
  | bool _, _ => .lt
  | _, bool _ => .gt
  | int a, int b => Ord.compare a.toInt b.toInt
  | int _, _ => .lt
  | _, int _ => .gt
  | str a, str b => Ord.compare a b
  | str _, _ => .lt
  | _, str _ => .gt
  | list as, list bs => compareLists as bs

def compareLists : List Value → List Value → Ordering
  | [], [] => .eq
  | [], _ :: _ => .lt
  | _ :: _, [] => .gt
  | a :: as, b :: bs => (compare a b).then (compareLists as bs)

end

def same (a b : Value) : Bool := compare a b == .eq

mutual

def text : Value → String
  | bool value => toString value
  | int value => toString value.toInt
  | str value => value
  | list items => "[" ++ " ".intercalate (texts items) ++ "]"

def texts : List Value → List String
  | [] => []
  | item :: rest => text item :: texts rest

end

mutual

def quoted : Value → String
  | bool value => toString value
  | int value => toString value.toInt
  | str value => Text.quoteString value
  | list items => Text.list (quotedAll items)

def quotedAll : List Value → List String
  | [] => []
  | item :: rest => quoted item :: quotedAll rest

end

/-- The integer, or zero for any other value. -/
def number : Value → Int64
  | int value => value
  | _ => 0

def asList : Value → List Value
  | list items => items
  | _ => []

end Value

/-- The remainder that is never negative; a divisor of zero gives the number back. -/
def remainder (n k : Int64) : Int64 := if k = 0 then n else Int64.ofInt (n.toInt % k.toInt)

inductive Key where
  | int (value : Int64)
  | float (value : Binary64)
  | str (value : String)
  deriving DecidableEq, Repr, Inhabited

namespace Key

def compare : Key → Key → Ordering
  | int a, int b => Ord.compare a.toInt b.toInt
  | int _, _ => .lt
  | _, int _ => .gt
  | float a, float b => a.compare b
  | float _, _ => .lt
  | _, float _ => .gt
  | str a, str b => Ord.compare a b

def same (a b : Key) : Bool := compare a b == .eq

def text : Key → String
  | int value => toString value.toInt
  | float value => value.toText
  | str value => value

def quoted : Key → String
  | int value => toString value.toInt
  | float value => value.toText
  | str value => Text.quoteString value

end Key

end DemandLex.Script
