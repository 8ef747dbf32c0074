import DemandLex.Decimal.Digits
import DemandLex.Decimal.Binary64

/-! Reading decimal numbers: a sign, digits with a point among them, an exponent; or a word for a
number that is not finite, in any letter case. Of a very long exponent only the first digits are
read. -/

namespace DemandLex.Decimal

def takeSign : List Char → Bool × List Char
  | '-' :: rest => (true, rest)
  | '+' :: rest => (false, rest)
  | text => (false, text)

/-- Leaves out the digits behind the one that makes a number at least 65536. -/
def clip (n : Nat) : Nat := if n < 655360 then n else clip (n / 10)
termination_by n
decreasing_by omega

def clipExponent (exponent : Int) : Int :=
  if exponent < 0 then -(clip exponent.natAbs : Int) else clip exponent.natAbs

def nearest (digits : Nat) (exponent : Int) : Binary64 :=
  Binary64.ofDecimal false digits (clipExponent exponent)

/-- The exponent that stands at the end of a number; nothing there is an exponent of zero. -/
def exponent? : List Char → Option Int
  | [] => some 0
  | c :: rest =>
    if c = 'e' ∨ c = 'E' then
      let (negative, digits) := takeSign rest
      if digits.isEmpty || !digits.all isDigit then none
      else some (clipExponent (if negative then -(value digits : Int) else value digits))
    else none

def word? (text : List Char) : Option (Bool → Binary64) :=
  match String.ofList (text.map Char.toLower) with
  | "inf" | "infinity" => some Binary64.infinity
  | "nan" => some fun _ => Binary64.nan
  | _ => none

def number? (negative : Bool) (text : List Char) : Option Binary64 :=
  let whole := text.takeWhile isDigit
  let (fraction, rest) := match text.dropWhile isDigit with
    | '.' :: rest => (rest.takeWhile isDigit, rest.dropWhile isDigit)
    | rest => ([], rest)
  if whole.isEmpty && fraction.isEmpty then none
  else do
    let exponent ← exponent? rest
    some (Binary64.ofDecimal negative (valueByHalves (whole ++ fraction))
      (exponent - fraction.length))

def read? (text : String) : Option Binary64 :=
  let (negative, rest) := takeSign text.toList
  match word? rest with
  | some make => some (make negative)
  | none => number? negative rest

end DemandLex.Decimal
