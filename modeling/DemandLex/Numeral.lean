import DemandLex.Decimal.Read
import DemandLex.Text.Quoted
import DemandLex.Text.Record

/-! Decimal numerals while they are being read. -/

namespace DemandLex

/-- The nearest of the whole numbers that fit into 32 bits with a sign. -/
def saturate (n : Int) : Int := max (-0x80000000) (min n 0x7FFFFFFF)

/-- The value `digits * 10 ^ (scale + exponent)`, or with the exponent taken away where it is
negative. All significant digits are kept; leading zeros only move the scale; scale and exponent
saturate. -/
structure Numeral where
  digits : String
  scale : Int
  exponent : Int
  negativeExponent : Bool
  deriving DecidableEq, Repr, Inhabited

namespace Numeral

def empty : Numeral := ⟨"", 0, 0, false⟩

def push (n : Numeral) (digit : Nat) : Numeral :=
  if n.digits.isEmpty && digit == 0 then n
  else if digit ≤ 9 then { n with digits := n.digits.push (Decimal.digitChar digit) }
  else n

def integerDigit (n : Numeral) (digit : Nat) : Numeral := n.push digit

def fractionDigit (n : Numeral) (digit : Nat) : Numeral :=
  let n := n.push digit
  { n with scale := saturate (n.scale - 1) }

/-- Adds a digit to the exponent. Numbers of 32 bits are taken as signed. -/
def exponentDigit (n : Numeral) (digit : Nat) : Numeral :=
  { n with exponent := saturate (saturate (n.exponent * 10) + Int.bmod digit 0x100000000) }

def negateExponent (n : Numeral) : Numeral := { n with negativeExponent := true }

def ofDigit (digit : Nat) : Numeral := empty.integerDigit digit

def power (n : Numeral) : Int :=
  saturate (if n.negativeExponent then n.scale - n.exponent else n.scale + n.exponent)

def whole (n : Numeral) : Nat := Decimal.valueByHalves n.digits.toList

/-- The number nearest to the value. Where the digits and the power of ten are numbers themselves,
one operation on them gives it; all else is left to `convert`. -/
def valueBy (convert : Nat → Int → Binary64) (n : Numeral) : Binary64 :=
  if n.digits.isEmpty then .zero
  else if n.whole ≤ 2 * Binary64.leadingBit ∧ n.power.natAbs ≤ 22 then
    let power := Binary64.ofNat (Nat.pow 10 n.power.natAbs)
    if n.power < 0 then Binary64.ofNat n.whole / power else Binary64.ofNat n.whole * power
  else convert n.whole n.power

def value (n : Numeral) : Binary64 := n.valueBy Decimal.nearest

end Numeral

end DemandLex
