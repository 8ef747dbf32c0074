/-! Binary floating-point numbers of 64 bits, with exact arithmetic followed by one rounding to the
nearest number, ties to the one with the even last bit. -/

namespace DemandLex

structure Binary64 where
  bits : UInt64
  deriving DecidableEq, Repr, Inhabited

namespace Binary64

/-- The bit before the point of a normal number, `2 ^ 52` of its last places. It is not stored. -/
def leadingBit : Nat := 0x10000000000000

def signBit : Nat := 0x8000000000000000

/-- The bits of infinity; the bits of larger numbers than this are not numbers. -/
def infinityBits : Nat := 0x7FF0000000000000

def isNegative (x : Binary64) : Bool := x.bits >>> 63 != 0

/-- The bits without the sign. They order the non-negative numbers. -/
def magnitude (x : Binary64) : Nat := (x.bits &&& 0x7FFFFFFFFFFFFFFF).toNat

theorem magnitude_eq (x : Binary64) : x.magnitude = x.bits.toNat % signBit :=
  Nat.and_two_pow_sub_one_eq_mod x.bits.toNat 63

def isNaN (x : Binary64) : Bool := infinityBits < x.magnitude

def isInfinite (x : Binary64) : Bool := x.magnitude == infinityBits

def isFinite (x : Binary64) : Bool := x.magnitude < infinityBits

def isZero (x : Binary64) : Bool := x.magnitude == 0

/-- The whole number `m` of a finite magnitude `m * 2 ^ q`. -/
def significand (x : Binary64) : Nat :=
  let fraction := x.magnitude % leadingBit
  if x.magnitude < leadingBit then fraction else leadingBit + fraction

def exponent (x : Binary64) : Int :=
  if x.magnitude < leadingBit then -1074 else (x.magnitude / leadingBit : Nat) - 1075

def ofMagnitude (negative : Bool) (magnitude : Nat) : Binary64 :=
  ⟨(magnitude + if negative then signBit else 0).toUInt64⟩

def zero : Binary64 := ⟨0⟩

def infinity (negative : Bool) : Binary64 := ofMagnitude negative infinityBits

def nan : Binary64 := ⟨0x7FF8000000000000⟩

/-- A quotient rounded to the nearest whole number, ties to even. -/
def roundQuotient (num den : Nat) : Nat :=
  let low := num / den
  let twice := 2 * (num % den)
  if twice < den ∨ (twice = den ∧ low % 2 = 0) then low else low + 1

def scale (num den : Nat) : Int → Nat × Nat
  | .ofNat k => (num * Nat.pow 2 k, den)
  | .negSucc k => (num, den * Nat.pow 2 (k + 1))

/-- The exponent of the last place that a positive quotient is rounded to: the one that leaves 53
binary digits before the point, but not below that of the smallest number. -/
def lastPlace (num den : Nat) : Int :=
  let low : Int := (num.log2 : Int) - den.log2 - 53
  let (n, d) := scale num den (-low)
  max (-1074) (if n < 2 * leadingBit * d then low else low + 1)

def roundMagnitude (num den : Nat) : Nat :=
  if num = 0 then 0
  else
    let place := lastPlace num den
    let (n, d) := scale num den (-place)
    min ((place + 1074).toNat * leadingBit + roundQuotient n d) infinityBits

def ofQuotient (negative : Bool) (num den : Nat) : Binary64 :=
  ofMagnitude negative (roundMagnitude num den)

def ofNat (n : Nat) : Binary64 := ofQuotient false n 1

/-- The number nearest to `digits * 10 ^ power`. Values that are certain to overflow or to vanish
are not written out. -/
def ofDecimal (negative : Bool) (digits : Nat) : Int → Binary64
  | .ofNat k =>
    if digits = 0 then ofMagnitude negative 0
    else if 1024 ≤ digits.log2 + 3 * k then infinity negative
    else ofQuotient negative (digits * Nat.pow 10 k) 1
  | .negSucc k =>
    if digits.log2 + 1 + 1100 ≤ 3 * (k + 1) then ofMagnitude negative 0
    else ofQuotient negative digits (Nat.pow 10 (k + 1))

def ofScaled (negative : Bool) (m : Nat) (q : Int) : Binary64 :=
  let (n, d) := scale m 1 q
  ofQuotient negative n d

def mul (x y : Binary64) : Binary64 :=
  let negative := x.isNegative != y.isNegative
  if x.isNaN || y.isNaN then nan
  else if x.isInfinite || y.isInfinite then
    if x.isZero || y.isZero then nan else infinity negative
  else ofScaled negative (x.significand * y.significand) (x.exponent + y.exponent)

def div (x y : Binary64) : Binary64 :=
  let negative := x.isNegative != y.isNegative
  if x.isNaN || y.isNaN then nan
  else if x.isInfinite then if y.isInfinite then nan else infinity negative
  else if y.isInfinite then ofMagnitude negative 0
  else if y.isZero then if x.isZero then nan else infinity negative
  else
    let (n, d) := scale x.significand y.significand (x.exponent - y.exponent)
    ofQuotient negative n d

/-- The signed whole number `m` of a finite number `m * 2 ^ q`, for an exponent `q` not above its
own. -/
def scaledTo (x : Binary64) (q : Int) : Int :=
  let m : Int := (x.significand * Nat.pow 2 (x.exponent - q).toNat : Nat)
  if x.isNegative then -m else m

def add (x y : Binary64) : Binary64 :=
  if x.isNaN || y.isNaN then nan
  else if x.isInfinite then
    if y.isInfinite && x.isNegative != y.isNegative then nan else x
  else if y.isInfinite then y
  else
    let q := min x.exponent y.exponent
    let sum := x.scaledTo q + y.scaledTo q
    if sum = 0 then ofMagnitude (x.isNegative && y.isNegative) 0
    else ofScaled (decide (sum < 0)) sum.natAbs q

instance : Mul Binary64 := ⟨mul⟩

instance : Div Binary64 := ⟨div⟩

instance : Add Binary64 := ⟨add⟩

/-- Where a number stands in the total order in which the two zeros are equal and what is not a
number is above everything else. -/
def rank (x : Binary64) : Int :=
  if x.isNaN then infinityBits + 1
  else if x.isNegative then -(x.magnitude : Int)
  else x.magnitude

def compare (x y : Binary64) : Ordering := Ord.compare x.rank y.rank

def same (x y : Binary64) : Bool := x.rank == y.rank

end Binary64

end DemandLex
