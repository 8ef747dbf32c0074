import DemandLex.Decimal.Binary64

/-! The shortest decimal that reads back as a given binary number: of all decimals with the fewest
digits that round to the number, the nearest. -/

namespace DemandLex.Decimal

/-- Which of two neighbours an exact tie goes to. -/
inductive Tie where
  | up
  | even
  deriving DecidableEq, Repr

/-- The value `digits * 10 ^ power`. -/
structure Scientific where
  digits : Nat
  power : Int
  deriving DecidableEq, Repr

def Scientific.trim (s : Scientific) : Scientific :=
  if h : s.digits ≠ 0 ∧ s.digits % 10 = 0 then
    Scientific.trim ⟨s.digits / 10, s.power + 1⟩
  else s
termination_by s.digits
decreasing_by exact Nat.div_lt_self (by omega) (by decide)

/-- The interval of reals around `4 * m` quarters of a last place that round to `m` of them. -/
structure Rounding where
  low : Nat
  middle : Nat
  high : Nat
  /-- The exponent of two of a quarter of a last place. -/
  quarter : Int
  closed : Bool

/-- The interval of a positive finite number. The gap below a power of two is half the gap above. -/
def Rounding.ofBinary (x : Binary64) : Rounding :=
  let m := x.significand
  let narrow := m == Binary64.leadingBit && x.exponent != -1074
  { low := 4 * m - (if narrow then 1 else 2)
    middle := 4 * m
    high := 4 * m + 2
    quarter := x.exponent - 2
    closed := m % 2 == 0 }

namespace Rounding

/-- Factors that bring quarters of a last place and units of `10 ^ power` to one scale. -/
def factors (r : Rounding) (power : Int) : Nat × Nat :=
  (Nat.pow 2 r.quarter.toNat * Nat.pow 10 (-power).toNat,
    Nat.pow 2 (-r.quarter).toNat * Nat.pow 10 power.toNat)

/-- The decimal exponent of the first digit of the middle, from a guess that is at most three
too small. -/
def settle (r : Rounding) : Nat → Int → Int
  | 0, guess => guess
  | tries + 1, guess =>
    let (unit, grid) := r.factors (guess + 1)
    if grid ≤ r.middle * unit then r.settle tries (guess + 1) else guess

def firstPower (r : Rounding) : Int :=
  r.settle 3 (((r.middle.log2 : Int) + r.quarter) * 30103 / 100000 - 2)

/-- The multiple of `10 ^ power` in the interval that is nearest to the middle, if one of the two
neighbours of the middle lies in the interval. -/
def nearest? (r : Rounding) (tie : Tie) (power : Int) : Option Nat :=
  let (unit, grid) := r.factors power
  let middle := r.middle * unit
  let below := middle / grid
  let lowHit := if r.closed then r.low * unit ≤ below * grid else r.low * unit < below * grid
  let highHit :=
    if r.closed then (below + 1) * grid ≤ r.high * unit else (below + 1) * grid < r.high * unit
  if lowHit then
    if highHit then
      let twice := 2 * (middle % grid)
      if twice < grid then some below
      else if grid < twice then some (below + 1)
      else match tie with
        | .up => some (below + 1)
        | .even => some (if below % 2 = 0 then below else below + 1)
    else some below
  else if highHit then some (below + 1)
  else none

def search (r : Rounding) (tie : Tie) : Nat → Int → Option Scientific
  | 0, _ => none
  | tries + 1, power =>
    match r.nearest? tie power with
    | some digits => some ⟨digits, power⟩
    | none => r.search tie tries (power - 1)

end Rounding

def exact (x : Binary64) : Scientific :=
  match x.exponent with
  | .ofNat q => ⟨x.significand * Nat.pow 2 q, 0⟩
  | .negSucc q => ⟨x.significand * Nat.pow 5 (q + 1), -((q : Int) + 1)⟩

/-- The shortest decimal of a finite number other than zero. Seventeen digits are always enough. -/
def shortest (tie : Tie) (x : Binary64) : Scientific :=
  let r := Rounding.ofBinary x
  ((r.search tie 17 r.firstPower).getD (exact x)).trim

end DemandLex.Decimal
