import DemandLex.Decimal.Digits
import DemandLex.Decimal.Shortest

/-! How a shortest decimal is laid out as text. -/

namespace DemandLex.Decimal

/-- A number is written positionally when its point stands behind at least `lowest` and at most
`highest` digits, and with an exponent otherwise; a missing bound is no bound. Whole numbers end
in `whole`. -/
structure Layout where
  tie : Tie
  lowest : Option Int
  highest : Option Int
  whole : String

def Layout.plain : Layout := ⟨.up, none, none, ""⟩

/-- Numbers in JSON text: a point or an exponent always shows that the number is no integer. -/
def Layout.json : Layout := ⟨.even, some (-4), some 16, ".0"⟩

namespace Layout

def isPositional (l : Layout) (point : Int) : Bool :=
  l.lowest.all (· ≤ point) && l.highest.all (point ≤ ·)

def positional (l : Layout) (digits : List Char) (power : Int) : String :=
  let point := digits.length + power
  if 0 ≤ power then String.ofList digits ++ zeros power.toNat ++ l.whole
  else if 0 < point then
    String.ofList (digits.take point.toNat) ++ "." ++ String.ofList (digits.drop point.toNat)
  else "0." ++ zeros (-point).toNat ++ String.ofList digits

def scientific (digits : List Char) (point : Int) : String :=
  let mantissa := match digits with
    | [] => ""
    | [d] => d.toString
    | d :: rest => d.toString ++ "." ++ String.ofList rest
  let exponent := point - 1
  mantissa ++ "e" ++ (if exponent < 0 then "-" else "+") ++ toString exponent.natAbs

def finite (l : Layout) (x : Binary64) : String :=
  if x.isZero then "0" ++ l.whole
  else
    let s := shortest l.tie x
    let digits := (toString s.digits).toList
    let point := digits.length + s.power
    if l.isPositional point then l.positional digits s.power else scientific digits point

/-- The text of a number; a number that is not finite has a word of its own. -/
def render (l : Layout) (x : Binary64) : String :=
  if x.isNaN then "NaN"
  else
    let sign := if x.isNegative then "-" else ""
    sign ++ if x.isInfinite then "inf" else l.finite x

end Layout

end DemandLex.Decimal

namespace DemandLex.Binary64

/-- The fewest digits that read back as the number, without an exponent. -/
def toText (x : Binary64) : String := Decimal.Layout.plain.render x

end DemandLex.Binary64
