/-! Decimal digits of natural numbers. -/

namespace DemandLex.Decimal

def isDigit (c : Char) : Bool := '0' ≤ c && c ≤ '9'

def digitValue (c : Char) : Nat := c.toNat - '0'.toNat

def digitChar (d : Nat) : Char := Char.ofNat ('0'.toNat + d)

def value (digits : List Char) : Nat := digits.foldl (fun n c => 10 * n + digitValue c) 0

theorem isDigit_iff {c : Char} : isDigit c = true ↔ 48 ≤ c.toNat ∧ c.toNat ≤ 57 := by
  simp [isDigit, Char.le_def, UInt32.le_iff_toNat_le]

theorem digitValue_lt {c : Char} (digit : isDigit c = true) : digitValue c < 10 := by
  have bounds := isDigit_iff.mp digit
  have zero : '0'.toNat = 48 := rfl
  rw [digitValue, zero]
  omega

theorem toNat_digitChar {d : Nat} (small : d < 10) : (digitChar d).toNat = 48 + d := by
  have valid : (48 + d).isValidChar := Or.inl (by omega)
  have zero : '0'.toNat = 48 := rfl
  rw [digitChar, zero, Char.ofNat, dif_pos valid]
  rfl

theorem isDigit_digitChar {d : Nat} (small : d < 10) : isDigit (digitChar d) = true := by
  rw [isDigit_iff, toNat_digitChar small]
  omega

theorem digitValue_digitChar {d : Nat} (small : d < 10) : digitValue (digitChar d) = d := by
  have zero : '0'.toNat = 48 := rfl
  rw [digitValue, toNat_digitChar small, zero]
  omega

theorem value_concat (digits : List Char) (c : Char) :
    value (digits ++ [c]) = 10 * value digits + digitValue c := by
  simp [value]

/-- The number that a text of decimal digits writes, from the numbers that its halves write. A long
text takes far less work this way than digit by digit. -/
def valueByHalves (digits : List Char) : Nat :=
  if digits.length ≤ 16 then value digits
  else
    let half := digits.length / 2
    valueByHalves (digits.take half) * Nat.pow 10 (digits.length - half) +
      valueByHalves (digits.drop half)
termination_by digits.length
decreasing_by
  · grind
  · grind

def zeros (count : Nat) : String := String.ofList (List.replicate count '0')

end DemandLex.Decimal
