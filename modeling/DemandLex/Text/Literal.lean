/-! The text of a string literal while it is being read. -/

namespace DemandLex

/-- Decoded text, and the high surrogate that still waits for its low one. UTF-16 units are paired
into characters; a surrogate without a partner becomes U+FFFD. -/
structure LiteralText where
  value : String
  highSurrogate : Option Nat
  deriving DecidableEq, Repr, Inhabited

namespace LiteralText

def empty : LiteralText := ⟨"", none⟩

def replacement : Char := '\uFFFD'

def char? (n : Nat) : Option Char :=
  if h : n.isValidChar then some ⟨n.toUInt32, by
    have small : n < UInt32.size := by
      rcases h with h | h <;> simp only [UInt32.size] <;> omega
    simpa [UInt32.isValidChar, Nat.mod_eq_of_lt small] using h⟩ else none

@[simp] theorem char?_toNat (c : Char) : char? c.toNat = some c := by
  have valid : c.toNat.isValidChar := c.valid
  rw [char?, dif_pos valid, Option.some_inj]
  exact Char.ext UInt32.ofNat_toNat

def isHigh (unit : Nat) : Bool := 0xD800 ≤ unit && unit ≤ 0xDBFF

def isLow (unit : Nat) : Bool := 0xDC00 ≤ unit && unit ≤ 0xDFFF

def flush (t : LiteralText) : LiteralText :=
  match t.highSurrogate with
  | some _ => ⟨t.value.push replacement, none⟩
  | none => t

def push (t : LiteralText) (c : Char) : LiteralText :=
  let t := t.flush
  { t with value := t.value.push c }

def append (t : LiteralText) (s : String) : LiteralText :=
  let t := t.flush
  { t with value := t.value ++ s }

theorem isValidChar_pair {high low : Nat} (first : isHigh high = true)
    (second : isLow low = true) :
    (0x10000 + (high - 0xD800) * 1024 + (low - 0xDC00)).isValidChar := by
  simp only [isHigh, isLow, Bool.and_eq_true, decide_eq_true_eq] at first second
  right
  omega

def pair (high low : Nat) : Char :=
  (char? (0x10000 + (high - 0xD800) * 1024 + (low - 0xDC00))).getD replacement

def pushUnit (t : LiteralText) (unit : Nat) : LiteralText :=
  match t.highSurrogate with
  | some high =>
    if isLow unit then ⟨t.value.push (pair high unit), none⟩
    else if isHigh unit then ⟨t.value.push replacement, some unit⟩
    else ⟨(t.value.push replacement).push ((char? unit).getD replacement), none⟩
  | none =>
    if isHigh unit then ⟨t.value, some unit⟩
    else ⟨t.value.push ((char? unit).getD replacement), none⟩

def finish (t : LiteralText) : String := t.flush.value

end LiteralText

end DemandLex
