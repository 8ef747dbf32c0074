import DemandLex.Proofs.CharSet
import Mathlib.Data.Set.Basic

/-! Expressions for character sets, and the sets of characters that they stand for. -/

namespace DemandLex.CharSet

inductive Expression where
  | empty
  | one (c : Char)
  | any (chars : String)
  | range (first last : Char)
  | union (left right : Expression)
  deriving Repr, DecidableEq

namespace Expression

def build : Expression → CharSet
  | empty => .empty
  | one c => .one c
  | any chars => .any chars
  | range first last => .range first last
  | union left right => left.build.union right.build

/-- The characters that an expression means; a range whose first character comes behind its last one
means none. -/
def meaning : Expression → Set Char
  | empty => ∅
  | one c => {c}
  | any chars => {c | c ∈ chars.toList}
  | range first last => {c | first ≤ c ∧ c ≤ last}
  | union left right => left.meaning ∪ right.meaning

/-- The code points of an expression. Those of a range are all between its ends, the ones that are no
characters included. -/
def codePoints : Expression → Set Nat
  | empty => ∅
  | one c => {c.toNat}
  | any chars => {code | ∃ c ∈ chars.toList, c.toNat = code}
  | range first last => {code | first.toNat ≤ code ∧ code ≤ last.toNat}
  | union left right => left.codePoints ∪ right.codePoints

theorem holds_build (e : Expression) : e.build.Holds e.codePoints := by
  induction e with
  | empty => exact holds_empty
  | one c => exact holds_one c
  | any chars => exact holds_any chars
  | range first last => exact holds_range first last
  | union left right leftHolds rightHolds => exact leftHolds.union rightHolds

theorem mem_meaning_iff {e : Expression} {c : Char} : c ∈ e.meaning ↔ c.toNat ∈ e.codePoints := by
  induction e with
  | empty => exact Iff.rfl
  | one c => simp [meaning, codePoints, Char.toNat_inj]
  | any chars => simp [meaning, codePoints, Char.toNat_inj]
  | range first last =>
    exact and_congr (Char.le_def.trans UInt32.le_iff_toNat_le)
      (Char.le_def.trans UInt32.le_iff_toNat_le)
  | union left right leftMeans rightMeans => exact or_congr leftMeans rightMeans

/-- Whatever a set is put together from, it contains the characters that its expression means, and
its tree says of every code point what its ranges say. -/
theorem contains_iff_mem_meaning (e : Expression) :
    (∀ c : Char, e.build.contains c = true ↔ c ∈ e.meaning) ∧
      ∀ code : Nat, e.build.tree.get strategy.compare code =
        e.build.ranges.get strategy.compare code := by
  constructor
  · intro c
    rw [e.holds_build.contains, mem_meaning_iff]
  · exact tree_get e.holds_build.formed.increasing

example : (union (range 'z' 'a') (union (range '\x00' 'c') (one 'd'))).build.ranges =
    ⟨false, [⟨0, true⟩, ⟨101, false⟩]⟩ := by
  decide +kernel

end Expression

end DemandLex.CharSet
