import DemandLex.Text.Literal

/-! UTF-16 units: those of a character, and the characters of any units at all. Decoding undoes
encoding, and the text of a literal holds what its units decode to, however they come in. -/

namespace DemandLex

namespace Utf16

open LiteralText

def units (c : Char) : List Nat :=
  if c.toNat < 0x10000 then [c.toNat]
  else [0xD800 + (c.toNat - 0x10000) / 1024, 0xDC00 + (c.toNat - 0x10000) % 1024]

def lone (unit : Nat) : Char := (char? unit).getD replacement

/-- The characters of units, with a replacement for every surrogate that is not part of a pair. -/
def lossy : List Nat → List Char
  | [] => []
  | [unit] => [lone unit]
  | high :: low :: later =>
    if isHigh high && isLow low then pair high low :: lossy later
    else lone high :: lossy (low :: later)

variable {unit low : Nat} {later : List Nat}

theorem lossy_lone (free : isHigh unit = false ∨ ∀ low ∈ later.head?, isLow low = false) :
    lossy (unit :: later) = lone unit :: lossy later := by
  cases later with
  | nil => rfl
  | cons low later =>
    have apart : (isHigh unit && isLow low) = false := by
      rcases free with high | next
      · rw [high, Bool.false_and]
      · rw [next low rfl, Bool.and_false]
    rw [lossy, apart]
    rfl

theorem lossy_pair (high : isHigh unit = true) (second : isLow low = true) :
    lossy (unit :: low :: later) = pair unit low :: lossy later := by
  rw [lossy, high, second]
  rfl

theorem lone_high (high : isHigh unit = true) : lone unit = replacement := by
  have invalid : ¬unit.isValidChar := by
    simp only [isHigh, Bool.and_eq_true, decide_eq_true_eq] at high
    rintro (below | above) <;> omega
  rw [lone, char?, dif_neg invalid]
  rfl

section Character
variable (c : Char)

theorem toNat_cases : c.toNat < 0xD800 ∨ (0xDFFF < c.toNat ∧ c.toNat < 0x110000) := c.valid

theorem not_surrogate : isHigh c.toNat = false ∧ isLow c.toNat = false := by
  have valid := toNat_cases c
  simp only [isHigh, isLow, Bool.and_eq_false_iff, decide_eq_false_iff_not]
  omega

theorem head_units : ∀ unit ∈ (units c).head?, isLow unit = false := by
  have valid := toNat_cases c
  rw [units]
  split
  · simpa using (not_surrogate c).2
  · simp only [List.head?_cons, Option.mem_some_iff, forall_eq', isLow, Bool.and_eq_false_iff,
      decide_eq_false_iff_not]
    omega

theorem lone_toNat : lone c.toNat = c := by
  rw [lone, char?_toNat]
  rfl

/-- Decoding gives back an encoded character, whatever comes behind it. -/
theorem lossy_units (later : List Nat) : lossy (units c ++ later) = c :: lossy later := by
  have valid := toNat_cases c
  rw [units]
  split
  · rw [List.singleton_append, lossy_lone (Or.inl (not_surrogate c).1), lone_toNat]
  · next large =>
    have parts : 0x10000 + (0xD800 + (c.toNat - 0x10000) / 1024 - 0xD800) * 1024 +
        (0xDC00 + (c.toNat - 0x10000) % 1024 - 0xDC00) = c.toNat := by omega
    have first : isHigh (0xD800 + (c.toNat - 0x10000) / 1024) = true := by
      simp only [isHigh, Bool.and_eq_true, decide_eq_true_eq]
      omega
    have second : isLow (0xDC00 + (c.toNat - 0x10000) % 1024) = true := by
      simp only [isLow, Bool.and_eq_true, decide_eq_true_eq]
      omega
    rw [List.cons_append, List.singleton_append, lossy_pair first second, pair, parts, char?_toNat]
    rfl

end Character

theorem lossy_flatMap_units (chars : List Char) : lossy (chars.flatMap units) = chars := by
  induction chars with
  | nil => rfl
  | cons c later ih => rw [List.flatMap_cons, lossy_units, ih]

end Utf16

namespace LiteralText

open Utf16

def ahead (t : LiteralText) (later : List Nat) : List Char :=
  t.value.toList ++ lossy (t.highSurrogate.toList ++ later)

def Waits (t : LiteralText) : Prop := ∀ unit ∈ t.highSurrogate, isHigh unit = true

variable {t : LiteralText} {unit : Nat} {later : List Nat}

theorem waits_empty : empty.Waits := nofun

theorem flush_waiting : t.flush.highSurrogate = none := by
  rw [flush]
  split
  · rfl
  · assumption

theorem ahead_of_none (none : t.highSurrogate = none) :
    t.ahead later = t.value.toList ++ lossy later := by
  rw [ahead, none]
  rfl

theorem ahead_flush (waits : t.Waits) (next : ∀ unit ∈ later.head?, isLow unit = false) :
    t.flush.ahead later = t.ahead later := by
  obtain ⟨value, _ | high⟩ := t
  · rfl
  · have first : lossy (high :: later) = replacement :: lossy later := by
      rw [lossy_lone (Or.inr next), lone_high (waits high rfl)]
    simp only [flush, ahead, Option.toList_none, Option.toList_some, List.nil_append,
      List.singleton_append, first, String.toList_push, List.append_assoc]

theorem waits_push {c : Char} : (t.push c).Waits := by
  intro unit waiting
  have none : (t.push c).highSurrogate = none := flush_waiting
  rw [none] at waiting
  cases waiting

theorem ahead_push (waits : t.Waits) (c : Char) :
    (t.push c).ahead later = t.ahead (Utf16.units c ++ later) := by
  have head : ∀ unit ∈ (Utf16.units c ++ later).head?, isLow unit = false := by
    have first := head_units c
    have some : Utf16.units c ≠ [] := by
      rw [Utf16.units]
      split <;> simp
    obtain ⟨unit, rest, same⟩ := List.exists_cons_of_ne_nil some
    rw [same] at first ⊢
    exact first
  have value : (t.push c).value = t.flush.value.push c := rfl
  have none : (t.push c).highSurrogate = none := flush_waiting
  rw [← ahead_flush waits head, ahead_of_none none, ahead_of_none flush_waiting, value,
    lossy_units, String.toList_push, List.append_assoc]
  rfl

theorem append_unit_eq : t.append "\\u" = (t.push '\\').push 'u' := by
  have none : (t.push '\\').highSurrogate = Option.none := flush_waiting
  have flushed : (t.push '\\').flush = t.push '\\' := by
    rw [flush, none]
  have text : t.flush.value ++ "\\u" = (t.flush.value.push '\\').push 'u' := by
    rw [← String.toList_inj]
    simp
  rw [append, push, flushed]
  exact (LiteralText.mk.injEq ..).mpr ⟨text, rfl⟩

theorem waits_pushUnit : (t.pushUnit unit).Waits := by
  intro other waiting
  simp only [pushUnit] at waiting
  repeat' split at waiting
  all_goals cases waiting
  all_goals assumption

theorem ahead_pushUnit (waits : t.Waits) :
    (t.pushUnit unit).ahead later = t.ahead (unit :: later) := by
  obtain ⟨value, _ | high⟩ := t
  · simp only [pushUnit]
    split
    · rfl
    · next other =>
      have first : lossy (unit :: later) = lone unit :: lossy later :=
        lossy_lone (Or.inl (eq_false_of_ne_true other))
      simp [ahead, first, lone]
  · have waiting := waits high rfl
    simp only [pushUnit]
    split
    · next second => simp [ahead, lossy_pair waiting second]
    · next other =>
      have apart : lossy (high :: unit :: later) = replacement :: lossy (unit :: later) := by
        rw [lossy_lone (Or.inr (by simpa using other)), lone_high waiting]
      split
      · simp [ahead, apart]
      · next single =>
        have first : lossy (unit :: later) = lone unit :: lossy later :=
          lossy_lone (Or.inl (eq_false_of_ne_true single))
        simp [ahead, apart, first, lone]

theorem toList_finish (waits : t.Waits) : t.finish.toList = t.ahead [] := by
  rw [← ahead_flush waits (by simp), ahead_of_none flush_waiting]
  simp [finish, lossy]

end LiteralText

end DemandLex
