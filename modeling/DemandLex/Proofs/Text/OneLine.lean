import DemandLex.Report
import Mathlib.Tactic.SplitIfs

/-! Texts without a line feed, and such texts one below the other. Tokens are shown on one line each,
whatever their values are. -/

namespace DemandLex

namespace Text

def OneLine (s : String) : Prop := '\n' ∉ s.toList

instance (s : String) : Decidable (OneLine s) := inferInstanceAs (Decidable (¬ _))

variable {s t : String}

theorem oneLine_append : OneLine (s ++ t) ↔ OneLine s ∧ OneLine t := by
  simp [OneLine, not_or]

theorem OneLine.append (first : OneLine s) (second : OneLine t) : OneLine (s ++ t) :=
  oneLine_append.mpr ⟨first, second⟩

theorem OneLine.foldl {α : Type} {f : α → String} {values : List α} (first : OneLine s)
    (each : ∀ value ∈ values, OneLine (f value)) :
    OneLine (values.foldl (fun text value => text ++ f value) s) := by
  induction values generalizing s with
  | nil => exact first
  | cons value later ih =>
    exact ih (first.append (each value List.mem_cons_self)) fun next member =>
      each next (List.mem_cons_of_mem value member)

theorem OneLine.intercalate {parts : List String} (first : OneLine s)
    (each : ∀ part ∈ parts, OneLine part) : OneLine (s.intercalate parts) := by
  induction parts with
  | nil => simp [OneLine]
  | cons part later ih =>
    cases later with
    | nil => simpa using each part
    | cons next later =>
      rw [String.intercalate_cons_cons]
      exact ((each part List.mem_cons_self).append first).append
        (ih fun part member => each part (List.mem_cons_of_mem _ member))

theorem oneLine_ofList {chars : List Char} : OneLine (String.ofList chars) ↔ '\n' ∉ chars := by
  rw [OneLine, String.toList_ofList]

theorem oneLine_replicate {c : Char} (other : c ≠ '\n') (n : Nat) :
    OneLine (String.ofList (List.replicate n c)) := by
  rw [oneLine_ofList, List.mem_replicate]
  exact fun found => other found.2.symm

theorem oneLine_char {c : Char} (other : c ≠ '\n') : OneLine c.toString := by
  simpa [OneLine] using other.symm

theorem digitChar_ne_feed : ∀ d < 16, Nat.digitChar d ≠ '\n' := by decide

theorem feed_notMem_toDigits {base : Nat} (several : 1 < base) (small : base ≤ 16) (n : Nat) :
    '\n' ∉ Nat.toDigits base n := by
  induction n using Nat.strongRecOn with
  | ind n ih =>
    by_cases last : n < base
    · rw [Nat.toDigits_of_lt_base last, List.mem_singleton]
      exact (digitChar_ne_feed n (Nat.lt_of_lt_of_le last small)).symm
    · have less : n / base < n := Nat.div_lt_self (by omega) several
      have digit : n % base < base := Nat.mod_lt n (by omega)
      rw [Nat.toDigits_of_base_le several (by omega), List.mem_append, List.mem_singleton, not_or]
      exact ⟨ih _ less, (digitChar_ne_feed _ (Nat.lt_of_lt_of_le digit small)).symm⟩

theorem oneLine_nat (n : Nat) : OneLine (toString n) := by
  rw [Nat.toString_eq_ofList_toDigits, oneLine_ofList]
  exact feed_notMem_toDigits (by decide) (by decide) n

theorem oneLine_codePoint (c : Char) : OneLine (codePoint c) :=
  (OneLine.append (by decide)
    (oneLine_ofList.mpr (feed_notMem_toDigits (by decide) (by decide) _))).append (by decide)

theorem oneLine_escapeChar {quote c : Char} (other : quote ≠ '\n') :
    OneLine (escapeChar quote c) := by
  rw [escapeChar]
  split_ifs with null tab return_ feed back same unseen
  · decide
  · decide
  · decide
  · decide
  · decide
  · rw [same]
    exact OneLine.append (by decide) (oneLine_char other)
  · exact oneLine_codePoint c
  · exact oneLine_char feed

theorem oneLine_quoteString (s : String) : OneLine (quoteString s) :=
  (OneLine.foldl (by decide) fun c _ => oneLine_escapeChar (by decide)).append (by decide)

theorem oneLine_quoteChar (c : Char) : OneLine (quoteChar c) :=
  (OneLine.append (by decide) (oneLine_escapeChar (by decide))).append (by decide)

end Text

namespace Report

def joinLines (lines : List String) : String := String.join (lines.map (· ++ "\n"))

theorem joinLines_append (first second : List String) :
    joinLines (first ++ second) = joinLines first ++ joinLines second := by
  rw [joinLines, List.map_append, String.join_append]
  rfl

theorem joinLines_singleton (line : String) : joinLines [line] = line ++ "\n" := by
  simp [joinLines]

end Report

open Text

namespace Decimal

theorem oneLine_zeros (count : Nat) : OneLine (zeros count) := by
  rw [zeros, oneLine_ofList, List.mem_replicate]
  exact fun found => absurd found.2 (by decide)

variable {digits : List Char}

theorem oneLine_positional {l : Layout} (whole : OneLine l.whole) (inside : '\n' ∉ digits)
    (power : Int) : OneLine (l.positional digits power) := by
  have all : OneLine (String.ofList digits) := oneLine_ofList.mpr inside
  have front (n : Nat) : OneLine (String.ofList (digits.take n)) :=
    oneLine_ofList.mpr fun member => inside (List.mem_of_mem_take member)
  have back (n : Nat) : OneLine (String.ofList (digits.drop n)) :=
    oneLine_ofList.mpr fun member => inside (List.mem_of_mem_drop member)
  rw [Layout.positional]
  split_ifs
  · exact (all.append (oneLine_zeros _)).append whole
  · exact ((front _).append (by decide)).append (back _)
  · exact (OneLine.append (by decide) (oneLine_zeros _)).append all

theorem oneLine_scientific (inside : '\n' ∉ digits) (point : Int) :
    OneLine (Layout.scientific digits point) := by
  have whole {mantissa : String} (front : OneLine mantissa) :
      OneLine (mantissa ++ "e" ++ (if point - 1 < 0 then "-" else "+") ++
        toString (point - 1).natAbs) := by
    refine OneLine.append (OneLine.append (front.append (by decide)) ?_) (oneLine_nat _)
    split_ifs <;> decide
  rcases digits with _ | ⟨d, _ | ⟨e, rest⟩⟩
  · exact whole (by decide)
  · exact whole (oneLine_char fun same => inside (by simp [same]))
  · rw [List.mem_cons, not_or] at inside
    exact whole (((oneLine_char (Ne.symm inside.1)).append (by decide)).append
      (oneLine_ofList.mpr inside.2))

theorem oneLine_render {l : Layout} (whole : OneLine l.whole) (x : Binary64) :
    OneLine (l.render x) := by
  have finite : OneLine (l.finite x) := by
    simp only [Layout.finite]
    split_ifs
    · exact OneLine.append (by decide) whole
    · exact oneLine_positional whole (oneLine_nat _) _
    · exact oneLine_scientific (oneLine_nat _) _
  have sign : OneLine (if x.isNegative then "-" else "") := by split_ifs <;> decide
  have size : OneLine (if x.isInfinite then "inf" else l.finite x) := by
    split_ifs
    · decide
    · exact finite
  rw [Layout.render]
  split
  · decide
  · exact sign.append size

end Decimal

theorem oneLine_position (p : Position) : OneLine p.render :=
  ((oneLine_nat _).append (by decide)).append (oneLine_nat _)

theorem oneLine_token (t : Token) : OneLine t.render := by
  cases t with
  | terminal => decide
  | unknownCharacter c =>
    exact (OneLine.append (by decide) (oneLine_quoteChar c)).append (by decide)
  | identifier value | string value =>
    exact (OneLine.append (by decide) (oneLine_quoteString value)).append (by decide)
  | number value =>
    exact (OneLine.append (by decide) (Decimal.oneLine_render (by decide) value)).append (by decide)
  | symbol s => cases s <;> decide

theorem oneLine_located (t : Located) : OneLine t.render :=
  ((oneLine_token t.token).append (by decide)).append (oneLine_position t.position)

namespace Json

theorem oneLine_escape (c : Char) : OneLine (escapeChar c) := by
  rw [escapeChar]
  split_ifs with quote back bell tab feed form return_ control
  · decide
  · decide
  · decide
  · decide
  · decide
  · decide
  · decide
  · refine OneLine.append (by decide) (oneLine_ofList.mpr ?_)
    simp only [List.mem_cons, List.not_mem_nil, or_false, not_or]
    exact ⟨(digitChar_ne_feed _ (by omega)).symm, (digitChar_ne_feed _ (by omega)).symm⟩
  · exact oneLine_char feed

theorem oneLine_quote (s : String) : OneLine (quote s) :=
  (OneLine.foldl (by decide) fun c _ => oneLine_escape c).append (by decide)

mutual

theorem oneLine_compact : ∀ j : Json, OneLine j.compact
  | null => by rw [compact]; decide
  | bool true => by rw [compact]; decide
  | bool false => by rw [compact]; decide
  | nat value => by rw [compact]; exact oneLine_nat value
  | float value => by rw [compact]; exact Decimal.oneLine_render (by decide) value
  | string value => by rw [compact]; exact oneLine_quote value
  | array items => by
    rw [compact]
    exact (OneLine.append (by decide)
      (OneLine.intercalate (by decide) (oneLine_items items))).append (by decide)
  | object fields => by
    rw [compact]
    exact (OneLine.append (by decide)
      (OneLine.intercalate (by decide) (oneLine_fields fields))).append (by decide)

theorem oneLine_items : ∀ items : List Json, ∀ part ∈ compactItems items, OneLine part
  | [] => by simp [compactItems]
  | item :: rest => by
    rw [compactItems]
    exact List.forall_mem_cons.mpr ⟨oneLine_compact item, oneLine_items rest⟩

theorem oneLine_fields : ∀ fields : List (String × Json), ∀ part ∈ compactFields fields, OneLine part
  | [] => by simp [compactFields]
  | (name, value) :: rest => by
    rw [compactFields]
    exact List.forall_mem_cons.mpr
      ⟨((oneLine_quote name).append (by decide)).append (oneLine_compact value),
        oneLine_fields rest⟩

end

end Json

end DemandLex
