import DemandLex.Decimal.Layout
import DemandLex.Proofs.Decimal.NumeralText
import DemandLex.Proofs.Decimal.Shortest
import DemandLex.Proofs.Json.Grammar

/-! Whole numbers and doubles as JSON text: each is written as a number that is read as itself. -/

namespace DemandLex.JsonText

open Grammar Binary64 Decimal

/-- A number without a sign, its text and the double that it is read as. -/
structure Number.Reads (n : Number) (text : String) (x : Binary64) : Prop where
  positive : n.negative = false
  chars : n.chars = text.toList
  value : n.value = x

/-- Digits, one or more, without a zero in front of others. -/
structure Leads (digits : List Char) : Prop where
  nonempty : digits ≠ []
  inside : ∀ c ∈ digits, isDigit c = true
  leading : ∀ later, digits = '0' :: later → later = []

/-- The parts with these digits before and behind the point, and with this exponent. There is no
point without digits behind it. -/
def partsOf (whole fraction : List Char) (exponent : Option ℤ) : Parts where
  whole := whole
  fraction := if fraction = [] then none else some fraction
  exponent := exponent.map fun e =>
    ⟨'e', some (if e < 0 then '-' else '+'), (toString e.natAbs).toList⟩

variable {whole fraction : List Char} {exponent : Option ℤ} {x : Binary64}

theorem fraction_partsOf : (partsOf whole fraction exponent).fraction.getD [] = fraction := by
  by_cases empty : fraction = [] <;> simp [partsOf, empty]

theorem digits_partsOf : (partsOf whole fraction exponent).digits = whole ++ fraction := by
  rw [Parts.digits, fraction_partsOf]
  rfl

theorem power_partsOf :
    (partsOf whole fraction exponent).power = exponent.getD 0 - fraction.length := by
  rw [Parts.power, fraction_partsOf]
  cases exponent with
  | none => rfl
  | some e =>
    have size := value_toString e.natAbs
    have sign := signed_natAbs e
    by_cases negative : e < 0 <;> simp_all [partsOf, Parts.exponentDigits, -Nat.toString_eq_repr]

theorem formed_partsOf (leads : Leads whole) (inside : ∀ c ∈ fraction, isDigit c = true) :
    (partsOf whole fraction exponent).WellFormed where
  nonempty := leads.nonempty
  whole := leads.inside
  fraction digits written := by
    simp only [partsOf, Option.mem_def, Option.ite_none_left_eq_some] at written
    exact Option.some.inj written.2 ▸ inside
  exponent e written := by
    obtain ⟨e, -, rfl⟩ := Option.map_eq_some_iff.mp written
    refine ⟨rfl, ?_, isDigit_of_mem_toString e.natAbs⟩
    rintro _ ⟨⟩
    split <;> rfl

theorem exists_reads {text : String} (leads : Leads whole)
    (inside : ∀ c ∈ fraction, isDigit c = true)
    (bounded : (partsOf whole fraction exponent).Bounded)
    (chars : (partsOf whole fraction exponent).chars = text.toList)
    (nearest : x.IsNearest (value (whole ++ fraction) * 10 ^ (exponent.getD 0 - fraction.length))) :
    ∃ n : Number, n.Reads text x := by
  let n : Number := {
    negative := false
    parts := partsOf whole fraction exponent
    formed := formed_partsOf leads inside
    leading := leads.leading
    fraction := fun digits written => by
      simp only [partsOf, Option.mem_def, Option.ite_none_left_eq_some] at written
      exact Option.some.inj written.2 ▸ written.1
    exponent := fun e written => by
      obtain ⟨e, -, rfl⟩ := Option.map_eq_some_iff.mp written
      exact toList_toString_ne_nil e.natAbs }
  have read := Parts.decimal_isNearest n.formed bounded
  rw [Parts.absolute, digits_partsOf, power_partsOf] at read
  exact ⟨n, rfl, chars, read.unique nearest⟩

section Texts
variable {digits : List Char} {power : ℤ}

theorem leading_of_head (head : digits.head? ≠ some '0') (later : List Char)
    (same : digits = '0' :: later) : later = [] := by
  rw [same] at head
  exact absurd rfl head

theorem leads_zero : Leads ['0'] :=
  ⟨List.cons_ne_nil _ _, List.all_eq_true.mp rfl, fun _ same => (List.cons.inj same).2.symm⟩

theorem leads_toString (n : Nat) : Leads (toString n).toList := by
  by_cases zero : n = 0
  · exact zero ▸ leads_zero
  exact ⟨toList_toString_ne_nil n, isDigit_of_mem_toString n, leading_of_head (head_toString zero)⟩

theorem exists_reads_nat (n : Nat) : ∃ number : Number, number.Reads (toString n) (ofNat n) := by
  have bounded : (partsOf (toString n).toList [] none).Bounded := by
    refine Or.inr ⟨(by decide : 0 < 0x80000000), (by decide : 0 ≤ 0x80000000), ?_⟩
    rw [power_partsOf]
    decide
  have inside : ∀ c ∈ ([] : List Char), isDigit c = true := nofun
  refine exists_reads (leads_toString n) inside bounded ?_ ?_
  · simp [partsOf, Parts.chars]
  · simpa [value_toString, -Nat.toString_eq_repr] using ofNat_isNearest n

theorem exists_reads_point {text : String} (leads : Leads whole) (nonempty : fraction ≠ [])
    (inside : ∀ c ∈ fraction, isDigit c = true) (few : (whole ++ fraction).length ≤ 65212)
    (chars : text.toList = whole ++ '.' :: fraction)
    (nearest : x.IsNearest (value (whole ++ fraction) * 10 ^ (-fraction.length : ℤ))) :
    ∃ n : Number, n.Reads text x := by
  have bounded : (partsOf whole fraction none).Bounded := Or.inl (digits_partsOf ▸ few)
  refine exists_reads leads inside bounded ?_ ?_
  · simp [partsOf, Parts.chars, nonempty, chars]
  · rwa [Option.getD_none, zero_sub]

theorem exists_reads_scientific (leads : Leads digits) (few : digits.length ≤ 65212)
    (nearest : x.IsNearest (value digits * 10 ^ power)) :
    ∃ n : Number, n.Reads (Layout.scientific digits (digits.length + power)) x := by
  obtain ⟨d, later, rfl⟩ := List.exists_cons_of_ne_nil leads.nonempty
  have first : Leads [d] := ⟨List.cons_ne_nil _ _, fun c member =>
    leads.inside c (List.mem_cons.mpr (Or.inl (List.mem_singleton.mp member))),
      fun _ same => (List.cons.inj same).2.symm⟩
  have bounded : (partsOf [d] later (some ((d :: later).length + power - 1))).Bounded :=
    Or.inl (digits_partsOf ▸ few)
  refine exists_reads first (fun c member => leads.inside c (List.mem_cons_of_mem d member)) bounded
    ?_ ?_
  · unfold Layout.scientific
    generalize ((d :: later).length + power - 1 : ℤ) = e
    cases later <;> by_cases negative : e < 0 <;>
      simp [partsOf, Parts.chars, Exponent.chars, negative]
  · have shift : ((d :: later).length + power - 1 - later.length : ℤ) = power := by
      rw [List.length_cons]
      push_cast
      ring
    rwa [Option.getD_some, shift]

theorem isDigit_of_mem_zeros (k : Nat) : ∀ c ∈ List.replicate k '0', isDigit c = true := by
  intro c member
  rw [List.eq_of_mem_replicate member]
  rfl

theorem exists_reads_zeros (leads : Leads digits) (head : digits.head? ≠ some '0') {k : Nat}
    (few : digits.length + k ≤ 65211) (nearest : x.IsNearest (value digits * 10 ^ (k : ℤ))) :
    ∃ n : Number, n.Reads (String.ofList digits ++ zeros k ++ ".0") x := by
  have front : Leads (digits ++ List.replicate k '0') := by
    refine ⟨by simp [leads.nonempty], fun c member => ?_, leading_of_head ?_⟩
    · exact (List.mem_append.mp member).elim (leads.inside c) (isDigit_of_mem_zeros k c)
    · simp [List.head?_append_of_ne_nil _ leads.nonempty, head]
  have back : ∀ c ∈ ['0'], isDigit c = true := List.all_eq_true.mp rfl
  have zero : value ['0'] = 0 := by decide
  have same : (value (digits ++ List.replicate k '0' ++ ['0']) * 10 ^ (-['0'].length : ℤ) : ℚ) =
      value digits * 10 ^ (k : ℤ) := by
    rw [value_append, value_append, value_replicate, zero, List.length_replicate,
      List.length_singleton, zpow_natCast]
    push_cast
    ring
  refine exists_reads_point front (List.cons_ne_nil _ _) back ?_ ?_ (same ▸ nearest)
  · simp
    omega
  · simp [zeros]

theorem exists_reads_among (leads : Leads digits) (head : digits.head? ≠ some '0') {point : Nat}
    (inner : 0 < point) (more : point < digits.length) (few : digits.length ≤ 65212)
    (nearest : x.IsNearest (value digits * 10 ^ (-(digits.length - point : Nat) : ℤ))) :
    ∃ n : Number, n.Reads
      (String.ofList (digits.take point) ++ "." ++ String.ofList (digits.drop point)) x := by
  have front : Leads (digits.take point) := by
    obtain ⟨d, later, rfl⟩ := List.exists_cons_of_ne_nil leads.nonempty
    obtain ⟨m, rfl⟩ := Nat.exists_eq_add_one_of_ne_zero inner.ne'
    exact ⟨List.cons_ne_nil _ _, fun c member => leads.inside c (List.mem_of_mem_take member),
      leading_of_head head⟩
  have back : ∀ c ∈ digits.drop point, isDigit c = true :=
    fun c member => leads.inside c (List.mem_of_mem_drop member)
  refine exists_reads_point front ?_ back ?_ (by simp) ?_
  · rw [Ne, List.drop_eq_nil_iff]
    omega
  · rwa [List.take_append_drop]
  · rwa [List.take_append_drop, List.length_drop]

theorem exists_reads_behind (leads : Leads digits) {k : Nat} (few : k + digits.length ≤ 65211)
    (nearest : x.IsNearest (value digits * 10 ^ (-(k + digits.length : Nat) : ℤ))) :
    ∃ n : Number, n.Reads ("0." ++ zeros k ++ String.ofList digits) x := by
  have back : ∀ c ∈ List.replicate k '0' ++ digits, isDigit c = true := fun c member =>
    (List.mem_append.mp member).elim (isDigit_of_mem_zeros k c) (leads.inside c)
  have same : value (['0'] ++ (List.replicate k '0' ++ digits)) = value digits := by
    rw [value_append, value_append, value_replicate]
    simp [value, digitValue]
  refine exists_reads_point leads_zero ?_ back ?_ (by simp [zeros]) ?_
  · simp [leads.nonempty]
  · simp
    omega
  · rwa [same, List.length_append, List.length_replicate]

theorem exists_reads_positional (leads : Leads digits) (head : digits.head? ≠ some '0')
    (few : digits.length ≤ 1416) (low : -4 ≤ digits.length + power)
    (high : digits.length + power ≤ 16) (nearest : x.IsNearest (value digits * 10 ^ power)) :
    ∃ n : Number, n.Reads (Layout.json.positional digits power) x := by
  rw [Layout.positional]
  split
  · next whole =>
    obtain ⟨k, rfl⟩ := Int.eq_ofNat_of_zero_le whole
    exact exists_reads_zeros leads head (by omega) nearest
  · next small =>
    obtain ⟨k, rfl⟩ : ∃ k : Nat, power = -k := ⟨power.natAbs, by omega⟩
    split
    · next among =>
      obtain ⟨point, count⟩ := Int.eq_ofNat_of_zero_le among.le
      obtain rfl : k = digits.length - point := by omega
      rw [count]
      exact exists_reads_among leads head (by omega) (by omega) (by omega) nearest
    · next behind =>
      obtain ⟨lead, count⟩ := Int.eq_ofNat_of_zero_le (Int.neg_nonneg_of_nonpos (not_lt.mp behind))
      obtain rfl : k = lead + digits.length := by omega
      rw [count]
      exact exists_reads_behind leads (by omega) nearest

theorem isPositional_json {point : ℤ} :
    Layout.json.isPositional point = true ↔ -4 ≤ point ∧ point ≤ 16 := by
  simp [Layout.isPositional, Layout.json]

theorem exists_reads_float (positive : x.isNegative = false) (finite : x.isFinite = true) :
    ∃ n : Number, n.Reads (Layout.json.render x) x := by
  have below : x.magnitude < infinityBits := by simpa [isFinite] using finite
  have number : x.isNaN = false := isNaN_eq_false.mpr below.le
  have bounded : x.isInfinite = false := beq_eq_false_iff_ne.mpr below.ne
  have text : Layout.json.render x = Layout.json.finite x := by
    simp [Layout.render, number, bounded, positive]
  rw [text, Layout.finite]
  split
  · next zero =>
    have same : x = ofMagnitude false 0 := by
      rw [← ofMagnitude_magnitude positive, beq_iff_eq.mp zero]
    have nearest : x.IsNearest (value (['0'] ++ ['0']) * 10 ^ (-['0'].length : ℤ)) := by
      have none : value (['0'] ++ ['0']) = 0 := by decide
      rw [none, Nat.cast_zero, zero_mul, same]
      exact zero_isNearest
    exact exists_reads_point leads_zero (List.cons_ne_nil _ _) (List.all_eq_true.mp rfl)
      (by decide) (by simp [Layout.json]) nearest
  · next nonzero =>
    have apart : x.magnitude ≠ 0 := by simpa [isZero] using nonzero
    have nearest := shortest_isNearest .even positive below apart
    have digits := digits_shortest_ne_zero .even positive below apart
    have few := length_digits_shortest .even positive below apart le_rfl
    rw [Scientific.absolute, ← value_toString (shortest .even x).digits] at nearest
    have leads := leads_toString (shortest .even x).digits
    dsimp only
    split
    · next inside =>
      obtain ⟨low, high⟩ := isPositional_json.mp inside
      exact exists_reads_positional leads (head_toString digits) few low high nearest
    · exact exists_reads_scientific leads (few.trans (by decide)) nearest

end Texts

end DemandLex.JsonText
