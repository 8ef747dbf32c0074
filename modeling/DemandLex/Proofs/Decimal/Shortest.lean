import DemandLex.Decimal.Shortest
import DemandLex.Proofs.Decimal.Operations

/-! The shortest decimal of a double reads back as the double: it lies among the numbers that are
rounded to it. -/

namespace DemandLex

namespace Binary64

variable {x : Binary64} {v : ℚ} {e r : Nat}

theorem ofMagnitude_magnitude (positive : x.isNegative = false) :
    ofMagnitude false x.magnitude = x := by
  have bits : (ofMagnitude false x.magnitude).bits = x.bits := by
    rw [← toNat_bits positive]
    exact UInt64.ofNat_toNat
  exact congrArg Binary64.mk bits

theorem significand_exponent (places : x.magnitude = e * leadingBit + r)
    (normal : e = 0 ∨ leadingBit ≤ r) (below : r < 2 * leadingBit) :
    x.significand = r ∧ x.exponent = (e : ℤ) - 1074 := by
  unfold significand exponent
  rw [places]
  unfold leadingBit at *
  have rest : (e * 0x10000000000000 + r) % 0x10000000000000 =
      if e * 0x10000000000000 + r < 0x10000000000000 then r else r - 0x10000000000000 := by
    split <;> omega
  constructor
  · dsimp only
    split <;> omega
  · split <;> omega

theorem quarters (e : Nat) : (2 : ℚ) ^ (e - 1074 : ℤ) = 4 * 2 ^ (e - 1076 : ℤ) := by
  have sum : (e - 1074 : ℤ) = 2 + (e - 1076) := by ring
  rw [sum, zpow_add₀ two_ne_zero]
  norm_num

/-- The gap below a number, in quarters of its last places. Below a power of two the places are half
as large. -/
theorem absoluteOf_before {m : Nat} (places : m + 1 = e * leadingBit + r)
    (normal : e = 0 ∨ leadingBit ≤ r) (below : r < 2 * leadingBit) : absoluteOf m =
      (4 * r - 2 * (if r = leadingBit ∧ e ≠ 0 then 1 else 2 : Nat)) * 2 ^ (e - 1076 : ℤ) := by
  split
  · next narrow =>
    obtain ⟨rfl, positive⟩ := narrow
    obtain ⟨e, rfl⟩ := Nat.exists_eq_add_one_of_ne_zero positive
    have before : m = e * leadingBit + (2 * leadingBit - 1) := by
      unfold leadingBit at *
      omega
    have half : (2 : ℚ) ^ (e - 1074 : ℤ) = 2 * 2 ^ ((e + 1 : Nat) - 1076 : ℤ) := by
      rw [← zpow_one_add₀ two_ne_zero]
      congr 1
      push_cast
      ring
    rw [before, absoluteOf_multiple (Or.inr (by decide)) (Nat.sub_le _ _), half,
      Nat.cast_pred (by decide)]
    push_cast
    ring
  · next wide =>
    obtain ⟨r, rfl⟩ : ∃ r', r = r' + 1 := Nat.exists_eq_add_one_of_ne_zero fun zero => by
      unfold leadingBit at *
      omega
    have apart : e = 0 ∨ leadingBit ≤ r := by omega
    have before : m = e * leadingBit + r := Nat.succ.inj places
    rw [before, absoluteOf_multiple apart (by omega), quarters]
    push_cast
    ring

theorem le_exponent (x : Binary64) : -1074 ≤ x.exponent := by
  rw [exponent]
  unfold leadingBit
  split <;> omega

end Binary64

open Binary64

namespace Decimal

namespace Rounding

def Inside (r : Rounding) (v : ℚ) : Prop :=
  if r.closed then r.low * 2 ^ r.quarter ≤ v ∧ v ≤ r.high * 2 ^ r.quarter
  else r.low * 2 ^ r.quarter < v ∧ v < r.high * 2 ^ r.quarter

variable {x : Binary64} {r : Rounding} {v : ℚ} {tie : Tie} {power : ℤ} {digits : Nat}

theorem Inside.low (inside : r.Inside v) : r.low * 2 ^ r.quarter < v ∨
    (r.low * 2 ^ r.quarter = v ∧ r.closed = true) := by
  rw [Inside] at inside
  split at inside
  · next closed => exact inside.1.lt_or_eq.imp_right fun same => ⟨same, closed⟩
  · exact Or.inl inside.1

theorem Inside.high (inside : r.Inside v) : v < r.high * 2 ^ r.quarter ∨
    (v = r.high * 2 ^ r.quarter ∧ r.closed = true) := by
  rw [Inside] at inside
  split at inside
  · next closed => exact inside.2.lt_or_eq.imp_right fun same => ⟨same, closed⟩
  · exact Or.inl inside.2

theorem ofBinary_eq {e r : Nat} (significand : x.significand = r)
    (exponent : x.exponent = e - 1074) : ofBinary x =
      { low := 4 * r - (if r = leadingBit ∧ e ≠ 0 then 1 else 2)
        middle := 4 * r
        high := 4 * r + 2
        quarter := e - 1076
        closed := r % 2 == 0 } := by
  have quarter : (e - 1074 - 2 : ℤ) = e - 1076 := by ring
  simp [ofBinary, significand, exponent, quarter]

/-- The ends of the interval of a double lie halfway to its neighbours, and they belong to it if
its last bit is even. -/
theorem ofBinary_halfway {m : Nat} (next : x.magnitude = m + 1) :
    2 * ((ofBinary x).low * 2 ^ (ofBinary x).quarter) = absoluteOf m + absoluteOf (m + 1) ∧
      2 * ((ofBinary x).high * 2 ^ (ofBinary x).quarter) =
        absoluteOf (m + 1) + absoluteOf (m + 2) ∧
      ((ofBinary x).closed = true → (m + 1) % 2 = 0) := by
  obtain ⟨e, r, places, normal, below⟩ := exists_multiple (m + 1)
  obtain ⟨significand, exponent⟩ := significand_exponent (next.trans places) normal below
  have own : absoluteOf (m + 1) = 4 * r * 2 ^ (e - 1076 : ℤ) := by
    rw [places, absoluteOf_multiple normal below.le, quarters]
    ring
  have after : absoluteOf (m + 2) = 4 * (r + 1) * 2 ^ (e - 1076 : ℤ) := by
    have sum : m + 2 = e * leadingBit + (r + 1) := congrArg Nat.succ places
    rw [sum, absoluteOf_multiple (normal.imp_right Nat.le_succ_of_le) below, quarters]
    push_cast
    ring
  rw [ofBinary_eq significand exponent, own, after, absoluteOf_before places normal below]
  refine ⟨?_, ?_, fun closed => ?_⟩
  · have enough : (if r = leadingBit ∧ e ≠ 0 then 1 else 2) ≤ 4 * r := by
      unfold leadingBit at *
      split <;> omega
    rw [Nat.cast_sub enough]
    push_cast
    ring
  · push_cast
    ring
  · have even : r % 2 = 0 := by simpa using closed
    unfold leadingBit at places
    omega

theorem Inside.isNearest (inside : (ofBinary x).Inside v) (positive : x.isNegative = false)
    (finite : x.magnitude < infinityBits) (nonzero : x.magnitude ≠ 0) : x.IsNearest v := by
  obtain ⟨m, next⟩ := Nat.exists_eq_succ_of_ne_zero nonzero
  rw [Nat.succ_eq_add_one] at next
  obtain ⟨low, high, even⟩ := ofBinary_halfway next
  rw [next] at finite
  have closest : Closest (m + 1) v := by
    rcases le_total (absoluteOf (m + 1)) v with lower | upper
    · refine closest_low finite lower ?_
      rcases inside.high with less | ⟨tie, closed⟩
      · exact Or.inl (by linarith)
      · exact Or.inr ⟨by linarith, even closed⟩
    · refine closest_high (Nat.lt_of_succ_lt finite) upper ?_
      rcases inside.low with less | ⟨tie, closed⟩
      · exact Or.inl (by linarith)
      · exact Or.inr ⟨by linarith, even closed⟩
  rw [← ofMagnitude_magnitude positive, next]
  exact closest.isNearest

theorem pow_toNat {b : ℚ} (nonzero : b ≠ 0) (k : ℤ) : b ^ k.toNat = b ^ k * b ^ (-k).toNat := by
  rw [← zpow_natCast, ← zpow_natCast, ← zpow_add₀ nonzero]
  congr 1
  omega

/-- Quarters of a last place and units of a power of ten, on one scale. -/
theorem factors_eq (r : Rounding) (power : ℤ) : ∃ scale : ℚ, 0 < scale ∧
    (r.factors power).1 = 2 ^ r.quarter * scale ∧ (r.factors power).2 = 10 ^ power * scale := by
  refine ⟨2 ^ (-r.quarter).toNat * 10 ^ (-power).toNat, by positivity, ?_, ?_⟩
  · have two := pow_toNat two_ne_zero r.quarter
    simp only [factors, Nat.pow_eq, Nat.cast_mul, Nat.cast_pow, Nat.cast_ofNat, two]
    ring
  · have ten : (10 : ℚ) ^ power.toNat = _ := pow_toNat (by norm_num) power
    simp only [factors, Nat.pow_eq, Nat.cast_mul, Nat.cast_pow, Nat.cast_ofNat, ten]
    ring

theorem inside_iff : r.Inside (digits * 10 ^ power) ↔
    if r.closed then r.low * (r.factors power).1 ≤ digits * (r.factors power).2 ∧
      digits * (r.factors power).2 ≤ r.high * (r.factors power).1
    else r.low * (r.factors power).1 < digits * (r.factors power).2 ∧
      digits * (r.factors power).2 < r.high * (r.factors power).1 := by
  obtain ⟨scale, positive, unit, grid⟩ := r.factors_eq power
  simp only [Inside, ← Nat.cast_le (α := ℚ), ← Nat.cast_lt (α := ℚ), Nat.cast_mul, unit, grid,
    ← mul_assoc, mul_le_mul_iff_of_pos_right positive, mul_lt_mul_iff_of_pos_right positive]

/-- What is found is one of the two neighbours of the middle, and it lies in the interval. -/
theorem nearest?_cases (found : r.nearest? tie power = some digits) :
    let (unit, grid) := r.factors power
    let below := r.middle * unit / grid
    (digits = below ∧
        if r.closed then r.low * unit ≤ below * grid else r.low * unit < below * grid) ∨
      (digits = below + 1 ∧
        if r.closed then (below + 1) * grid ≤ r.high * unit
        else (below + 1) * grid < r.high * unit) := by
  rw [nearest?] at found
  dsimp only at found ⊢
  generalize r.middle * (r.factors power).1 / (r.factors power).2 = below at *
  by_cases lowHit : if r.closed then r.low * (r.factors power).1 ≤ below * (r.factors power).2
    else r.low * (r.factors power).1 < below * (r.factors power).2
  · rw [if_pos lowHit] at found
    by_cases highHit : if r.closed then
        (below + 1) * (r.factors power).2 ≤ r.high * (r.factors power).1
      else (below + 1) * (r.factors power).2 < r.high * (r.factors power).1
    · have either : digits = below ∨ digits = below + 1 := by
        grind
      exact either.imp (⟨·, lowHit⟩) (⟨·, highHit⟩)
    · rw [if_neg highHit] at found
      exact Or.inl ⟨(Option.some.inj found).symm, lowHit⟩
  · rw [if_neg lowHit, Option.ite_none_right_eq_some] at found
    exact Or.inr ⟨(Option.some.inj found.2).symm, found.1⟩

theorem nearest?_inside (low : r.low < r.middle) (high : r.middle < r.high)
    (found : r.nearest? tie power = some digits) : r.Inside (digits * 10 ^ power) := by
  obtain ⟨unitPos, gridPos⟩ : 0 < (r.factors power).1 ∧ 0 < (r.factors power).2 := by
    simp [factors]
  have cases := nearest?_cases found
  dsimp only at cases
  rw [inside_iff]
  generalize (r.factors power).1 = unit at *
  generalize (r.factors power).2 = grid at *
  have start : r.low * unit < r.middle * unit := Nat.mul_lt_mul_of_pos_right low unitPos
  have stop : r.middle * unit < r.high * unit := Nat.mul_lt_mul_of_pos_right high unitPos
  have below : r.middle * unit / grid * grid ≤ r.middle * unit := Nat.div_mul_le_self _ _
  have above : r.middle * unit < (r.middle * unit / grid + 1) * grid := by
    rw [Nat.mul_comm _ grid]
    exact Nat.lt_mul_div_succ _ gridPos
  by_cases closed : r.closed = true
  · simp only [if_pos closed] at cases ⊢
    rcases cases with ⟨rfl, hit⟩ | ⟨rfl, hit⟩
    · exact ⟨hit, (below.trans_lt stop).le⟩
    · exact ⟨(start.trans above).le, hit⟩
  · simp only [if_neg closed] at cases ⊢
    rcases cases with ⟨rfl, hit⟩ | ⟨rfl, hit⟩
    · exact ⟨hit, below.trans_lt stop⟩
    · exact ⟨start.trans above, hit⟩

end Rounding

def Scientific.absolute (s : Scientific) : ℚ := s.digits * 10 ^ s.power

variable {x : Binary64} {r : Rounding} {tie : Tie} {s : Scientific} {tries : Nat} {power : ℤ}

theorem Rounding.search_inside (low : r.low < r.middle) (high : r.middle < r.high)
    (found : r.search tie tries power = some s) : r.Inside s.absolute ∧ power - tries < s.power := by
  induction tries generalizing power with
  | zero => cases found
  | succ tries ih =>
    rw [search] at found
    split at found
    · next hit =>
      cases found
      exact ⟨nearest?_inside low high hit, by push_cast; omega⟩
    · obtain ⟨inside, fewer⟩ := ih found
      exact ⟨inside, by push_cast; omega⟩

theorem Rounding.le_settle (r : Rounding) (tries : Nat) (guess : ℤ) :
    guess ≤ r.settle tries guess := by
  induction tries generalizing guess with
  | zero => exact le_rfl
  | succ tries ih =>
    rw [settle]
    dsimp only
    split
    · exact (Int.le_add_one le_rfl).trans (ih _)
    · exact le_rfl

theorem Scientific.absolute_trim (s : Scientific) : s.trim.absolute = s.absolute := by
  fun_induction trim s with
  | case1 s more ih =>
    have tens : (s.digits : ℚ) = (s.digits / 10 : Nat) * 10 := by
      have whole : s.digits = s.digits / 10 * 10 := by omega
      exact_mod_cast whole
    rw [ih, absolute, absolute, tens, zpow_add_one₀ (by norm_num)]
    ring
  | case2 => rfl

theorem Scientific.le_power_trim (s : Scientific) : s.power ≤ s.trim.power := by
  fun_induction trim s with
  | case1 s more ih => exact (Int.le_add_one le_rfl).trans ih
  | case2 => rfl

theorem absolute_exact (x : Binary64) : (exact x).absolute = x.absolute := by
  rw [exact, Binary64.absolute]
  cases x.exponent with
  | ofNat q => simp [Scientific.absolute]
  | negSucc q =>
    have tens : (10 : ℚ) ^ (-((q : ℤ) + 1)) = (2 ^ (q + 1))⁻¹ * (5 ^ (q + 1))⁻¹ := by
      rw [← mul_inv, ← mul_pow, zpow_neg]
      norm_cast
    rw [Scientific.absolute, zpow_negSucc]
    dsimp only
    rw [tens, Nat.pow_eq, Nat.cast_mul, Nat.cast_pow]
    field_simp
    norm_num

theorem le_power_exact (x : Binary64) : -1074 ≤ (exact x).power := by
  have lowest := x.le_exponent
  rw [exact]
  cases exponent : x.exponent with
  | ofNat q => exact (by decide : (-1074 : ℤ) ≤ 0)
  | negSucc q =>
    dsimp only
    omega

theorem ofBinary_middle (nonzero : x.magnitude ≠ 0) :
    (Rounding.ofBinary x).low < (Rounding.ofBinary x).middle ∧
      (Rounding.ofBinary x).middle < (Rounding.ofBinary x).high := by
  obtain ⟨e, r, places, normal, below⟩ := exists_multiple x.magnitude
  obtain ⟨significand, exponent⟩ := significand_exponent places normal below
  have positive : 0 < r := Nat.pos_of_ne_zero fun zero => by
    unfold leadingBit at *
    omega
  rw [Rounding.ofBinary_eq significand exponent]
  constructor
  · dsimp only
    split <;> omega
  · exact Nat.lt_add_of_pos_right two_pos

theorem absolute_eq_middle (x : Binary64) :
    x.absolute = (Rounding.ofBinary x).middle * 2 ^ (Rounding.ofBinary x).quarter := by
  have quarters : x.exponent = 2 + (x.exponent - 2) := by ring
  rw [Binary64.absolute, quarters, zpow_add₀ two_ne_zero, Rounding.ofBinary]
  push_cast
  ring

theorem absolute_inside (nonzero : x.magnitude ≠ 0) : (Rounding.ofBinary x).Inside x.absolute := by
  obtain ⟨low, high⟩ := ofBinary_middle nonzero
  have step : (0 : ℚ) < 2 ^ (Rounding.ofBinary x).quarter := by positivity
  have above : ((Rounding.ofBinary x).low : ℚ) * 2 ^ (Rounding.ofBinary x).quarter < x.absolute :=
    absolute_eq_middle x ▸ mul_lt_mul_of_pos_right (by exact_mod_cast low) step
  have below : x.absolute < (Rounding.ofBinary x).high * 2 ^ (Rounding.ofBinary x).quarter :=
    absolute_eq_middle x ▸ mul_lt_mul_of_pos_right (by exact_mod_cast high) step
  rw [Rounding.Inside]
  split
  · exact ⟨above.le, below.le⟩
  · exact ⟨above, below⟩

theorem le_firstPower (x : Binary64) : -326 ≤ (Rounding.ofBinary x).firstPower := by
  have lowest := x.le_exponent
  refine le_trans ?_ (Rounding.le_settle _ _ _)
  rw [Rounding.ofBinary]
  dsimp only
  omega

theorem shortest_inside (tie : Tie) (nonzero : x.magnitude ≠ 0) :
    (Rounding.ofBinary x).Inside (shortest tie x).absolute := by
  obtain ⟨low, high⟩ := ofBinary_middle nonzero
  rw [shortest, Scientific.absolute_trim]
  cases found : (Rounding.ofBinary x).search tie 17 (Rounding.ofBinary x).firstPower with
  | none =>
    rw [Option.getD_none, absolute_exact]
    exact absolute_inside nonzero
  | some s => exact (Rounding.search_inside low high found).1

theorem le_power_shortest (tie : Tie) (nonzero : x.magnitude ≠ 0) :
    -1074 ≤ (shortest tie x).power := by
  obtain ⟨low, high⟩ := ofBinary_middle nonzero
  have start := le_firstPower x
  rw [shortest]
  refine le_trans ?_ (Scientific.le_power_trim _)
  cases found : (Rounding.ofBinary x).search tie 17 (Rounding.ofBinary x).firstPower with
  | none => exact le_power_exact x
  | some s =>
    have above := (Rounding.search_inside low high found).2
    rw [Option.getD_some]
    omega

theorem shortest_isNearest (tie : Tie) (positive : x.isNegative = false)
    (finite : x.magnitude < infinityBits) (nonzero : x.magnitude ≠ 0) :
    x.IsNearest (shortest tie x).absolute :=
  (shortest_inside tie nonzero).isNearest positive finite nonzero

theorem digits_shortest_ne_zero (tie : Tie) (positive : x.isNegative = false)
    (finite : x.magnitude < infinityBits) (nonzero : x.magnitude ≠ 0) :
    (shortest tie x).digits ≠ 0 := by
  intro none
  have nearest := shortest_isNearest tie positive finite nonzero
  rw [Scientific.absolute, none, Nat.cast_zero, zero_mul, ← absoluteOf_zero] at nearest
  exact nonzero (nearest.closest.unique (closest_self (Nat.zero_le _)))

/-- A generous bound on the digits, as no number has more than 309 of them before its point. -/
theorem length_digits_shortest (tie : Tie) (positive : x.isNegative = false)
    (finite : x.magnitude < infinityBits) (nonzero : x.magnitude ≠ 0) {count : Nat}
    (many : 1416 ≤ count) : (toString (shortest tie x).digits).toList.length ≤ count := by
  have lowest : (shortest tie x).digits * 10 ^ (-1074 : ℤ) ≤ (shortest tie x).absolute := by
    rw [Scientific.absolute]
    gcongr
    · norm_num
    · exact le_power_shortest tie nonzero
  have highest : (shortest tie x).absolute < 2 ^ 1024 := by
    by_contra large
    have nearest := shortest_isNearest tie positive finite nonzero
    rw [nearest.unique (infinity_isNearest (not_lt.mp large)), infinity,
      magnitude_ofMagnitude le_rfl] at finite
    exact finite.false
  have tens : (2 : ℚ) ^ 1024 ≤ 10 ^ (count - 1074 : ℤ) :=
    calc (2 : ℚ) ^ 1024
        ≤ 2 ^ (3 * 342) := pow_le_pow_right₀ one_le_two (by decide)
      _ ≤ 10 ^ 342 := two_pow_le_ten_pow 342
      _ ≤ 10 ^ (count - 1074 : ℤ) := by
        rw [← zpow_natCast]
        exact zpow_le_zpow_right₀ (by norm_num) (by push_cast; omega)
  have product := lowest.trans_lt (highest.trans_le tens)
  rw [← lt_div_iff₀ (by positivity), ← zpow_sub₀ (by norm_num), sub_neg_eq_add, sub_add_cancel,
    zpow_natCast] at product
  rw [toList_toString, Nat.length_toDigits_le_iff (by decide) (by omega)]
  exact_mod_cast product

end Decimal

end DemandLex
