import DemandLex.Proofs.Decimal.Spacing

/-! Rounding to the nearest number: what it is, that it is unique, and that quotients are rounded
so. -/

namespace DemandLex.Binary64

/-- The double nearest to a number that is not negative. Of two that are as near it is the one with
the even last bit; infinity counts as the power of two where the next number would be. -/
structure IsNearest (x : Binary64) (r : ℚ) : Prop where
  positive : x.isNegative = false
  number : x.isNaN = false
  nearest (y : Binary64) (other : y.isNaN = false) : |x.absolute - r| ≤ |y.absolute - r|
  even (y : Binary64) (other : y.isNaN = false) (apart : y.magnitude ≠ x.magnitude)
    (tie : |x.absolute - r| = |y.absolute - r|) : x.magnitude % 2 = 0

structure Closest (m : Nat) (r : ℚ) : Prop where
  le : m ≤ infinityBits
  nearest (n : Nat) (other : n ≤ infinityBits) : |absoluteOf m - r| ≤ |absoluteOf n - r|
  even (n : Nat) (other : n ≤ infinityBits) (apart : n ≠ m)
    (tie : |absoluteOf m - r| = |absoluteOf n - r|) : m % 2 = 0

section Magnitudes
variable {m n : Nat} {r : ℚ}

theorem isNaN_eq_false {x : Binary64} : x.isNaN = false ↔ x.magnitude ≤ infinityBits := by
  rw [isNaN, decide_eq_false_iff_not, Nat.not_lt]

theorem magnitude_ofMagnitude (le : m ≤ infinityBits) : (ofMagnitude false m).magnitude = m := by
  unfold infinityBits at le
  have small : m % 2 ^ 64 = m := Nat.mod_eq_of_lt (by omega)
  rw [magnitude_eq, ofMagnitude, if_neg (by decide), Nat.add_zero]
  exact (congrArg (· % signBit) small).trans (Nat.mod_eq_of_lt (lt_of_le_of_lt le (by decide)))

theorem isNegative_ofMagnitude (le : m ≤ infinityBits) :
    (ofMagnitude false m).isNegative = false := by
  have small : m < 2 ^ 63 := lt_of_le_of_lt le (by decide)
  have none : (m + 0).toUInt64 >>> 63 = 0 := by
    rw [← UInt64.toNat_inj, UInt64.toNat_shiftRight, Nat.shiftRight_eq_div_pow]
    have bits : m.toUInt64.toNat = m := Nat.mod_eq_of_lt (small.trans (by decide))
    exact (congrArg (· / 2 ^ 63) bits).trans (Nat.div_eq_of_lt small)
  rw [isNegative, ofMagnitude, if_neg Bool.false_ne_true, none]
  rfl

theorem absolute_ofMagnitude (le : m ≤ infinityBits) :
    (ofMagnitude false m).absolute = absoluteOf m := by
  rw [absolute_eq, magnitude_ofMagnitude le]

theorem isNaN_ofMagnitude (le : m ≤ infinityBits) : (ofMagnitude false m).isNaN = false := by
  rwa [isNaN_eq_false, magnitude_ofMagnitude le]

theorem Closest.isNearest (closest : Closest m r) : (ofMagnitude false m).IsNearest r where
  positive := isNegative_ofMagnitude closest.le
  number := isNaN_ofMagnitude closest.le
  nearest y other := by
    rw [absolute_ofMagnitude closest.le, absolute_eq]
    exact closest.nearest _ (isNaN_eq_false.mp other)
  even y other apart tie := by
    rw [absolute_ofMagnitude closest.le, absolute_eq] at tie
    rw [magnitude_ofMagnitude closest.le] at apart ⊢
    exact closest.even _ (isNaN_eq_false.mp other) apart tie

theorem IsNearest.closest {x : Binary64} (nearest : x.IsNearest r) : Closest x.magnitude r where
  le := isNaN_eq_false.mp nearest.number
  nearest n other := by
    have near := nearest.nearest _ (isNaN_ofMagnitude other)
    rwa [absolute_eq, absolute_ofMagnitude other] at near
  even n other apart tie := by
    refine nearest.even _ (isNaN_ofMagnitude other) ?_ ?_
    · rwa [magnitude_ofMagnitude other]
    · rwa [absolute_eq, absolute_ofMagnitude other]

/-- At most one magnitude is the closest: two would be as near and both even, and the one between
them would be nearer. -/
theorem Closest.unique (first : Closest m r) (second : Closest n r) : m = n := by
  wlog less : m < n generalizing m n
  · rcases Nat.lt_trichotomy m n with before | same | behind
    · exact absurd before less
    · exact same
    · exact (this second first behind).symm
  exfalso
  have tie : |absoluteOf m - r| = |absoluteOf n - r| :=
    (first.nearest n second.le).antisymm (second.nearest m first.le)
  have evenFirst := first.even n second.le less.ne' tie
  have evenSecond := second.even m first.le less.ne tie.symm
  have between : m + 1 < n := by omega
  have near := first.nearest (m + 1) (between.le.trans second.le)
  have below := absoluteOf_strictMono m.lt_succ_self
  have above := absoluteOf_strictMono between
  rcases abs_eq_abs.mp tie with same | opposite
  · linarith
  · -- the number lies in the middle of the two
    have far : |absoluteOf m - r| = r - absoluteOf m := by
      rw [abs_sub_comm, abs_of_nonneg]
      linarith
    rw [far, le_abs] at near
    rcases near with near | near <;> linarith

theorem toNat_bits {x : Binary64} (positive : x.isNegative = false) :
    x.bits.toNat = x.magnitude := by
  have shift : x.bits.toNat / 2 ^ 63 = 0 := by
    have none : x.bits >>> 63 = 0 := by simpa [isNegative] using positive
    have bits := congrArg UInt64.toNat none
    rwa [UInt64.toNat_shiftRight, Nat.shiftRight_eq_div_pow] at bits
  rw [magnitude_eq]
  exact (Nat.mod_eq_of_lt ((Nat.div_eq_zero_iff_lt (by decide)).mp shift)).symm

theorem IsNearest.unique {x y : Binary64} (first : x.IsNearest r) (second : y.IsNearest r) :
    x = y := by
  have magnitudes := first.closest.unique second.closest
  rw [← toNat_bits first.positive, ← toNat_bits second.positive, UInt64.toNat_inj] at magnitudes
  exact congrArg Binary64.mk magnitudes

theorem IsNearest.isNearest_iff {x y : Binary64} (nearest : x.IsNearest r) :
    y.IsNearest r ↔ y = x := by
  constructor
  · exact fun other => other.unique nearest
  · rintro rfl
    exact nearest

theorem Closest.of_others (le : m ≤ infinityBits)
    (others : ∀ n ≤ infinityBits, n ≠ m → |absoluteOf m - r| < |absoluteOf n - r| ∨
      (|absoluteOf m - r| ≤ |absoluteOf n - r| ∧ m % 2 = 0)) : Closest m r := by
  refine ⟨le, fun n other => ?_, fun n other apart tie => ?_⟩
  · by_cases same : n = m
    · rw [same]
    · exact (others n other same).elim LT.lt.le And.left
  · exact (others n other apart).elim (fun nearer => absurd tie nearer.ne) And.right

theorem closest_low (inside : m < infinityBits) (lower : absoluteOf m ≤ r)
    (near : r - absoluteOf m < absoluteOf (m + 1) - r ∨
      (r - absoluteOf m = absoluteOf (m + 1) - r ∧ m % 2 = 0)) : Closest m r := by
  have own : |absoluteOf m - r| = r - absoluteOf m := by
    rw [abs_sub_comm, abs_of_nonneg (sub_nonneg.mpr lower)]
  refine .of_others inside.le fun n _ apart => ?_
  rw [own]
  rcases apart.lt_or_gt with below | above
  · have less := absoluteOf_strictMono below
    rw [abs_sub_comm]
    exact Or.inl ((sub_lt_sub_left less r).trans_le (le_abs_self _))
  · have more := absoluteOf_strictMono.monotone above
    have far := (sub_le_sub_right more r).trans (le_abs_self _)
    exact near.imp (·.trans_le far) fun tie => ⟨tie.1.le.trans far, tie.2⟩

theorem closest_high (inside : m < infinityBits) (upper : r ≤ absoluteOf (m + 1))
    (near : absoluteOf (m + 1) - r < r - absoluteOf m ∨
      (absoluteOf (m + 1) - r = r - absoluteOf m ∧ (m + 1) % 2 = 0)) : Closest (m + 1) r := by
  have own : |absoluteOf (m + 1) - r| = absoluteOf (m + 1) - r :=
    abs_of_nonneg (sub_nonneg.mpr upper)
  refine .of_others inside fun n _ apart => ?_
  rw [own]
  rcases apart.lt_or_gt with below | above
  · have less := absoluteOf_strictMono.monotone (Nat.le_of_lt_succ below)
    have far := (sub_le_sub_left less r).trans (le_abs_self _)
    rw [abs_sub_comm]
    exact near.imp (·.trans_le far) fun tie => ⟨tie.1.le.trans far, tie.2⟩
  · have more := absoluteOf_strictMono above
    exact Or.inl ((sub_lt_sub_right more r).trans_le (le_abs_self _))

theorem closest_between {gap part : ℚ} (inside : m < infinityBits)
    (step : absoluteOf (m + 1) = absoluteOf m + gap) (positive : 0 < gap) (start : 0 ≤ part)
    (stop : part < 1) :
    Closest (if 2 * part < 1 ∨ (2 * part = 1 ∧ m % 2 = 0) then m else m + 1)
      (absoluteOf m + part * gap) := by
  have away : 0 ≤ part * gap := mul_nonneg start positive.le
  split
  · next low =>
    refine closest_low inside (le_add_of_nonneg_right away) ?_
    rw [step]
    rcases low with less | ⟨half, even⟩
    · exact Or.inl (by nlinarith)
    · obtain rfl : part = 1 / 2 := by linarith
      exact Or.inr ⟨by ring, even⟩
  · next high =>
    push Not at high
    obtain ⟨more, odd⟩ := high
    refine closest_high inside ?_ ?_
    · rw [step]
      nlinarith
    · rw [step]
      rcases more.eq_or_lt with half | less
      · obtain rfl : part = 1 / 2 := by linarith
        have next := odd (by ring)
        exact Or.inr ⟨by ring, by omega⟩
      · exact Or.inl (by nlinarith)

theorem closest_infinity (large : absoluteOf infinityBits ≤ r) : Closest infinityBits r := by
  refine .of_others le_rfl fun n other apart => Or.inl ?_
  have less := absoluteOf_strictMono (lt_of_le_of_ne other apart)
  rw [abs_sub_comm, abs_of_nonneg (sub_nonneg.mpr large), abs_sub_comm]
  exact (sub_lt_sub_left less r).trans_le (le_abs_self _)

theorem closest_zero (positive : 0 ≤ r) (small : r < 2 ^ (-1075 : ℤ)) : Closest 0 r := by
  have half : (2 : ℚ) ^ (-1074 : ℤ) = 2 * 2 ^ (-1075 : ℤ) := by
    rw [← zpow_one_add₀ two_ne_zero]
    norm_num
  refine closest_low (by decide) (absoluteOf_zero.trans_le positive) (Or.inl ?_)
  rw [absoluteOf_zero, Nat.zero_add, absoluteOf_one, half]
  linarith

theorem closest_self (le : m ≤ infinityBits) : Closest m (absoluteOf m) := by
  refine .of_others le fun n _ apart => Or.inl ?_
  rw [sub_self, abs_zero, abs_pos, sub_ne_zero]
  exact absoluteOf_strictMono.injective.ne apart

end Magnitudes

section Quotients
variable {num den : Nat}

theorem scale_pos (positive : 0 < den) (k : ℤ) : 0 < (scale num den k).2 := by
  cases k with
  | ofNat k => exact positive
  | negSucc k => exact Nat.mul_pos positive (Nat.two_pow_pos _)

theorem scale_eq (positive : 0 < den) (k : ℤ) :
    ((scale num den k).1 : ℚ) / (scale num den k).2 = num / den * 2 ^ k := by
  have nonzero : (den : ℚ) ≠ 0 := by exact_mod_cast positive.ne'
  cases k with
  | ofNat k =>
    rw [scale, Nat.pow_eq, Int.ofNat_eq_natCast, zpow_natCast]
    push_cast
    ring
  | negSucc k =>
    rw [scale, Nat.pow_eq, zpow_negSucc]
    push_cast
    field_simp

theorem div_lt_iff_of_scale (positive : 0 < den) (k : ℤ) (bound : Nat) :
    (scale num den (-k)).1 < bound * (scale num den (-k)).2 ↔ (num / den : ℚ) < bound * 2 ^ k := by
  have below : (0 : ℚ) < (scale num den (-k)).2 := by exact_mod_cast scale_pos positive (-k)
  have step : (0 : ℚ) < 2 ^ k := by positivity
  have cast : (scale num den (-k)).1 < bound * (scale num den (-k)).2 ↔
      ((scale num den (-k)).1 : ℚ) < bound * (scale num den (-k)).2 := by norm_cast
  rw [cast, ← div_lt_iff₀ below, scale_eq positive, zpow_neg, ← div_eq_mul_inv, div_lt_iff₀ step]

theorem leadingBit_eq : (leadingBit : ℚ) = 2 ^ (52 : ℤ) := by norm_num [leadingBit]

/-- The numbers of binary digits tell a quotient but for a factor of four. -/
theorem quotient_bounds (nonzero : num ≠ 0) (positive : 0 < den) :
    let low : ℤ := (num.log2 : ℤ) - den.log2 - 53
    leadingBit * 2 ^ low ≤ (num / den : ℚ) ∧
      (num / den : ℚ) < 2 * leadingBit * 2 ^ (low + 1) := by
  intro low
  have below : (0 : ℚ) < den := by exact_mod_cast positive
  have numFloor : (2 : ℚ) ^ (num.log2 : ℤ) ≤ num := by exact_mod_cast Nat.log2_self_le nonzero
  have numCeiling : (num : ℚ) < 2 ^ (num.log2 + 1 : ℤ) := by exact_mod_cast Nat.lt_log2_self
  have denFloor : (2 : ℚ) ^ (den.log2 : ℤ) ≤ den := by exact_mod_cast Nat.log2_self_le positive.ne'
  have denCeiling : (den : ℚ) < 2 ^ (den.log2 + 1 : ℤ) := by exact_mod_cast Nat.lt_log2_self
  have step (k : ℤ) : (0 : ℚ) < 2 ^ k := by positivity
  constructor
  · rw [le_div_iff₀ below]
    calc leadingBit * 2 ^ low * (den : ℚ)
        ≤ leadingBit * 2 ^ low * 2 ^ (den.log2 + 1 : ℤ) := by
          have := step low
          gcongr
      _ = 2 ^ (num.log2 : ℤ) := by
          rw [leadingBit_eq, ← zpow_add₀ two_ne_zero, ← zpow_add₀ two_ne_zero]
          congr 1
          ring
      _ ≤ num := numFloor
  · rw [div_lt_iff₀ below]
    calc (num : ℚ)
        < 2 ^ (num.log2 + 1 : ℤ) := numCeiling
      _ = 2 * leadingBit * 2 ^ (low + 1) * 2 ^ (den.log2 : ℤ) := by
          rw [leadingBit_eq, ← zpow_one_add₀ two_ne_zero, ← zpow_add₀ two_ne_zero,
            ← zpow_add₀ two_ne_zero]
          congr 1
          ring
      _ ≤ 2 * leadingBit * 2 ^ (low + 1) * den := by
          have := step (low + 1)
          gcongr

/-- The last place leaves at most 53 binary digits before the point, and not less unless it is that
of the smallest number. -/
theorem lastPlace_spec (nonzero : num ≠ 0) (positive : 0 < den) :
    -1074 ≤ lastPlace num den ∧ (num / den : ℚ) < 2 * leadingBit * 2 ^ lastPlace num den ∧
      (lastPlace num den = -1074 ∨ leadingBit * 2 ^ lastPlace num den ≤ (num / den : ℚ)) := by
  have grows {k l : ℤ} (le : k ≤ l) : (2 : ℚ) * leadingBit * 2 ^ k ≤ 2 * leadingBit * 2 ^ l := by
    have : (2 : ℚ) ^ k ≤ 2 ^ l := zpow_le_zpow_right₀ one_le_two le
    gcongr
  let low : ℤ := (num.log2 : ℤ) - den.log2 - 53
  obtain ⟨floor, ceiling⟩ := quotient_bounds nonzero positive
  have choice : (scale num den (-low)).1 < 2 * leadingBit * (scale num den (-low)).2 ↔ _ :=
    div_lt_iff_of_scale positive low (2 * leadingBit)
  push_cast at choice
  -- the place before the bound from below
  obtain ⟨place, chosen, upper, lower⟩ : ∃ place : ℤ,
      lastPlace num den = max (-1074) place ∧ (num / den : ℚ) < 2 * leadingBit * 2 ^ place ∧
        leadingBit * 2 ^ place ≤ (num / den : ℚ) := by
    by_cases less : (num / den : ℚ) < 2 * leadingBit * 2 ^ low
    · exact ⟨low, congrArg (max (-1074)) (if_pos (choice.mpr less)), less, floor⟩
    · refine ⟨low + 1, congrArg (max (-1074)) (if_neg (mt choice.mp less)), ceiling, ?_⟩
      rw [zpow_add_one₀ two_ne_zero]
      linarith
  rw [chosen]
  refine ⟨le_max_left _ _, upper.trans_le (grows (le_max_right _ _)), ?_⟩
  rcases le_total place (-1074) with small | large
  · exact Or.inl (max_eq_left small)
  · exact Or.inr ((max_eq_right large).symm ▸ lower)

theorem roundQuotient_eq {n d : Nat} (positive : 0 < d) :
    roundQuotient n d =
      if 2 * ((n % d : Nat) / d : ℚ) < 1 ∨ (2 * ((n % d : Nat) / d : ℚ) = 1 ∧ n / d % 2 = 0)
        then n / d else n / d + 1 := by
  have below : (0 : ℚ) < d := by exact_mod_cast positive
  have less : 2 * ((n % d : Nat) / d : ℚ) < 1 ↔ 2 * (n % d) < d := by
    rw [← mul_div_assoc, div_lt_one below]
    norm_cast
  have half : 2 * ((n % d : Nat) / d : ℚ) = 1 ↔ 2 * (n % d) = d := by
    rw [← mul_div_assoc, div_eq_one_iff_eq below.ne']
    norm_cast
  rw [roundQuotient]
  simp only [less, half]

theorem le_roundQuotient (n d : Nat) : n / d ≤ roundQuotient n d := by
  rw [roundQuotient]
  split
  · exact le_rfl
  · exact Nat.le_succ _

theorem closest_roundQuotient {e n d : Nat} (positive : 0 < d) (normal : e = 0 ∨ leadingBit * d ≤ n)
    (bound : n < 2 * leadingBit * d) :
    Closest (min (e * leadingBit + roundQuotient n d) infinityBits)
      (n / d * 2 ^ (e - 1074 : ℤ)) := by
  have below : (0 : ℚ) < d := by exact_mod_cast positive
  have step : (0 : ℚ) < 2 ^ (e - 1074 : ℤ) := by positivity
  have whole : e = 0 ∨ leadingBit ≤ n / d :=
    normal.imp_right (Nat.le_div_iff_mul_le positive).mpr
  have small : n / d < 2 * leadingBit := (Nat.div_lt_iff_lt_mul positive).mpr bound
  -- the lower neighbour, the step to the upper one, and the part of the step that is left
  let m := e * leadingBit + n / d
  have own : absoluteOf m = (n / d : Nat) * 2 ^ (e - 1074 : ℤ) := absoluteOf_multiple whole small.le
  have next : absoluteOf (m + 1) = absoluteOf m + 2 ^ (e - 1074 : ℤ) := by
    have multiple := absoluteOf_multiple (r := n / d + 1) (whole.imp_right Nat.le_succ_of_le) small
    rw [← Nat.add_assoc] at multiple
    rw [own, multiple]
    push_cast
    ring
  have division : (n / d : ℚ) = (n / d : Nat) + (n % d : Nat) / d := by
    have parts : (n : ℚ) = d * (n / d : Nat) + (n % d : Nat) := by
      exact_mod_cast (Nat.div_add_mod n d).symm
    rw [div_eq_iff below.ne', add_mul, div_mul_cancel₀ _ below.ne', mul_comm]
    exact parts
  have value : (n / d * 2 ^ (e - 1074 : ℤ) : ℚ) =
      absoluteOf m + (n % d : Nat) / d * 2 ^ (e - 1074 : ℤ) := by
    rw [own, division, add_mul]
  rw [value]
  -- above the largest double both neighbours are infinite
  by_cases inside : m < infinityBits
  · have part : ((n % d : Nat) / d : ℚ) < 1 := by
      rw [div_lt_one below]
      exact_mod_cast Nat.mod_lt n positive
    have closest := closest_between inside next step (by positivity) part
    have even : m % 2 = n / d % 2 := by
      have bit : leadingBit = 2 * 0x8000000000000 := rfl
      simp only [m, bit]
      omega
    have rounded : e * leadingBit + roundQuotient n d =
        if 2 * ((n % d : Nat) / d : ℚ) < 1 ∨ (2 * ((n % d : Nat) / d : ℚ) = 1 ∧ m % 2 = 0)
          then m else m + 1 := by
      rw [roundQuotient_eq positive, even]
      split
      · rfl
      · exact (Nat.add_assoc ..).symm
    rw [← rounded] at closest
    rwa [min_eq_left closest.le]
  · have top : infinityBits ≤ m := Nat.le_of_not_lt inside
    have rounded : m ≤ e * leadingBit + roundQuotient n d :=
      Nat.add_le_add_left (le_roundQuotient n d) _
    rw [min_eq_right (top.trans rounded)]
    refine closest_infinity ((absoluteOf_strictMono.monotone top).trans ?_)
    exact le_add_of_nonneg_right (by positivity)

theorem closest_roundMagnitude (positive : 0 < den) :
    Closest (roundMagnitude num den) (num / den) := by
  by_cases zero : num = 0
  · rw [roundMagnitude, if_pos zero, zero, Nat.cast_zero, zero_div]
    exact absoluteOf_zero ▸ closest_self (Nat.zero_le _)
  obtain ⟨smallest, upper, lower⟩ := lastPlace_spec zero positive
  let q := lastPlace num den
  have place : ((q + 1074).toNat - 1074 : ℤ) = q := by omega
  have bound := (div_lt_iff_of_scale positive q (2 * leadingBit)).mpr (by exact_mod_cast upper)
  have normal : (q + 1074).toNat = 0 ∨
      leadingBit * (scale num den (-q)).2 ≤ (scale num den (-q)).1 := by
    refine lower.imp (fun last => ?_) fun le => ?_
    · exact (congrArg (fun k : ℤ => (k + 1074).toNat) last).trans rfl
    · exact Nat.le_of_not_lt (mt (div_lt_iff_of_scale positive q leadingBit).mp (not_lt.mpr le))
  have closest := closest_roundQuotient (scale_pos positive (-q)) normal bound
  rw [place, scale_eq positive, mul_assoc, ← zpow_add₀ two_ne_zero, neg_add_cancel, zpow_zero,
    mul_one] at closest
  rw [roundMagnitude, if_neg zero]
  exact closest

theorem ofQuotient_isNearest (positive : 0 < den) :
    (ofQuotient false num den).IsNearest (num / den) :=
  (closest_roundMagnitude positive).isNearest

theorem ofQuotient_scale_isNearest (positive : 0 < den) (k : ℤ) :
    (ofQuotient false (scale num den k).1 (scale num den k).2).IsNearest (num / den * 2 ^ k) :=
  scale_eq positive k ▸ ofQuotient_isNearest (scale_pos positive k)

end Quotients

end DemandLex.Binary64
