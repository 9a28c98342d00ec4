import Mathlib.Algebra.Order.Field.Power
import Mathlib.Algebra.Order.Field.Rat
import Mathlib.Data.Nat.Cast.Order.Ring
import Mathlib.Tactic.FieldSimp
import Mathlib.Tactic.Linarith
import Mathlib.Tactic.NormNum
import Mathlib.Tactic.Positivity
import Mathlib.Tactic.Ring
import RecordService.Double.Basic

/-! # Rounding to the nearest double

A finite double has a size, its significand times a power of two, and the numbers around it that are nearest to it form
an interval (`Double.Rounds`). The quotient of two natural numbers is rounded to the double in whose interval it lies
(`Double.ofRatio_eq_of_rounds`). -/

namespace RecordService.Double

/-! ### Bits -/

theorem twoPow_eq (n : Nat) : twoPow n = 2 ^ n := rfl

theorem tenPow_eq (n : Nat) : tenPow n = 10 ^ n := rfl

variable {x : Double}

theorem magnitude_lt (x : Double) : x.magnitude < 2 ^ 63 :=
  Nat.mod_lt _ (by decide)

/-- The fields of the exponent and of the fraction are the magnitude. -/
theorem magnitude_eq_fields (x : Double) : x.magnitude = x.exponentField * 2 ^ 52 + x.fraction := by
  simp only [magnitude, exponentField, fraction, twoPow_eq]
  omega

theorem fraction_lt (x : Double) : x.fraction < 2 ^ 52 :=
  Nat.mod_lt _ (by decide)

/-- A double is its sign and its magnitude. -/
theorem ofMagnitude_magnitude (x : Double) : ofMagnitude x.isNegative x.magnitude = x := by
  have hsize : x.bits.toNat < 2 ^ 64 := x.bits.toNat_lt
  have hsign : x.magnitude + (if x.isNegative then twoPow 63 else 0) = x.bits.toNat := by
    rw [isNegative, magnitude, twoPow_eq]
    by_cases h : 2 ^ 63 ≤ x.bits.toNat
    · rw [decide_eq_true h, if_pos rfl]
      omega
    · rw [decide_eq_false h, if_neg Bool.false_ne_true]
      omega
  rw [ofMagnitude, hsign, UInt64.ofNat_toNat]

section
variable {negative : Bool} {m : Nat}

theorem toNat_ofMagnitude (h : m < 2 ^ 63) :
    (ofMagnitude negative m).bits.toNat = m + if negative then 2 ^ 63 else 0 := by
  rw [ofMagnitude, UInt64.toNat_ofNat', twoPow_eq]
  cases negative
  · exact Nat.mod_eq_of_lt (by simp only [Bool.false_eq_true, if_false]; omega)
  · exact Nat.mod_eq_of_lt (by simp only [if_true]; omega)

theorem magnitude_ofMagnitude (h : m < 2 ^ 63) : (ofMagnitude negative m).magnitude = m := by
  rw [magnitude, toNat_ofMagnitude h, twoPow_eq]
  cases negative <;> (simp only [Bool.false_eq_true, if_false, if_true]; omega)

theorem isNegative_ofMagnitude (h : m < 2 ^ 63) : (ofMagnitude negative m).isNegative = negative := by
  rw [isNegative, toNat_ofMagnitude h, twoPow_eq]
  cases negative
  · simp only [Bool.false_eq_true, if_false, decide_eq_false_iff_not]
    omega
  · simp only [if_true, decide_eq_true_eq]
    omega

end

theorem isFinite_iff : x.isFinite = true ↔ x.magnitude < infinityBits := by
  have hfields := x.magnitude_eq_fields
  have hfraction := x.fraction_lt
  have hmagnitude := x.magnitude_lt
  rw [isFinite, bne_iff_ne, infinityBits, twoPow_eq]
  omega

theorem magnitude_of_infinite (hfinite : x.isFinite = false) (hnan : x.isNaN = false) : x.magnitude = infinityBits := by
  have hfields := x.magnitude_eq_fields
  rw [isFinite, bne_eq_false_iff_eq] at hfinite
  rw [isNaN, hfinite, beq_self_eq_true, Bool.true_and, bne_eq_false_iff_eq] at hnan
  rw [hfields, hfinite, hnan, infinityBits, twoPow_eq, Nat.add_zero]

theorem isZero_iff : x.isZero = true ↔ x.magnitude = 0 := by
  have hfields := x.magnitude_eq_fields
  rw [isZero, Bool.and_eq_true, beq_iff_eq, beq_iff_eq]
  omega

/-! ### Sizes -/

/-- The number that a finite double is, without its sign. -/
def size (x : Double) : ℚ :=
  x.significand * 2 ^ x.scale

/-- Significand and scale together are the magnitude; a carry of the significand goes into the exponent. -/
theorem magnitude_eq (x : Double) : (x.magnitude : Int) = (x.scale + 1074) * 2 ^ 52 + x.significand := by
  have hfields := x.magnitude_eq_fields
  have hfraction := x.fraction_lt
  simp only [scale, significand, twoPow_eq]
  split <;> omega

theorem significand_lt (x : Double) : x.significand < 2 ^ 53 := by
  have hfraction := x.fraction_lt
  simp only [significand, twoPow_eq]
  split <;> omega

theorem neg_le_scale (x : Double) : -1074 ≤ x.scale := by
  simp only [scale]
  omega

/-- Only the least scale has significands without the hidden bit. -/
theorem significand_ge (h : x.scale ≠ -1074) : 2 ^ 52 ≤ x.significand := by
  have hfield : x.exponentField ≠ 0 := by
    intro hzero
    simp [scale, hzero] at h
  simp only [significand, twoPow_eq, if_neg hfield]
  omega

theorem scale_le (h : x.isFinite = true) : x.scale ≤ 971 := by
  rw [isFinite_iff, infinityBits, twoPow_eq] at h
  have hfields := x.magnitude_eq_fields
  simp only [scale]
  omega

theorem significand_pos (h : x.isZero = false) : 0 < x.significand := by
  by_contra hzero
  have hsignificand : x.significand = 0 := by omega
  have hscale : x.scale = -1074 := by
    by_contra hne
    have := significand_ge hne
    omega
  have hmagnitude := x.magnitude_eq
  rw [hsignificand, hscale] at hmagnitude
  have : x.isZero = true := isZero_iff.mpr (by omega)
  rw [this] at h
  cases h

theorem unit_pos (q : Int) : (0 : ℚ) < 2 ^ q := by positivity

/-! ### Intervals -/

/-- How far the interval of a double reaches below it: half a unit, but half of that where the units below are half as
large. -/
def gapBelow (x : Double) : ℚ :=
  if x.significand = 2 ^ 52 ∧ x.scale ≠ -1074 then 2 ^ x.scale / 4 else 2 ^ x.scale / 2

/-- The number rounds to the size of the double. The ends of the interval do if the significand is even. -/
def Rounds (x : Double) (r : ℚ) : Prop :=
  if x.significand % 2 = 0 then x.size - x.gapBelow ≤ r ∧ r ≤ x.size + 2 ^ x.scale / 2
  else x.size - x.gapBelow < r ∧ r < x.size + 2 ^ x.scale / 2

theorem gapBelow_pos (x : Double) : 0 < x.gapBelow := by
  have := unit_pos x.scale
  unfold gapBelow
  split <;> positivity

theorem gapBelow_le (x : Double) : x.gapBelow ≤ 2 ^ x.scale / 2 := by
  have := unit_pos x.scale
  unfold gapBelow
  split <;> linarith

theorem rounds_size (x : Double) : x.Rounds x.size := by
  have hunit := unit_pos x.scale
  have hgap := x.gapBelow_pos
  unfold Rounds
  split
  · constructor <;> linarith
  · constructor <;> linarith

theorem Rounds.le {r : ℚ} (h : x.Rounds r) : x.size - x.gapBelow ≤ r ∧ r ≤ x.size + 2 ^ x.scale / 2 := by
  unfold Rounds at h
  split at h
  · exact h
  · exact ⟨h.1.le, h.2.le⟩

/-! ### Quotients of integers -/

/-- An integer at most half a divisor away is what a quotient is rounded to; at half a divisor it has to be even. -/
theorem roundDiv_eq_of_abs_sub {num den n : Nat} (hden : 0 < den) (hnear : 2 * |(num : Int) - n * den| ≤ den)
    (htie : 2 * |(num : Int) - n * den| = den → n % 2 = 0) : roundDiv num den = n := by
  have hmod := Nat.mod_lt num hden
  have hdiff : (num : Int) - n * den = ((num / den : Nat) - n : Int) * den + (num % den : Nat) := by
    have hdivision : (num : Int) = (num / den : Nat) * den + (num % den : Nat) := by
      exact_mod_cast (Nat.div_add_mod' num den).symm
    linarith
  rw [hdiff] at hnear htie
  unfold roundDiv
  dsimp only
  generalize num / den = q at *
  generalize num % den = r at *
  -- the integer is the quotient or the one above
  rcases lt_trichotomy (q : Int) n with hlt | heq | hgt
  · rcases Int.lt_or_eq_of_le (show (q : Int) - n ≤ -1 by omega) with hfar | hone
    · have : ((q : Int) - n) * den ≤ -2 * den := mul_le_mul_of_nonneg_right (by omega) (by omega)
      have := abs_le.mp (show |((q : Int) - n) * den + r| ≤ den / 2 by omega)
      omega
    · rw [hone, abs_of_nonpos (by omega)] at hnear htie
      split_ifs <;> omega
  · rw [heq, sub_self, zero_mul, zero_add, abs_of_nonneg (by omega)] at hnear htie
    split_ifs <;> omega
  · have : 1 * (den : Int) ≤ ((q : Int) - n) * den := mul_le_mul_of_nonneg_right (by omega) (by omega)
    have := abs_le.mp (show |((q : Int) - n) * den + r| ≤ den / 2 by omega)
    omega

/-- The same of a fraction, which is at most a half away. -/
theorem roundDiv_eq {num den n : Nat} (hden : 0 < den) (hnear : |(num : ℚ) / den - n| ≤ 1 / 2)
    (htie : |(num : ℚ) / den - n| = 1 / 2 → n % 2 = 0) : roundDiv num den = n := by
  have hden' : (0 : ℚ) < den := by exact_mod_cast hden
  have habs : |(num : ℚ) / den - n| = |(num : ℚ) - n * den| / den := by
    rw [← abs_of_pos hden', ← abs_div, abs_of_pos hden', sub_div, mul_div_cancel_right₀ _ hden'.ne']
  rw [habs] at hnear htie
  rw [div_le_iff₀ hden'] at hnear
  refine roundDiv_eq_of_abs_sub hden ?_ fun h => htie ?_
  · have : 2 * |(num : ℚ) - n * den| ≤ den := by linarith
    exact_mod_cast this
  · have : 2 * |(num : ℚ) - n * den| = den := by exact_mod_cast h
    rw [div_eq_iff hden'.ne']
    linarith

/-! ### The unit of a quotient -/

theorem scaled_eq (num den : Nat) (q : Int) (hden : 0 < den) :
    0 < (scaled num den q).2 ∧ ((scaled num den q).1 : ℚ) / (scaled num den q).2 = num / den / 2 ^ q := by
  have hden' : (den : ℚ) ≠ 0 := by exact_mod_cast hden.ne'
  unfold scaled
  simp only [twoPow_eq]
  split
  · rename_i hq
    obtain ⟨n, rfl⟩ := Int.eq_ofNat_of_zero_le hq
    refine ⟨by positivity, ?_⟩
    simp only [Int.toNat_natCast, Nat.cast_mul, Nat.cast_pow, Nat.cast_ofNat, zpow_natCast]
    field_simp
  · rename_i hq
    obtain ⟨n, hn⟩ := Int.eq_ofNat_of_zero_le (show 0 ≤ -q by omega)
    obtain rfl : q = -n := by omega
    refine ⟨hden, ?_⟩
    simp only [neg_neg, Int.toNat_natCast, Nat.cast_mul, Nat.cast_pow, Nat.cast_ofNat, zpow_neg, zpow_natCast]
    field_simp

/-- The unit at which a number has a significand of fifty-three bits, or the least unit. -/
structure IsUnit (r : ℚ) (q : Int) : Prop where
  least : -1074 ≤ q
  lt : r < 2 ^ 53 * 2 ^ q
  ge : q = -1074 ∨ 2 ^ 52 * 2 ^ q ≤ r

/-- A number has one unit. -/
theorem IsUnit.eq {r : ℚ} {q q' : Int} (h : IsUnit r q) (h' : IsUnit r q') : q = q' := by
  have hle {q q' : Int} (h : IsUnit r q) (h' : IsUnit r q') : q' ≤ q := by
    by_contra hlt
    have hge := h'.ge.resolve_left (by have := h.least; omega)
    have hstep : (2 : ℚ) ^ (q + 1) ≤ 2 ^ q' := zpow_le_zpow_right₀ (by norm_num) (by omega)
    rw [zpow_add_one₀ (by norm_num)] at hstep
    have := h.lt
    linarith
  exact le_antisymm (hle h' h) (hle h h')

/-- A quotient lies within two binades, those around the difference of the logarithms. -/
theorem ratio_bounds {num den : Nat} (hnum : 0 < num) (hden : 0 < den) :
    (2 : ℚ) ^ 51 * 2 ^ ((num.log2 : Int) - den.log2 - 52) < num / den ∧
      (num : ℚ) / den < 2 ^ 53 * 2 ^ ((num.log2 : Int) - den.log2 - 52) := by
  have hden' : (0 : ℚ) < den := by exact_mod_cast hden
  have hpow (n : Nat) (k : Int) : (2 : ℚ) ^ n * 2 ^ k = 2 ^ (n + k) := by
    rw [zpow_add₀ (by norm_num), zpow_natCast]
  rw [hpow, hpow]
  constructor
  · have hn : (2 : ℚ) ^ num.log2 ≤ num := by exact_mod_cast Nat.log2_self_le hnum.ne'
    have hd : (den : ℚ) < 2 ^ (den.log2 + 1) := by exact_mod_cast Nat.lt_log2_self
    rw [lt_div_iff₀ hden', show ((51 : Nat) : Int) + (num.log2 - den.log2 - 52) = num.log2 - (den.log2 + 1 : Nat) by
      push_cast; ring, zpow_sub₀ (by norm_num), zpow_natCast, zpow_natCast, div_mul_eq_mul_div,
      div_lt_iff₀ (by positivity)]
    exact mul_lt_mul' hn hd (by positivity) (by positivity)
  · have hn : (num : ℚ) < 2 ^ (num.log2 + 1) := by exact_mod_cast Nat.lt_log2_self
    have hd : (2 : ℚ) ^ den.log2 ≤ den := by exact_mod_cast Nat.log2_self_le hden.ne'
    rw [div_lt_iff₀ hden', show ((53 : Nat) : Int) + (num.log2 - den.log2 - 52) = (num.log2 + 1 : Nat) - den.log2 by
      push_cast; ring, zpow_sub₀ (by norm_num), zpow_natCast, zpow_natCast, div_mul_eq_mul_div,
      lt_div_iff₀ (by positivity)]
    exact mul_lt_mul hn hd (by positivity) (by positivity)

/-- The integer part of a quotient in units tells whether the quotient has fifty-three bits of them. -/
theorem scaled_lt_iff (num : Nat) {den : Nat} (q : Int) (hden : 0 < den) :
    (scaled num den q).1 / (scaled num den q).2 < twoPow 52 ↔ (num : ℚ) / den < 2 ^ 52 * 2 ^ q := by
  obtain ⟨hden₀, hscaled⟩ := scaled_eq num den q hden
  rw [Nat.div_lt_iff_lt_mul hden₀, ← div_lt_iff₀ (unit_pos q), ← hscaled, div_lt_iff₀ (by exact_mod_cast hden₀),
    twoPow_eq]
  exact_mod_cast Iff.rfl

theorem isUnit_unitExponent {num den : Nat} (hnum : 0 < num) (hden : 0 < den) :
    IsUnit ((num : ℚ) / den) (unitExponent num den) := by
  obtain ⟨hlower, hupper⟩ := ratio_bounds hnum hden
  have hbelow := scaled_lt_iff num (max ((num.log2 : Int) - den.log2 - 52) (-1074)) hden
  unfold unitExponent
  generalize (num.log2 : Int) - den.log2 - 52 = q at *
  simp only
  by_cases hq : -1074 ≤ q
  · rw [max_eq_left hq] at hbelow ⊢
    split
    · -- the quotient is in the lower of the two binades, whose unit is half as large
      rename_i hlow
      rw [hbelow] at hlow
      have hhalf : (2 : ℚ) ^ (q - 1) = 2 ^ q / 2 := zpow_sub_one₀ (by norm_num) q
      rcases hq.lt_or_eq with hlt | rfl
      · rw [max_eq_left (by omega)]
        refine ⟨by omega, ?_, Or.inr ?_⟩ <;> rw [hhalf] <;> linarith
      · exact ⟨by decide, hupper, Or.inl (by decide)⟩
    · rename_i hhigh
      rw [hbelow, not_lt] at hhigh
      exact ⟨hq, hupper, Or.inr hhigh⟩
  · -- both binades are below the least unit
    have hle : (2 : ℚ) ^ q ≤ 2 ^ (-1074 : Int) := zpow_le_zpow_right₀ (by norm_num) (by omega)
    rw [max_eq_right (by omega)]
    have hresult : (if (scaled num den (-1074)).1 / (scaled num den (-1074)).2 < twoPow 52 then max (-1074 - 1) (-1074)
        else -1074 : Int) = -1074 := by
      split <;> omega
    rw [hresult]
    exact ⟨le_refl _, by linarith, Or.inl rfl⟩

/-! ### Rounding -/

section
variable {num den : Nat} {q : Int} {n : Nat} {negative : Bool}

/-- What has a unit and is near a number of units, is rounded to it. -/
theorem ofRatio_eq (hnum : 0 < num) (hden : 0 < den) (hunit : IsUnit ((num : ℚ) / den) q)
    (hnear : |(num : ℚ) / den - n * 2 ^ q| ≤ 2 ^ q / 2)
    (htie : |(num : ℚ) / den - n * 2 ^ q| = 2 ^ q / 2 → n % 2 = 0) :
    ofRatio negative num den = ofMagnitude negative (min ((q + 1074).toNat * 2 ^ 52 + n) infinityBits) := by
  have hpos := unit_pos q
  obtain ⟨hden₀, hscaled⟩ := scaled_eq num den q hden
  have hdist : |(num : ℚ) / den / 2 ^ q - n| = |(num : ℚ) / den - n * 2 ^ q| / 2 ^ q := by
    rw [← abs_of_pos hpos, ← abs_div, abs_of_pos hpos, sub_div, mul_div_cancel_right₀ _ hpos.ne']
  have hround : roundDiv (scaled num den q).1 (scaled num den q).2 = n := by
    refine roundDiv_eq hden₀ ?_ ?_ <;> rw [hscaled, hdist]
    · rw [div_le_iff₀ hpos]
      linarith
    · rw [div_eq_iff hpos.ne']
      exact fun h => htie (by linarith)
  have hexponent : unitExponent num den = q := (isUnit_unitExponent hnum hden).eq hunit
  simp only [ofRatio, hnum.ne', hden.ne', if_false, hexponent, hround, twoPow_eq]

end

theorem roundDiv_le (num den : Nat) : roundDiv num den ≤ num / den + 1 := by
  unfold roundDiv
  dsimp only
  split_ifs <;> omega

/-- A number within the range of doubles does not round to an infinite one. -/
theorem isFinite_ofRatio {num den : Nat} (hden : 0 < den) (h : (num : ℚ) / den < 2 ^ (1023 : Int)) (negative : Bool) :
    (ofRatio negative num den).isFinite = true := by
  rw [isFinite_iff, ofRatio, if_neg hden.ne']
  split
  · rw [magnitude_ofMagnitude (by decide)]
    decide
  · rename_i hnum
    have hunit := isUnit_unitExponent (Nat.pos_of_ne_zero hnum) hden
    have hpos := unit_pos (unitExponent num den)
    obtain ⟨hden₀, hscaled⟩ := scaled_eq num den (unitExponent num den) hden
    have hround := roundDiv_le (scaled num den (unitExponent num den)).1 (scaled num den (unitExponent num den)).2
    dsimp only
    generalize unitExponent num den = q at *
    generalize scaled num den q = s at *
    have hquotient : s.1 / s.2 < 2 ^ 53 := by
      have hlt : (s.1 : ℚ) / s.2 < 2 ^ 53 := by
        rw [hscaled, div_lt_iff₀ hpos]
        exact hunit.lt
      rw [div_lt_iff₀ (by exact_mod_cast hden₀)] at hlt
      rw [Nat.div_lt_iff_lt_mul hden₀]
      exact_mod_cast hlt
    -- with a larger unit the quotient would be at the bound or above it
    have hq : q ≤ 970 := by
      by_contra hlt
      have hge := hunit.ge.resolve_left (by omega)
      have hstep : (2 : ℚ) ^ (971 : Int) ≤ 2 ^ q := zpow_le_zpow_right₀ (by norm_num) (by omega)
      have hsplit : (2 : ℚ) ^ (1023 : Int) = 2 ^ 52 * 2 ^ (971 : Int) := by
        rw [← zpow_natCast, ← zpow_add₀ (by norm_num)]
        rfl
      rw [hsplit] at h
      have := mul_le_mul_of_nonneg_left hstep (show (0 : ℚ) ≤ 2 ^ 52 by norm_num)
      exact absurd (this.trans hge) (not_le.mpr h)
    have hleast := hunit.least
    have hbound : (q + 1074).toNat * twoPow 52 + roundDiv s.1 s.2 < infinityBits := by
      simp only [infinityBits, twoPow_eq]
      omega
    rw [min_eq_left hbound.le, magnitude_ofMagnitude (hbound.trans (by decide))]
    exact hbound

/-- A number above zero rounds to a double other than zero. -/
theorem Rounds.pos {r : ℚ} (h : x.Rounds r) (hzero : x.isZero = false) : 0 < r := by
  have hunit := unit_pos x.scale
  have hone : (1 : ℚ) ≤ x.significand := by exact_mod_cast significand_pos hzero
  have hsize : (2 : ℚ) ^ x.scale ≤ x.size := le_mul_of_one_le_left hunit.le hone
  linarith [h.le.1, x.gapBelow_le]

/-- What rounds to an odd significand is less than half a unit away. -/
theorem Rounds.abs_sub_le {r : ℚ} (h : x.Rounds r) :
    |r - x.size| ≤ 2 ^ x.scale / 2 ∧ (|r - x.size| = 2 ^ x.scale / 2 → x.significand % 2 = 0) := by
  have hgap := x.gapBelow_le
  refine ⟨abs_sub_le_iff.mpr ⟨by linarith [h.le.2], by linarith [h.le.1]⟩, fun htie => ?_⟩
  by_contra hodd
  rw [Rounds, if_neg hodd] at h
  have : |r - x.size| < 2 ^ x.scale / 2 := abs_sub_lt_iff.mpr ⟨by linarith [h.2], by linarith [h.1]⟩
  exact this.ne htie

/-- A quotient is rounded to the double in whose interval it lies. -/
theorem ofRatio_eq_of_rounds {num den : Nat} (hfinite : x.isFinite = true) (hzero : x.isZero = false) (hden : 0 < den)
    (h : x.Rounds ((num : ℚ) / den)) (negative : Bool) :
    ofRatio negative num den = ofMagnitude negative x.magnitude := by
  have hnum : 0 < num := by
    have hden' : (0 : ℚ) < den := by exact_mod_cast hden
    have hpos := h.pos hzero
    rw [lt_div_iff₀ hden', zero_mul] at hpos
    exact_mod_cast hpos
  have hmagnitude := x.magnitude_eq
  have hbound := isFinite_iff.mp hfinite
  have hleast := x.neg_le_scale
  have hunit := unit_pos x.scale
  have hsignificand : (x.significand : ℚ) ≤ 2 ^ 53 - 1 := by
    have : (x.significand : ℚ) + 1 ≤ 2 ^ 53 := by exact_mod_cast x.significand_lt
    linarith
  have hsize : x.size ≤ (2 ^ 53 - 1) * 2 ^ x.scale := mul_le_mul_of_nonneg_right hsignificand hunit.le
  by_cases hnormal : x.scale = -1074 ∨ 2 ^ 52 * 2 ^ x.scale ≤ (num : ℚ) / den
  · have hisUnit : IsUnit ((num : ℚ) / den) x.scale := ⟨hleast, by linarith [h.le.2], hnormal⟩
    rw [ofRatio_eq hnum hden hisUnit h.abs_sub_le.1 h.abs_sub_le.2]
    refine congrArg (ofMagnitude negative) ?_
    omega
  · -- what lies below the least significand of a binade has half its unit
    obtain ⟨hscale, hlow⟩ := not_or.mp hnormal
    rw [not_le] at hlow
    have hge := significand_ge hscale
    have hhidden : x.significand = 2 ^ 52 := by
      by_contra hne
      have : (2 : ℚ) ^ 52 + 1 ≤ x.significand := by exact_mod_cast show 2 ^ 52 + 1 ≤ x.significand by omega
      have : (2 ^ 52 + 1) * (2 : ℚ) ^ x.scale ≤ x.size := mul_le_mul_of_nonneg_right this hunit.le
      linarith [h.le.1, x.gapBelow_le]
    have hhalf : (2 : ℚ) ^ (x.scale - 1) = 2 ^ x.scale / 2 := zpow_sub_one₀ (by norm_num) _
    have hgap : x.gapBelow = 2 ^ x.scale / 4 := if_pos ⟨hhidden, hscale⟩
    have hsize : x.size = 2 ^ 52 * 2 ^ x.scale := by rw [size, hhidden]; norm_num
    have hle := h.le.1
    rw [hgap, hsize] at hle
    have hisUnit : IsUnit ((num : ℚ) / den) (x.scale - 1) :=
      ⟨by omega, by rw [hhalf]; linarith, Or.inr (by rw [hhalf]; linarith)⟩
    have hnear : |(num : ℚ) / den - (2 ^ 53 : Nat) * 2 ^ (x.scale - 1)| ≤ 2 ^ (x.scale - 1) / 2 := by
      rw [hhalf, abs_sub_le_iff]
      push_cast
      exact ⟨by linarith, by linarith⟩
    rw [ofRatio_eq hnum hden hisUnit hnear fun _ => by norm_num]
    refine congrArg (ofMagnitude negative) ?_
    omega

/-- A quotient that is a double is that double. -/
theorem ofRatio_eq_of_size {num den : Nat} (hfinite : x.isFinite = true) (hzero : x.isZero = false) (hden : 0 < den)
    (h : (num : ℚ) / den = x.size) (negative : Bool) :
    ofRatio negative num den = ofMagnitude negative x.magnitude :=
  ofRatio_eq_of_rounds hfinite hzero hden (h ▸ x.rounds_size) negative

end RecordService.Double
