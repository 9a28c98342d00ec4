import RecordService.Proofs.Double.Spelled

/-! # Scaling by powers of ten

A document's number is scaled from its digits: they are rounded to a double, and this is multiplied with a power of ten,
or divided by one, which is a double of its own and may be rounded too. Digits below `2 ^ 53` and powers up to `10 ^ 22`
are doubles themselves (`ofNat_size`), so that nothing but the product or quotient is rounded and the number is the
nearest double (`ofParts?_of_rounds`). -/

namespace RecordService.Double

variable {x y z : Double} {m : Nat}

/-! ### Exact integers -/

/-- Each normal significand and scale are those of a double. -/
theorem exists_size {q : Int} (hlow : 2 ^ 52 ≤ m) (hhigh : m < 2 ^ 53) (hleast : -1074 ≤ q) (hgreatest : q ≤ 970) :
    ∃ x : Double, x.isFinite = true ∧ x.isNegative = false ∧ x.isZero = false ∧ x.size = m * 2 ^ q := by
  have hbound : (q + 1074).toNat * 2 ^ 52 + m < infinityBits := by
    rw [infinityBits, twoPow_eq]
    omega
  have hsigned : (q + 1074).toNat * 2 ^ 52 + m < 2 ^ 63 := hbound.trans (by decide)
  have hmagnitude : (ofMagnitude false ((q + 1074).toNat * 2 ^ 52 + m)).magnitude = (q + 1074).toNat * 2 ^ 52 + m :=
    magnitude_ofMagnitude hsigned
  refine ⟨ofMagnitude false ((q + 1074).toNat * 2 ^ 52 + m), ?_, isNegative_ofMagnitude hsigned, ?_, ?_⟩
  · rw [isFinite_iff, hmagnitude]
    exact hbound
  · rw [← Bool.not_eq_true, isZero_iff, hmagnitude]
    omega
  · generalize ofMagnitude false ((q + 1074).toNat * 2 ^ 52 + m) = x at *
    have hfields := x.magnitude_eq_fields
    have hfraction := x.fraction_lt
    have hexponent : x.exponentField = (q + 1074).toNat + 1 := by omega
    have hsignificand : x.significand = m := by
      rw [significand, if_neg (by omega), twoPow_eq]
      omega
    have hscale : x.scale = q := by
      rw [scale, hexponent]
      omega
    rw [size, hsignificand, hscale]

/-- A significand below `2 ^ 53` is shifted to a normal one. -/
theorem exists_shift (hpos : 0 < m) (hlt : m < 2 ^ 53) : ∃ s ≤ 52, 2 ^ 52 ≤ m * 2 ^ s ∧ m * 2 ^ s < 2 ^ 53 := by
  have hlog : m.log2 ≤ 52 := by
    have := (Nat.log2_lt hpos.ne').mpr hlt
    omega
  refine ⟨52 - m.log2, by omega, ?_, ?_⟩
  · calc 2 ^ 52 = 2 ^ m.log2 * 2 ^ (52 - m.log2) := by rw [← pow_add, Nat.add_sub_cancel' hlog]
      _ ≤ m * 2 ^ (52 - m.log2) := Nat.mul_le_mul_right _ (Nat.log2_self_le hpos.ne')
  · calc m * 2 ^ (52 - m.log2) < 2 ^ (m.log2 + 1) * 2 ^ (52 - m.log2) :=
          Nat.mul_lt_mul_of_pos_right Nat.lt_log2_self (by positivity)
      _ = 2 ^ 53 := by rw [← pow_add]; congr 1; omega

/-- Integers with few binary digits are doubles. -/
theorem ofNat_size {j : Nat} (hpos : 0 < m) (hlt : m < 2 ^ 53) (hj : j ≤ 900) :
    (ofNat (m * 2 ^ j)).isFinite = true ∧ (ofNat (m * 2 ^ j)).isNegative = false ∧ (ofNat (m * 2 ^ j)).isZero = false ∧
      (ofNat (m * 2 ^ j)).size = (m * 2 ^ j : Nat) := by
  obtain ⟨s, hs, hlow, hhigh⟩ := exists_shift hpos hlt
  obtain ⟨x, hfinite, hsign, hzero, hsize⟩ := exists_size (q := j - s) hlow hhigh (by omega) (by omega)
  have hvalue : x.size = (m * 2 ^ j : Nat) := by
    rw [hsize, zpow_sub₀ (by norm_num), zpow_natCast, zpow_natCast]
    push_cast
    field_simp
  have hx : ofNat (m * 2 ^ j) = x := by
    rw [ofNat, ofRatio_eq_of_size hfinite hzero Nat.one_pos, ← hsign, ofMagnitude_magnitude]
    rw [hvalue, Nat.cast_one, div_one]
  rw [hx]
  exact ⟨hfinite, hsign, hzero, hvalue⟩

/-- The powers of ten up to `10 ^ 22` are doubles. -/
theorem powerOfTen_size {k : Nat} (hk : k ≤ 22) :
    (powerOfTen k).isFinite = true ∧ (powerOfTen k).isNegative = false ∧ (powerOfTen k).isZero = false ∧
      (powerOfTen k).size = (10 ^ k : Nat) := by
  have hfive : 5 ^ k < 2 ^ 53 := (Nat.pow_le_pow_right (by decide) hk).trans_lt (by decide)
  have hten : 10 ^ k = 5 ^ k * 2 ^ k := Nat.mul_pow 5 2 k
  rw [powerOfTen, tenPow_eq, hten]
  exact ofNat_size (by positivity) hfive (by omega)

/-! ### One rounding -/

/-- A product is rounded to the double in whose interval it lies. -/
theorem mul_eq_of_rounds (hfinite : z.isFinite = true) (hzero : z.isZero = false) (h : z.Rounds (x.size * y.size)) :
    x.mul y = ofMagnitude (x.isNegative != y.isNegative) z.magnitude := by
  have hproduct : x.size * y.size = (x.significand * y.significand : Nat) * 2 ^ (x.scale + y.scale) := by
    rw [size, size, zpow_add₀ (by norm_num)]
    push_cast
    ring
  rw [hproduct] at h
  rw [mul, ofScaled]
  split
  · rename_i hscale
    obtain ⟨n, hn⟩ := Int.eq_ofNat_of_zero_le hscale
    refine ofRatio_eq_of_rounds hfinite hzero Nat.one_pos ?_ _
    rw [hn, zpow_natCast] at h
    rw [hn, twoPow_eq, Int.toNat_natCast, Nat.cast_one, div_one]
    exact_mod_cast h
  · rename_i hscale
    obtain ⟨n, hn⟩ := Int.eq_ofNat_of_zero_le (show 0 ≤ -(x.scale + y.scale) by omega)
    refine ofRatio_eq_of_rounds hfinite hzero (Nat.two_pow_pos _) ?_ _
    rw [← neg_neg (x.scale + y.scale), hn, zpow_neg, zpow_natCast, ← div_eq_mul_inv] at h
    rw [hn, Int.toNat_natCast]
    exact_mod_cast h

/-- A quotient is rounded to the double in whose interval it lies. -/
theorem div_eq_of_rounds (hfinite : z.isFinite = true) (hzero : z.isZero = false) (hy : y.isZero = false)
    (h : z.Rounds (x.size / y.size)) : x.div y = ofMagnitude (x.isNegative != y.isNegative) z.magnitude := by
  obtain ⟨hden, hscaled⟩ := scaled_eq x.significand y.significand (-(x.scale - y.scale)) (significand_pos hy)
  have hquotient : x.size / y.size = x.significand / y.significand / 2 ^ (-(x.scale - y.scale)) := by
    rw [size, size, neg_sub, zpow_sub₀ (by norm_num), div_div_eq_mul_div, mul_div_mul_comm, mul_div_assoc]
  rw [hquotient, ← hscaled] at h
  exact ofRatio_eq_of_rounds hfinite hzero hden h _

theorem xor_signBit (h : m < 2 ^ 63) : m ^^^ 2 ^ 63 = m + 2 ^ 63 := by
  refine Nat.eq_of_testBit_eq fun i => ?_
  rw [Nat.testBit_xor, Nat.testBit_two_pow, Nat.add_comm, ← Nat.mul_one (2 ^ 63), Nat.testBit_two_pow_mul_add 1 h]
  split
  · rename_i hi
    rw [decide_eq_false (by omega), Bool.xor_false]
  · rename_i hi
    have hhigh : m.testBit i = false :=
      Nat.testBit_lt_two_pow (h.trans_le (Nat.pow_le_pow_right (by decide) (by omega)))
    rw [hhigh, Bool.false_xor, Bool.eq_iff_iff, decide_eq_true_eq, Nat.testBit_one_eq_true_iff_self_eq_zero]
    omega

theorem neg_ofMagnitude (h : m < 2 ^ 63) : (ofMagnitude false m).neg = ofMagnitude true m := by
  have hbits : (ofMagnitude false m).bits.toNat = m := toNat_ofMagnitude h
  have hnegative : (ofMagnitude true m).bits.toNat = m + 2 ^ 63 := toNat_ofMagnitude h
  have hsign : (0x8000000000000000 : UInt64).toNat = 2 ^ 63 := rfl
  refine congrArg Double.mk (UInt64.toNat_inj.mp ?_)
  rw [UInt64.toNat_xor, hbits, hsign, xor_signBit h]
  exact hnegative.symm

/-- Few digits and a small power of ten are scaled to the nearest double. -/
theorem ofParts?_of_rounds {c : Nat} {k : Int} (hfinite : z.isFinite = true) (hzero : z.isZero = false)
    (hc : c < 2 ^ 53) (hk : k.natAbs ≤ 22) (h : z.Rounds (c * 10 ^ k)) (negative : Bool) :
    ofParts? negative c k = some (ofMagnitude negative z.magnitude) := by
  have hpos : 0 < c := by
    have := h.pos hzero
    have hc : (0 : ℚ) < c := pos_of_mul_pos_left this (by positivity)
    exact_mod_cast hc
  obtain ⟨-, hsign, -, hsize⟩ := ofNat_size (j := 0) hpos hc (by decide)
  obtain ⟨-, hsign', hzero', hsize'⟩ := powerOfTen_size hk
  rw [pow_zero, mul_one] at hsign hsize
  -- digits and power are doubles themselves, so the product or quotient is rounded only once
  have hscaled : scaleByTen? (ofNat c) k = some (ofMagnitude false z.magnitude) := by
    rw [scaleByTen?, if_pos (by omega)]
    split
    · rename_i hsigned
      obtain ⟨n, rfl⟩ := Int.eq_ofNat_of_zero_le hsigned
      have hmul : (ofNat c).mul (powerOfTen (n : Int).natAbs) = ofMagnitude false z.magnitude := by
        rw [mul_eq_of_rounds hfinite hzero, hsign, hsign']
        · rfl
        · rw [hsize, hsize']
          simpa using h
      have hy : (ofMagnitude false z.magnitude).isFinite = true := by
        rw [isFinite_iff, magnitude_ofMagnitude z.magnitude_lt]
        exact isFinite_iff.mp hfinite
      simp only [hmul, hy, if_true]
    · rename_i hsigned
      obtain ⟨n, hn⟩ := Int.eq_ofNat_of_zero_le (show 0 ≤ -k by omega)
      obtain rfl : k = -n := by omega
      rw [div_eq_of_rounds hfinite hzero hzero', hsign, hsign']
      · rfl
      · rw [hsize, hsize']
        simpa [div_eq_mul_inv] using h
  rw [ofParts?, hscaled, Option.map_some]
  cases negative with
  | true => rw [if_pos rfl, neg_ofMagnitude z.magnitude_lt]
  | false => rfl

end RecordService.Double
