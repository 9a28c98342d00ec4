import RecordService.Double.Reader
import RecordService.Double.Shortest
import RecordService.Proofs.Double.Rounding

/-! # The shortest digits read back

On the grid of seventeen digits a neighbour of a double always rounds to it, so the search for the shortest decimal
finds one that does (`Double.rounds_shortest`), and the decimal is read as the double that it was found for
(`Double.ofDecimal_of_rounds`). -/

namespace RecordService.Double

/-- The number that a decimal is. -/
def Decimal.value (d : Decimal) : ℚ :=
  d.digits * 10 ^ d.exponent

theorem ten_pos (k : Int) : (0 : ℚ) < 10 ^ k := by positivity

variable {x : Double} {k : Int} {c : Nat}

/-! ### The neighbourhood in quarters of the unit -/

theorem neighbourhood_denominator_pos (x : Double) : 0 < x.neighbourhood.denominator := by
  simp only [neighbourhood, twoPow_eq]
  split <;> positivity

/-- The parts of a neighbourhood are numbers of quarters of the unit. -/
theorem quarters (x : Double) (n : Nat) :
    ((n * (if 0 ≤ x.scale then twoPow x.scale.toNat else 1) : Nat) : ℚ) / x.neighbourhood.denominator =
      n * (2 ^ x.scale / 4) := by
  simp only [neighbourhood, twoPow_eq]
  split
  · rename_i h
    obtain ⟨m, hm⟩ := Int.eq_ofNat_of_zero_le h
    rw [hm]
    simp
    ring
  · rename_i h
    obtain ⟨m, hm⟩ := Int.eq_ofNat_of_zero_le (show 0 ≤ -x.scale by omega)
    obtain hm' : x.scale = -m := by omega
    rw [hm']
    simp
    field_simp

theorem neighbourhood_value (x : Double) :
    (x.neighbourhood.value : ℚ) / x.neighbourhood.denominator = x.size := by
  have h := x.quarters (4 * x.significand)
  have hvalue : x.neighbourhood.value = 4 * x.significand * if 0 ≤ x.scale then twoPow x.scale.toNat else 1 := rfl
  rw [hvalue, h, size]
  push_cast
  ring

theorem neighbourhood_high (x : Double) :
    (x.neighbourhood.high : ℚ) / x.neighbourhood.denominator = x.size + 2 ^ x.scale / 2 := by
  have h := x.quarters (4 * x.significand + 2)
  have hhigh : x.neighbourhood.high = (4 * x.significand + 2) * if 0 ≤ x.scale then twoPow x.scale.toNat else 1 := rfl
  rw [hhigh, h, size]
  push_cast
  ring

theorem neighbourhood_low (hzero : x.isZero = false) :
    (x.neighbourhood.low : ℚ) / x.neighbourhood.denominator = x.size - x.gapBelow := by
  have hpos := significand_pos hzero
  have hcondition : (x.significand = twoPow 52 && 1 < x.exponentField) = true ↔
      x.significand = 2 ^ 52 ∧ x.scale ≠ -1074 := by
    rw [Bool.and_eq_true, decide_eq_true_eq, decide_eq_true_eq, twoPow_eq, scale]
    refine and_congr_right fun _ => ?_
    omega
  have hlow : x.neighbourhood.low =
      (4 * x.significand - if x.significand = twoPow 52 && 1 < x.exponentField then 1 else 2) *
        if 0 ≤ x.scale then twoPow x.scale.toNat else 1 := rfl
  rw [hlow, quarters, size, gapBelow]
  simp only [hcondition]
  split
  · rw [Nat.cast_sub (by omega)]
    push_cast
    ring
  · rw [Nat.cast_sub (by omega)]
    push_cast
    ring

/-- A decimal and a fraction are compared across. -/
theorem decimal_across (c : Nat) (k : Int) {den : Nat} (hden : 0 < den) (t : Nat) :
    let unit := if 0 ≤ k then 1 else tenPow (-k).toNat
    let number := if 0 ≤ k then c * tenPow k.toNat * den else c * den
    (t * unit ≤ number ↔ (t : ℚ) / den ≤ c * 10 ^ k) ∧ (number ≤ t * unit ↔ c * 10 ^ k ≤ (t : ℚ) / den) := by
  intro unit number
  have hden' : (0 : ℚ) < den := by exact_mod_cast hden
  obtain ⟨hunit, hnumber⟩ : (0 : ℚ) < unit ∧ (number : ℚ) = c * 10 ^ k * den * unit := by
    simp only [unit, number, tenPow_eq]
    split
    · rename_i hk
      obtain ⟨n, rfl⟩ := Int.eq_ofNat_of_zero_le hk
      exact ⟨by norm_num, by push_cast; simp⟩
    · rename_i hk
      obtain ⟨n, hn⟩ := Int.eq_ofNat_of_zero_le (show 0 ≤ -k by omega)
      obtain rfl : k = -n := by omega
      exact ⟨by positivity, by simp; field_simp⟩
  constructor
  · rw [← Nat.cast_le (α := ℚ), Nat.cast_mul, hnumber, mul_le_mul_iff_left₀ hunit, div_le_iff₀ hden']
  · rw [← Nat.cast_le (α := ℚ), Nat.cast_mul, hnumber, mul_le_mul_iff_left₀ hunit, le_div_iff₀ hden']

/-- The search accepts what rounds to the double. -/
theorem contains_iff (hzero : x.isZero = false) : x.neighbourhood.contains c k = true ↔ x.Rounds (c * 10 ^ k) := by
  have hden := x.neighbourhood_denominator_pos
  obtain ⟨hlow, hlow'⟩ := decimal_across c k hden x.neighbourhood.low
  obtain ⟨hhigh, hhigh'⟩ := decimal_across c k hden x.neighbourhood.high
  rw [neighbourhood_low hzero] at hlow hlow'
  rw [neighbourhood_high] at hhigh hhigh'
  have hclosed : x.neighbourhood.closed = decide (x.significand % 2 = 0) := rfl
  unfold Neighbourhood.contains Rounds
  simp only [hclosed, decide_eq_true_eq]
  split
  · rw [Bool.and_eq_true, decide_eq_true_eq, decide_eq_true_eq, hlow, hhigh']
  · rw [Bool.and_eq_true, decide_eq_true_eq, decide_eq_true_eq, ← not_le, ← not_le, hlow', hhigh, not_le, not_le]

/-! ### The search -/

namespace Neighbourhood

variable {n : Neighbourhood} {tie : Tie}

theorem contains_of_hit? (h : n.hit? tie k = some c) : n.contains c k = true := by
  unfold hit? at h
  generalize n.floorOn k = found at h
  obtain ⟨floor, side⟩ := found
  cases hbelow : n.contains floor k <;> cases habove : n.contains (floor + 1) k <;> simp only [hbelow, habove] at h
  · cases h
  · exact Option.some.inj h ▸ habove
  · exact Option.some.inj h ▸ hbelow
  · -- the even one of two neighbours is one of them
    have heven : floor + floor % 2 = floor ∨ floor + floor % 2 = floor + 1 := by omega
    cases side <;> cases tie <;> grind

theorem hit?_isSome (h : n.contains (n.floorOn k).1 k = true ∨ n.contains ((n.floorOn k).1 + 1) k = true) :
    (n.hit? tie k).isSome = true := by
  unfold hit?
  generalize n.floorOn k = found at *
  obtain ⟨floor, side⟩ := found
  cases hbelow : n.contains floor k <;> cases habove : n.contains (floor + 1) k <;> simp only [hbelow, habove] at h ⊢
  · cases h <;> contradiction
  · rfl
  · rfl
  · cases side <;> cases tie <;> rfl

/-- The search ends on a grid with a hit, if there is one within its reach. -/
theorem contains_search (fuel : Nat) (h : ∃ j < fuel, (n.hit? tie (k - j)).isSome = true) :
    n.contains (n.search tie k fuel).digits (n.search tie k fuel).exponent = true := by
  -- on the fuel: each grid without a hit is one step less to the one that has it
  induction fuel generalizing k with
  | zero =>
    obtain ⟨j, hj, -⟩ := h
    omega
  | succ fuel ih =>
    unfold search
    cases hhit : n.hit? tie k with
    | some c => exact contains_of_hit? hhit
    | none =>
      obtain ⟨j, hj, hsome⟩ := h
      cases j with
      | zero =>
        rw [Nat.cast_zero, sub_zero, hhit] at hsome
        cases hsome
      | succ j =>
        refine ih ⟨j, by omega, ?_⟩
        rw [show k - 1 - (j : Int) = k - (j + 1 : Nat) by push_cast; ring]
        exact hsome

end Neighbourhood

/-! ### Seventeen digits -/

theorem lt_pow_digitCount (n : Nat) : n < 10 ^ digitCount n :=
  (Nat.length_toDigits_le_iff (by decide) Nat.length_toDigits_pos).mp (le_refl _)

theorem pow_digitCount_le {n : Nat} (hn : 0 < n) : 10 ^ (digitCount n - 1) ≤ n := by
  by_contra hlt
  rw [not_le] at hlt
  rcases Nat.eq_zero_or_pos (digitCount n - 1) with hzero | hpos
  · rw [hzero] at hlt
    omega
  · have : digitCount n ≤ digitCount n - 1 := (Nat.length_toDigits_le_iff (by decide) hpos).mpr hlt
    omega

/-- The first digit of a fraction stands at its decimal point. -/
theorem pow_decimalPoint_le {num den : Nat} (hnum : 0 < num) (hden : 0 < den) :
    (10 : ℚ) ^ (decimalPoint num den - 1) ≤ num / den := by
  have hnum' : (0 : ℚ) < num := by exact_mod_cast hnum
  have hden' : (0 : ℚ) < den := by exact_mod_cast hden
  unfold decimalPoint
  split
  · rename_i hle
    have hpow := pow_digitCount_le (Nat.div_pos hle hden)
    have hdigits : 0 < digitCount (num / den) := Nat.length_toDigits_pos
    rw [Nat.le_div_iff_mul_le hden] at hpow
    rw [show (digitCount (num / den) : Int) - 1 = (digitCount (num / den) - 1 : Nat) by omega, zpow_natCast,
      le_div_iff₀ hden']
    exact_mod_cast hpow
  · have hdigits : 0 < digitCount (den / num) := Nat.length_toDigits_pos
    -- the digits of the inverse tell where the first digit is, one place further up at a power of ten
    by_cases heq : den = num * tenPow (digitCount (den / num) - 1)
    · have heq' : (den : ℚ) = num * 10 ^ (digitCount (den / num) - 1) := by
        rw [tenPow_eq] at heq
        exact_mod_cast heq
      rw [if_pos heq, show 2 - (digitCount (den / num) : Int) - 1 = -(digitCount (den / num) - 1 : Nat) by omega, zpow_neg,
        zpow_natCast, heq']
      refine le_of_eq ?_
      field_simp
    · have hlt := lt_pow_digitCount (den / num)
      rw [Nat.div_lt_iff_lt_mul hnum] at hlt
      have hlt' : (den : ℚ) < 10 ^ digitCount (den / num) * num := by exact_mod_cast hlt
      rw [if_neg heq, show 1 - (digitCount (den / num) : Int) - 1 = -(digitCount (den / num) : Nat) by omega, zpow_neg,
        zpow_natCast, le_div_iff₀ hden', inv_mul_le_iff₀ (by positivity)]
      exact hlt'.le

/-- The interval of a double is wider than a step of seventeen digits. -/
theorem lt_interval (x : Double) : x.size / 10 ^ 16 < x.gapBelow + 2 ^ x.scale / 2 := by
  have hunit := unit_pos x.scale
  unfold gapBelow size
  split
  · rename_i h
    rw [h.1]
    push_cast
    linarith
  · have hlt : (x.significand : ℚ) < 2 ^ 53 := by exact_mod_cast x.significand_lt
    have : x.significand * (2 : ℚ) ^ x.scale < 2 ^ 53 * 2 ^ x.scale := mul_lt_mul_of_pos_right hlt hunit
    linarith

/-- What is strictly within the interval rounds to the double. -/
theorem rounds_of_lt {r : ℚ} (hlow : x.size - x.gapBelow < r) (hhigh : r < x.size + 2 ^ x.scale / 2) : x.Rounds r := by
  unfold Rounds
  split
  · exact ⟨hlow.le, hhigh.le⟩
  · exact ⟨hlow, hhigh⟩

/-- The neighbour below on a grid. -/
theorem floorOn_le (x : Double) (k : Int) :
    (x.neighbourhood.floorOn k).1 * (10 : ℚ) ^ k ≤ x.size ∧
      x.size < ((x.neighbourhood.floorOn k).1 + 1 : Nat) * (10 : ℚ) ^ k := by
  have hden := x.neighbourhood_denominator_pos
  rw [← x.neighbourhood_value, Neighbourhood.floorOn]
  generalize x.neighbourhood.value = num
  generalize x.neighbourhood.denominator = den at *
  have hden' : (den : ℚ) ≠ 0 := by exact_mod_cast hden.ne'
  -- without negative powers of ten the neighbour is a quotient of natural numbers
  obtain ⟨a, ha⟩ : ∃ a, a = if 0 ≤ k then num else num * tenPow (-k).toNat := ⟨_, rfl⟩
  obtain ⟨b, hb⟩ : ∃ b, b = if 0 ≤ k then den * tenPow k.toNat else den := ⟨_, rfl⟩
  obtain ⟨hpos, hquotient⟩ : 0 < b ∧ (num : ℚ) / den = a / b * 10 ^ k := by
    rw [ha, hb]
    simp only [tenPow_eq]
    split
    · rename_i hk
      obtain ⟨n, rfl⟩ := Int.eq_ofNat_of_zero_le hk
      exact ⟨by positivity, by simp; field_simp⟩
    · rename_i hk
      obtain ⟨n, hn⟩ := Int.eq_ofNat_of_zero_le (show 0 ≤ -k by omega)
      obtain rfl : k = -n := by omega
      exact ⟨hden, by simp; field_simp⟩
  have hpos' : (0 : ℚ) < b := by exact_mod_cast hpos
  simp only [← ha, ← hb, hquotient]
  rw [mul_le_mul_iff_left₀ (ten_pos k), mul_lt_mul_iff_left₀ (ten_pos k), le_div_iff₀ hpos', div_lt_iff₀ hpos']
  exact ⟨by exact_mod_cast Nat.div_mul_le_self a b, by
    rw [mul_comm]; exact_mod_cast Nat.lt_mul_div_succ a hpos⟩

/-- A grid whose step is below seventeen digits has a number that rounds to the double. -/
theorem hit?_fine (hzero : x.isZero = false) (tie : Tie) (h : (10 : ℚ) ^ k ≤ x.size / 10 ^ 16) :
    (x.neighbourhood.hit? tie k).isSome = true := by
  obtain ⟨hbelow, habove⟩ := x.floorOn_le k
  have hstep : (((x.neighbourhood.floorOn k).1 + 1 : Nat) : ℚ) * 10 ^ k =
      (x.neighbourhood.floorOn k).1 * 10 ^ k + 10 ^ k := by
    push_cast
    ring
  have hwidth := x.lt_interval
  have hgap := x.gapBelow_pos
  have hunit := unit_pos x.scale
  refine Neighbourhood.hit?_isSome ?_
  rw [contains_iff hzero, contains_iff hzero]
  -- if the neighbour below is out of the interval, the one above is in it
  by_cases hin : x.size - x.gapBelow < (x.neighbourhood.floorOn k).1 * 10 ^ k
  · exact Or.inl (rounds_of_lt hin (by linarith))
  · exact Or.inr (rounds_of_lt (by linarith) (by linarith))

/-- The shortest decimal of a double rounds to it. -/
theorem rounds_shortest (hzero : x.isZero = false) (tie : Tie) : x.Rounds (x.shortest tie).value := by
  have hvalue : 0 < x.neighbourhood.value := by
    have hpos := significand_pos hzero
    simp only [neighbourhood, twoPow_eq]
    split <;> positivity
  have hfirst := pow_decimalPoint_le hvalue x.neighbourhood_denominator_pos
  rw [neighbourhood_value] at hfirst
  rw [shortest, if_neg (by simp [hzero])]
  dsimp only
  generalize decimalPoint x.neighbourhood.value x.neighbourhood.denominator - 1 = k at *
  refine (contains_iff hzero).mp (Neighbourhood.contains_search 17 ⟨16, by decide, hit?_fine hzero tie ?_⟩)
  rw [Nat.cast_ofNat, zpow_sub₀ (by norm_num), show (16 : Int) = (16 : Nat) from rfl, zpow_natCast]
  exact div_le_div_of_nonneg_right hfirst (by norm_num)

theorem digits_shortest_pos (hzero : x.isZero = false) (tie : Tie) : 0 < (x.shortest tie).digits := by
  have hpos := (rounds_shortest hzero tie).pos hzero
  refine Nat.pos_of_ne_zero fun h => ?_
  rw [Decimal.value, h, Nat.cast_zero, zero_mul] at hpos
  exact lt_irrefl _ hpos

/-! ### Reading a decimal -/

/-- What rounds to a finite double is not beyond the range of doubles on either side. -/
theorem Rounds.range {r : ℚ} (h : x.Rounds r) (hfinite : x.isFinite = true) (hzero : x.isZero = false) :
    (10 : ℚ) ^ (-400 : Int) ≤ r ∧ r < 10 ^ (311 : Int) := by
  have hunit := unit_pos x.scale
  constructor
  · have hleast : (2 : ℚ) ^ (-1074 : Int) ≤ 2 ^ x.scale := zpow_le_zpow_right₀ (by norm_num) x.neg_le_scale
    have hone : (1 : ℚ) ≤ x.significand := by exact_mod_cast significand_pos hzero
    have hsize : (2 : ℚ) ^ x.scale ≤ x.size := le_mul_of_one_le_left hunit.le hone
    have hsmall : (10 : ℚ) ^ (-400 : Int) ≤ 2 ^ (-1074 : Int) / 2 := by
      have : 2 ^ 1075 ≤ 10 ^ 400 := by decide +kernel
      have : (2 : ℚ) ^ 1075 ≤ 10 ^ 400 := by exact_mod_cast this
      rw [div_eq_mul_inv, show (2 : ℚ) ^ (-1074 : Int) * 2⁻¹ = 2 ^ (-(1075 : Nat) : Int) by
        rw [← zpow_sub_one₀ (by norm_num)]; rfl, show (-400 : Int) = -(400 : Nat) from rfl, zpow_neg, zpow_neg,
        zpow_natCast, zpow_natCast]
      exact inv_anti₀ (by positivity) this
    -- the interval ends less than half the least unit below the double
    linarith [h.le.1, x.gapBelow_le]
  · have hscale : (2 : ℚ) ^ x.scale ≤ 2 ^ (971 : Int) := zpow_le_zpow_right₀ (by norm_num) (scale_le hfinite)
    have hlt : (x.significand : ℚ) + 1 ≤ 2 ^ 53 := by exact_mod_cast x.significand_lt
    have hsize : (x.significand + 1) * (2 : ℚ) ^ x.scale ≤ 2 ^ 53 * 2 ^ (971 : Int) :=
      mul_le_mul hlt hscale hunit.le (by norm_num)
    have hlarge : (2 : ℚ) ^ 53 * 2 ^ (971 : Int) < 10 ^ (311 : Int) := by
      have : 2 ^ 53 * 2 ^ 971 < 10 ^ 311 := by decide +kernel
      exact_mod_cast this
    -- and less than a unit above it, which is within the next significand
    calc r ≤ x.size + 2 ^ x.scale / 2 := h.le.2
      _ ≤ x.size + 2 ^ x.scale := by
        have := half_le_self hunit.le
        exact add_le_add_right this _
      _ = (x.significand + 1) * (2 : ℚ) ^ x.scale := by
        rw [size]
        ring
      _ ≤ 2 ^ 53 * 2 ^ (971 : Int) := hsize
      _ < 10 ^ (311 : Int) := hlarge

/-- A decimal that rounds to a double is read as it. -/
theorem ofDecimal_of_rounds {digits : Nat} {exponent : Int} (hfinite : x.isFinite = true) (hzero : x.isZero = false)
    (h : x.Rounds (digits * 10 ^ exponent)) (negative : Bool) :
    ofDecimal negative digits exponent = ofMagnitude negative x.magnitude := by
  obtain ⟨hlow, hhigh⟩ := h.range hfinite hzero
  have hpos := h.pos hzero
  have hdigits : digits ≠ 0 := by
    rintro rfl
    simp at hpos
  have hone : (1 : ℚ) ≤ digits := by exact_mod_cast Nat.one_le_iff_ne_zero.mpr hdigits
  have hlarge : ¬310 < exponent := by
    intro hlt
    have : (10 : ℚ) ^ (311 : Int) ≤ 10 ^ exponent := zpow_le_zpow_right₀ (by norm_num) hlt
    have : (10 : ℚ) ^ exponent ≤ digits * 10 ^ exponent := le_mul_of_one_le_left (ten_pos exponent).le hone
    linarith
  have hsmall : ¬exponent + digits.log2 < -400 := by
    intro hlt
    have htwo : (digits : ℚ) < 10 ^ (digits.log2 + 1) := by
      have : digits < 2 ^ (digits.log2 + 1) := Nat.lt_log2_self
      exact_mod_cast this.trans_le (Nat.pow_le_pow_left (by decide) _)
    have hpow : (10 : ℚ) ^ (digits.log2 + 1) * 10 ^ exponent ≤ 10 ^ (-400 : Int) := by
      rw [← zpow_natCast, ← zpow_add₀ (by norm_num)]
      exact zpow_le_zpow_right₀ (by norm_num) (by push_cast; omega)
    have := mul_lt_mul_of_pos_right htwo (ten_pos exponent)
    linarith
  rw [ofDecimal, if_neg hdigits, if_neg hlarge, if_neg hsmall]
  simp only [tenPow_eq]
  split
  · rename_i hk
    obtain ⟨n, rfl⟩ := Int.eq_ofNat_of_zero_le hk
    refine ofRatio_eq_of_rounds hfinite hzero (by decide) ?_ negative
    simpa using h
  · rename_i hk
    obtain ⟨n, hn⟩ := Int.eq_ofNat_of_zero_le (show 0 ≤ -exponent by omega)
    obtain rfl : exponent = -n := by omega
    refine ofRatio_eq_of_rounds hfinite hzero (by positivity) ?_ negative
    simpa [div_eq_mul_inv] using h

end RecordService.Double
