import Mathlib.Data.List.DropRight
import RecordService.Double.Text
import RecordService.Proofs.Double.Digits

/-! # The text of a double

A float text is spelled by digits before a point, digits behind it and an exponent (`Parts`). A reader finds the same
parts again (`Spelling.ofText?_text`), and they say the decimal that was written (`Decimal.value_parts`). So a finite
double is read back from its text in every style (`Double.ofText?_write`). -/

namespace RecordService.Double

/-! ### Runs of digits -/

def IsDigits (ds : List Char) : Prop :=
  ∀ c ∈ ds, c.isDigit = true

theorem IsDigits.append {s t : List Char} (hs : IsDigits s) (ht : IsDigits t) : IsDigits (s ++ t) := fun c hc =>
  (List.mem_append.mp hc).elim (hs c) (ht c)

theorem IsDigits.of_sublist {s t : List Char} (h : IsDigits t) (hs : s.Sublist t) : IsDigits s := fun c hc =>
  h c (hs.mem hc)

theorem isDigits_zeros (n : Nat) : IsDigits (List.replicate n '0') := fun _ hc =>
  List.eq_of_mem_replicate hc ▸ rfl

theorem isDigits_toDigits (n : Nat) : IsDigits (Nat.toDigits 10 n) := fun _ hc =>
  Nat.isDigit_of_mem_toDigits (by decide) (by decide) hc

theorem digitsValue_eq (ds : List Char) : digitsValue ds = Nat.ofDigitChars 10 ds 0 := by
  simp only [digitsValue, Nat.ofDigitChars_eq_foldl, Nat.mul_comm]

@[simp] theorem digitsValue_toDigits (n : Nat) : digitsValue (Nat.toDigits 10 n) = n := by
  rw [digitsValue_eq, Nat.ofDigitChars_ten_toDigits]

theorem digitsValue_append (s t : List Char) :
    digitsValue (s ++ t) = digitsValue s * 10 ^ t.length + digitsValue t := by
  rw [digitsValue_eq, digitsValue_eq, digitsValue_eq, Nat.ofDigitChars_append, Nat.ofDigitChars_eq_ofDigitChars_zero,
    Nat.mul_comm]

@[simp] theorem digitsValue_zeros (n : Nat) : digitsValue (List.replicate n '0') = 0 := by
  rw [digitsValue_eq, Nat.ofDigitChars_replicate_zero, Nat.mul_zero]

theorem digitsValue_lt {ds : List Char} (h : IsDigits ds) : digitsValue ds < 10 ^ ds.length := by
  induction ds with
  | nil => decide
  | cons d ds ih =>
    have hd := (Char.isDigit_iff_toNat.mp (h d List.mem_cons_self)).2
    have hnine : '9'.toNat = '0'.toNat + 9 := rfl
    have hone : digitsValue [d] ≤ 9 := by
      simp only [digitsValue, List.foldl_cons, List.foldl_nil]
      omega
    have htail := ih fun c hc => h c (List.mem_cons_of_mem d hc)
    rw [← List.singleton_append, digitsValue_append, List.length_append, Nat.pow_add, List.length_singleton, pow_one]
    calc digitsValue [d] * 10 ^ ds.length + digitsValue ds
        < 9 * 10 ^ ds.length + 10 ^ ds.length := Nat.add_lt_add_of_le_of_lt (Nat.mul_le_mul_right _ hone) htail
      _ = 10 * 10 ^ ds.length := by ring

/-- A number has no zero in front. -/
theorem head?_toDigits {n : Nat} (hn : 0 < n) : (Nat.toDigits 10 n).head? ≠ some '0' := by
  intro hhead
  obtain ⟨rest, hrest⟩ := List.head?_eq_some_iff.mp hhead
  have hvalue := digitsValue_toDigits n
  have hlow := pow_digitCount_le hn
  have hdigits : IsDigits rest := (isDigits_toDigits n).of_sublist (hrest ▸ List.sublist_cons_self _ _)
  have hzero : digitsValue ['0'] = 0 := rfl
  rw [digitCount, hrest, List.length_cons, Nat.add_sub_cancel] at hlow
  rw [hrest, ← List.singleton_append, digitsValue_append, hzero, Nat.zero_mul, Nat.zero_add] at hvalue
  have := digitsValue_lt hdigits
  omega

/-- What follows a run of digits does not go on with one. -/
def Stops (rest : List Char) : Prop :=
  ∀ c ∈ rest.head?, c.isDigit = false

theorem takeWhile_digits {ds rest : List Char} (hds : IsDigits ds) (hrest : Stops rest) :
    (ds ++ rest).takeWhile Char.isDigit = ds := by
  rw [List.takeWhile_append_of_pos hds]
  cases rest with
  | nil => simp
  | cons c rest => simp [hrest c rfl]

theorem dropWhile_digits {ds rest : List Char} (hds : IsDigits ds) (hrest : Stops rest) :
    (ds ++ rest).dropWhile Char.isDigit = rest := by
  rw [List.dropWhile_append_of_pos hds]
  cases rest with
  | nil => rfl
  | cons c rest => simp [hrest c rfl]

/-! ### Signs -/

/-- The sign in front of digits. -/
def signText (negative : Bool) : List Char :=
  if negative then ['-'] else []

theorem takeSign_signText {body : List Char} (h : ∀ c ∈ body.head?, c.isDigit = true) (negative : Bool) :
    takeSign (signText negative ++ body) = (negative, body) := by
  cases negative with
  | true => rfl
  | false =>
    rw [signText, if_neg Bool.false_ne_true, List.nil_append, takeSign.eq_def]
    split
    · exact absurd (h '-' rfl) (by decide)
    · exact absurd (h '+' rfl) (by decide)
    · rfl

theorem IsDigits.head? {ds : List Char} (h : IsDigits ds) : ∀ c ∈ ds.head?, c.isDigit = true := fun c hc =>
  h c (List.mem_of_mem_head? hc)

/-- The digits of an integer behind its sign. -/
theorem toList_toString (i : Int) : (toString i).toList = signText (i < 0) ++ Nat.toDigits 10 i.natAbs := by
  cases i with
  | ofNat n => simp [signText, toString, Int.repr, Nat.toList_repr]
  | negSucc n => simp [signText, toString, Int.repr, Nat.toList_repr]

theorem toString_int_inj {i j : Int} (h : toString i = toString j) : i = j := by
  have hread := congrArg (fun s : String => takeSign s.toList) h
  simp only [toList_toString, takeSign_signText (isDigits_toDigits _).head?, Prod.mk.injEq, decide_eq_decide] at hread
  have habs := congrArg digitsValue hread.2
  rw [digitsValue_toDigits, digitsValue_toDigits] at habs
  omega

/-! ### The parts of a text -/

/-- A decimal as it is spelled, without its sign. -/
structure Parts where
  whole : List Char
  places : List Char
  exponent : Option Int

namespace Parts

/-- The text of an exponent. -/
def exponentText (plus : Bool) : Option Int → List Char
  | none => []
  | some e => 'e' :: (if e < 0 then ['-'] else if plus then ['+'] else []) ++ Nat.toDigits 10 e.natAbs

def text (plus : Bool) (p : Parts) : List Char :=
  p.whole ++ ((if p.places.isEmpty then [] else '.' :: p.places) ++ exponentText plus p.exponent)

/-- There are digits in front of the point, and a zero only if it is the one digit there. -/
structure WellFormed (p : Parts) : Prop where
  whole_ne : p.whole ≠ []
  whole : IsDigits p.whole
  places : IsDigits p.places
  leading : p.whole.head? = some '0' → p.whole = ['0']

def significand (p : Parts) : Nat :=
  digitsValue (p.whole ++ p.places)

def scale (p : Parts) : Int :=
  p.exponent.getD 0 - p.places.length

/-- The number that is spelled. -/
def value (p : Parts) : ℚ :=
  p.significand * 10 ^ p.scale

variable {p : Parts} {plus : Bool}

theorem stops_exponentText (plus : Bool) (e : Option Int) : Stops (exponentText plus e) := by
  cases e with
  | none => simp [Stops, exponentText]
  | some e => simp [Stops, exponentText]

theorem takeSign_exponent {body : List Char} (h : ∀ c ∈ body.head?, c.isDigit = true) (plus : Bool) (e : Int) :
    takeSign ((if e < 0 then ['-'] else if plus then ['+'] else []) ++ body) = (decide (e < 0), body) := by
  have hplain := takeSign_signText h
  by_cases he : e < 0
  · rw [if_pos he, decide_eq_true he]
    exact hplain true
  · rw [if_neg he, decide_eq_false he]
    cases plus
    · exact hplain false
    · rfl

/-- The digits of an exponent and its sign are the exponent. -/
theorem signed_natAbs (e : Int) : (if decide (e < 0) = true then -(e.natAbs : Int) else e.natAbs) = e := by
  simp only [decide_eq_true_eq]
  omega

theorem exponentPart?_exponentText (e : Option Int) : exponentPart? (exponentText plus e) = some (e.getD 0) := by
  cases e with
  | none => rfl
  | some e =>
    have hne : (Nat.toDigits 10 e.natAbs).isEmpty = false := by simp [Nat.toDigits_ne_nil]
    have hall : (Nat.toDigits 10 e.natAbs).all Char.isDigit = true := List.all_eq_true.mpr (isDigits_toDigits _)
    simp only [exponentText, exponentPart?, List.cons_append, beq_self_eq_true, Bool.true_or, if_true,
      takeSign_exponent (isDigits_toDigits e.natAbs).head?, hne, hall, Bool.not_true, Bool.or_self, Bool.false_eq_true,
      if_false, digitsValue_toDigits, Option.getD_some, signed_natAbs]

/-- What stands behind the digits in front of the point. -/
theorem stops_places {rest : List Char} (h : Stops rest) (places : List Char) :
    Stops ((if places.isEmpty then [] else '.' :: places) ++ rest) := by
  split
  · exact h
  · simp [Stops]

theorem WellFormed.head?_text (h : p.WellFormed) (plus : Bool) : ∀ c ∈ (p.text plus).head?, c.isDigit = true := by
  rw [text, List.head?_append_of_ne_nil _ h.whole_ne]
  exact h.whole.head?

/-- A reader finds the parts of which a text was made. -/
theorem ofText?_text (h : p.WellFormed) (negative : Bool) :
    Spelling.ofText? (signText negative ++ p.text plus) = some ⟨negative, p.whole, p.places, p.exponent.getD 0⟩ := by
  have hsign := takeSign_signText (h.head?_text plus) negative
  have hstops := stops_places (stops_exponentText plus p.exponent) p.places
  have hwhole := takeWhile_digits h.whole hstops
  have hrest := dropWhile_digits h.whole hstops
  have hempty : p.whole.isEmpty = false := by simp [h.whole_ne]
  unfold Spelling.ofText?
  rw [hsign]
  dsimp only
  rw [text, hwhole, hrest, hempty]
  rw [Bool.false_and, if_neg Bool.false_ne_true]
  cases hplaces : p.places with
  | nil =>
    -- no exponent begins with a point
    have hpoint : ∀ rest, [] ++ exponentText plus p.exponent ≠ '.' :: rest := by
      cases p.exponent <;> simp [exponentText]
    rw [List.isEmpty_nil, if_pos rfl]
    split
    · rename_i rest heq
      exact absurd heq (hpoint rest)
    · rw [List.nil_append, exponentPart?_exponentText]
      rfl
  | cons c places =>
    have hplaces' : IsDigits (c :: places) := hplaces ▸ h.places
    rw [List.isEmpty_cons, if_neg Bool.false_ne_true, List.cons_append]
    simp only [takeWhile_digits hplaces' (stops_exponentText plus _),
      dropWhile_digits hplaces' (stops_exponentText plus _), exponentPart?_exponentText, Option.map_some]

end Parts

/-! ### The parts of a decimal -/

variable {d : Decimal} {style : Style}

/-- The digits of a decimal without the zeros at their end. -/
def Decimal.stripped (d : Decimal) : List Char :=
  ((Nat.toDigits 10 d.digits).reverse.dropWhile (· == '0')).reverse

/-- The place of the point behind the first digit. -/
def Decimal.point (d : Decimal) : Int :=
  d.exponent + (Nat.toDigits 10 d.digits).length

/-- A decimal as a style spells it. -/
def Decimal.parts (d : Decimal) (style : Style) : Parts :=
  let digits := d.stripped
  if style.isPositional (d.point - 1) then
    if d.point ≤ 0 then ⟨['0'], List.replicate (-d.point).toNat '0' ++ digits, none⟩
    else if digits.length ≤ d.point.toNat then
      ⟨digits ++ List.replicate (d.point.toNat - digits.length) '0', if style.fraction then ['0'] else [], none⟩
    else ⟨digits.take d.point.toNat, digits.drop d.point.toNat, none⟩
  else ⟨digits.take 1, digits.drop 1, some (d.point - 1)⟩

theorem Decimal.stripped_prefix (d : Decimal) : d.stripped <+: Nat.toDigits 10 d.digits :=
  List.rdropWhile_prefix _ _

/-- The digits that are left and the zeros that are not. -/
theorem Decimal.toDigits_eq (d : Decimal) :
    Nat.toDigits 10 d.digits =
      d.stripped ++ List.replicate ((Nat.toDigits 10 d.digits).length - d.stripped.length) '0' := by
  have hsplit : d.stripped ++ (Nat.toDigits 10 d.digits).rtakeWhile (· == '0') = Nat.toDigits 10 d.digits :=
    List.rdropWhile_append_rtakeWhile
  have hzeros : (Nat.toDigits 10 d.digits).rtakeWhile (· == '0') =
      List.replicate ((Nat.toDigits 10 d.digits).length - d.stripped.length) '0' := by
    refine List.eq_replicate_iff.mpr ⟨?_, fun c hc => ?_⟩
    · have := congrArg List.length hsplit
      rw [List.length_append] at this
      omega
    · exact beq_iff_eq.mp (@List.mem_rtakeWhile_imp _ (· == '0') _ _ hc)
  rw [← hzeros, hsplit]

theorem Decimal.stripped_ne (hd : 0 < d.digits) : d.stripped ≠ [] := by
  intro hnil
  have hvalue := congrArg digitsValue d.toDigits_eq
  rw [hnil, List.nil_append, digitsValue_toDigits, digitsValue_zeros] at hvalue
  omega

theorem Decimal.head?_stripped (hd : 0 < d.digits) : d.stripped.head? ≠ some '0' := by
  obtain ⟨c, rest, hstripped⟩ := List.exists_cons_of_ne_nil (Decimal.stripped_ne hd)
  have hhead := head?_toDigits hd
  rw [d.toDigits_eq, hstripped] at hhead
  rw [hstripped]
  exact hhead

theorem Decimal.isDigits_stripped (d : Decimal) : IsDigits d.stripped :=
  (isDigits_toDigits d.digits).of_sublist d.stripped_prefix.sublist

/-- The written text of a decimal is that of its parts. -/
theorem Decimal.write_eq (hd : 0 < d.digits) : d.write style = (d.parts style).text style.plus := by
  obtain ⟨c, rest, hstripped⟩ := List.exists_cons_of_ne_nil (Decimal.stripped_ne hd)
  have hfold : ((Nat.toDigits 10 d.digits).reverse.dropWhile (· == '0')).reverse = d.stripped := rfl
  have hpoint : d.exponent + (Nat.toDigits 10 d.digits).length = d.point := rfl
  simp only [Decimal.write, Decimal.parts, hfold, hpoint]
  split
  · simp only [placePoint]
    split
    · simp [Parts.text, Parts.exponentText, hstripped]
    · split
      · cases style.fraction <;> simp [Parts.text, Parts.exponentText]
      · rename_i h
        have hdrop : (d.stripped.drop d.point.toNat).isEmpty = false := by simpa using h
        simp [Parts.text, Parts.exponentText, hdrop]
  · cases rest with
    | nil => simp [withExponent, Parts.text, Parts.exponentText, hstripped]
    | cons r rest => simp [withExponent, Parts.text, Parts.exponentText, hstripped]

theorem Decimal.wellFormed_parts (hd : 0 < d.digits) : (d.parts style).WellFormed := by
  have hne := Decimal.stripped_ne hd
  have hhead := Decimal.head?_stripped hd
  have hdigits := d.isDigits_stripped
  unfold Decimal.parts
  dsimp only
  split
  · split
    · exact ⟨by simp, isDigits_zeros 1, (isDigits_zeros _).append hdigits, fun _ => rfl⟩
    · rename_i hpoint
      split
      · refine ⟨by simp [hne], hdigits.append (isDigits_zeros _), ?_, ?_⟩
        · cases style.fraction
          · exact isDigits_zeros 0
          · exact isDigits_zeros 1
        · intro h
          rw [List.head?_append_of_ne_nil _ hne] at h
          exact absurd h hhead
      · refine ⟨?_, hdigits.of_sublist (List.take_sublist _ _), hdigits.of_sublist (List.drop_sublist _ _), ?_⟩
        · simp only [ne_eq, List.take_eq_nil_iff, hne, or_false]
          omega
        · intro h
          rw [List.head?_take, if_neg (by omega)] at h
          exact absurd h hhead
  · refine ⟨by simp [hne], hdigits.of_sublist (List.take_sublist _ _), hdigits.of_sublist (List.drop_sublist _ _), ?_⟩
    intro h
    rw [List.head?_take, if_neg (by omega)] at h
    exact absurd h hhead

/-- The decimal that its digits without the zeros at their end are. -/
theorem Decimal.value_eq (d : Decimal) :
    d.value = digitsValue d.stripped * 10 ^ (d.point - d.stripped.length) := by
  have hvalue := congrArg digitsValue d.toDigits_eq
  have hlength := congrArg List.length d.toDigits_eq
  rw [digitsValue_toDigits, digitsValue_append, digitsValue_zeros, List.length_replicate, Nat.add_zero] at hvalue
  rw [List.length_append, List.length_replicate] at hlength
  generalize (Nat.toDigits 10 d.digits).length - d.stripped.length = zeros at *
  rw [Decimal.value, hvalue, Decimal.point, hlength]
  push_cast
  rw [mul_assoc, ← zpow_natCast, ← zpow_add₀ (by norm_num)]
  congr 2
  ring

/-- The parts of a decimal spell it. -/
theorem Decimal.value_parts (hd : 0 < d.digits) : (d.parts style).value = d.value := by
  rw [d.value_eq]
  unfold Decimal.parts
  dsimp only
  split
  · split
    · rename_i hpoint
      have hzero : digitsValue ['0'] = 0 := rfl
      rw [Parts.value, Parts.significand, Parts.scale, digitsValue_append, hzero, digitsValue_append, digitsValue_zeros,
        List.length_append, List.length_replicate, Nat.zero_mul, Nat.zero_mul, Nat.zero_add, Nat.zero_add,
        Option.getD_none]
      congr 2
      omega
    · rename_i hpoint
      split
      · rename_i hlength
        have hdigits : digitsValue (d.stripped ++ List.replicate (d.point.toNat - d.stripped.length) '0') =
            digitsValue d.stripped * 10 ^ (d.point.toNat - d.stripped.length) := by
          rw [digitsValue_append, digitsValue_zeros, List.length_replicate, Nat.add_zero]
        have hpow : ((10 : ℚ) ^ (d.point - d.stripped.length)) = 10 ^ (d.point.toNat - d.stripped.length) := by
          rw [← zpow_natCast]
          congr 1
          omega
        rw [Parts.value, Parts.significand, Parts.scale, digitsValue_append, hdigits, hpow]
        cases style.fraction with
        | false => simp [digitsValue]
        | true =>
          have hzero : digitsValue ['0'] = 0 := rfl
          simp [hzero]
      · rename_i hlength
        rw [Parts.value, Parts.significand, Parts.scale, List.take_append_drop, List.length_drop, Option.getD_none]
        congr 2
        omega
  · have hlength : 0 < d.stripped.length := List.length_pos_of_ne_nil (Decimal.stripped_ne hd)
    rw [Parts.value, Parts.significand, Parts.scale, List.take_append_drop, List.length_drop, Option.getD_some]
    congr 2
    omega

/-! ### The text of a double -/

/-- A finite double as a style spells it, without its sign. -/
def parts (x : Double) (style : Style) : Parts :=
  if x.isZero then ⟨['0'], if style.fraction then ['0'] else [], none⟩ else (x.shortest style.tie).parts style

variable {x : Double}

theorem isNaN_eq_false (hfinite : x.isFinite = true) : x.isNaN = false := by
  rw [isFinite, bne_iff_ne] at hfinite
  rw [isNaN, beq_eq_false_iff_ne.mpr hfinite, Bool.false_and]

theorem toList_write (hfinite : x.isFinite = true) (style : Style) :
    (x.write style).toList = signText x.isNegative ++ (x.parts style).text style.plus := by
  simp only [write, signText, String.toList_ofList, isNaN_eq_false hfinite, hfinite, parts, Bool.false_eq_true,
    Bool.not_true, if_false]
  split
  · cases style.fraction <;> rfl
  · rename_i hzero
    rw [Decimal.write_eq (digits_shortest_pos (eq_false_of_ne_true hzero) _)]

theorem wellFormed_parts (x : Double) (style : Style) : (x.parts style).WellFormed := by
  unfold parts
  split
  · refine ⟨by simp, isDigits_zeros 1, ?_, fun _ => rfl⟩
    cases style.fraction
    · exact isDigits_zeros 0
    · exact isDigits_zeros 1
  · rename_i hzero
    exact Decimal.wellFormed_parts (digits_shortest_pos (eq_false_of_ne_true hzero) _)

theorem significand_parts_of_isZero (hzero : x.isZero = true) (style : Style) : (x.parts style).significand = 0 := by
  rw [parts, if_pos hzero]
  cases style.fraction <;> rfl

/-- What is spelled rounds to the double. -/
theorem rounds_parts (hzero : x.isZero = false) (style : Style) : x.Rounds (x.parts style).value := by
  rw [parts, if_neg (by simp [hzero]), Decimal.value_parts (digits_shortest_pos hzero _)]
  exact rounds_shortest hzero style.tie

/-- A finite double is read back from its text. -/
theorem ofText?_write (hfinite : x.isFinite = true) (style : Style) : ofText? (x.write style).toList = some x := by
  rw [toList_write hfinite, ofText?, Parts.ofText?_text (x.wellFormed_parts style), Option.map_some]
  refine congrArg some ?_
  show ofDecimal x.isNegative (x.parts style).significand (x.parts style).scale = x
  cases hzero : x.isZero with
  | true =>
    have hmagnitude := isZero_iff.mp hzero
    rw [significand_parts_of_isZero hzero, ofDecimal, if_pos rfl, ← hmagnitude, ofMagnitude_magnitude]
  | false => rw [ofDecimal_of_rounds hfinite hzero (rounds_parts hzero style), ofMagnitude_magnitude]

/-- Infinite numbers and NaN are words, which no reader of numbers takes. -/
theorem write_of_not_isFinite (hfinite : x.isFinite = false) (style : Style) :
    x.write style = if x.isNaN then "NaN" else if x.isNegative then "-inf" else "inf" := by
  rw [write, hfinite]
  cases x.isNaN <;> cases x.isNegative <;> rfl

theorem ofText?_write_of_not_isFinite (hfinite : x.isFinite = false) (style : Style) :
    ofText? (x.write style).toList = none := by
  rw [write_of_not_isFinite hfinite]
  cases x.isNaN <;> cases x.isNegative <;> decide

/-- Doubles that are written alike are the same number, or none at all. -/
theorem eq_or_isNaN_of_write {y : Double} {style : Style} (h : x.write style = y.write style) :
    x = y ∨ x.isNaN = true ∧ y.isNaN = true := by
  have hread := congrArg (fun s : String => ofText? s.toList) h
  cases hx : x.isFinite with
  | true =>
    cases hy : y.isFinite with
    | true =>
      rw [ofText?_write hx, ofText?_write hy] at hread
      exact Or.inl (Option.some.inj hread)
    | false =>
      rw [ofText?_write hx, ofText?_write_of_not_isFinite hy] at hread
      cases hread
  | false =>
    cases hy : y.isFinite with
    | true =>
      rw [ofText?_write hy, ofText?_write_of_not_isFinite hx] at hread
      cases hread
    | false =>
      rw [write_of_not_isFinite hx, write_of_not_isFinite hy] at h
      -- the three words differ
      cases hnx : x.isNaN <;> cases hny : y.isNaN <;> cases hsx : x.isNegative <;> cases hsy : y.isNegative <;>
        simp only [hnx, hny, hsx, hsy, if_true, Bool.false_eq_true, if_false] at h <;>
        first
          | exact absurd h (by decide)
          | exact Or.inr ⟨rfl, rfl⟩
          | exact Or.inl (by
              rw [← x.ofMagnitude_magnitude, ← y.ofMagnitude_magnitude, magnitude_of_infinite hx hnx,
                magnitude_of_infinite hy hny, hsx, hsy])

end RecordService.Double
