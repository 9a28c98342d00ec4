import RecordService.Json.Token
import RecordService.Proofs.Double.Scaled
import RecordService.Proofs.Json.Contents

/-! # Numbers read again

What a reader makes of the text of a number (`Number.reread?`). All integers of documents are read as they are
(`Number.reread?_int`). A double is scaled from its digits (`Number.reread?_float`), which may round more than once; it
is read as it is when the digits are below `2 ^ 53` and the power of ten is at most `10 ^ 22`
(`Number.reread?_of_few_digits`). -/

namespace RecordService

open Double (Parts IsDigits signText digitsValue isDigits_toDigits)

/-- A double in a document has places or an exponent. -/
theorem Double.parts_document (x : Double) : (x.parts .document).places ≠ [] ∨ (x.parts .document).exponent ≠ none := by
  unfold parts
  split
  · exact Or.inl (by simp [Style.document])
  · rename_i hzero
    have hne := Decimal.stripped_ne (digits_shortest_pos (eq_false_of_ne_true hzero) Style.document.tie)
    unfold Decimal.parts
    dsimp only
    split
    · split
      · exact Or.inl (by simp [hne])
      · split
        · exact Or.inl (by simp [Style.document])
        · rename_i h
          exact Or.inl (by simpa using h)
    · exact Or.inr nofun

namespace Json

/-- The part of a significand that fits 64 bits is all of it. -/
theorem significandOf_eq {start : Nat} {ds : List Char} (h : start * 10 ^ ds.length + digitsValue ds < UInt64.size) :
    significandOf start ds = (start * 10 ^ ds.length + digitsValue ds, 0) := by
  induction ds generalizing start with
  | nil => simp [significandOf, digitsValue]
  | cons d ds ih =>
    have hvalue : (start * 10 + (d.toNat - '0'.toNat)) * 10 ^ ds.length + digitsValue ds =
        start * 10 ^ (d :: ds).length + digitsValue (d :: ds) := by
      have hone : digitsValue [d] = d.toNat - '0'.toNat := by simp [digitsValue]
      rw [← List.singleton_append, Double.digitsValue_append, hone, List.singleton_append, List.length_cons]
      ring
    have hnext : start * 10 + (d.toNat - '0'.toNat) < UInt64.size :=
      lt_of_le_of_lt ((Nat.le_mul_of_pos_right _ (by positivity)).trans (Nat.le_add_right _ _)) (hvalue ▸ h)
    rw [significandOf]
    simp only [hnext, if_true]
    rw [ih (hvalue ▸ h), hvalue]

/-- A number with places or an exponent is scaled from its significand. -/
theorem numberOf?_parts {p : Parts} (hkind : p.places ≠ [] ∨ p.exponent ≠ none) (h : p.significand < UInt64.size)
    (negative : Bool) :
    numberOf? negative p.whole p.places p.exponent = (Double.ofParts? negative p.significand p.scale).map .float := by
  have hsplit : p.significand = digitsValue p.whole * 10 ^ p.places.length + digitsValue p.places :=
    Double.digitsValue_append ..
  -- the significand fits, so no digit is dropped, be it before the point or behind it
  have hwhole : significandOf 0 p.whole = (digitsValue p.whole, 0) := by
    have hle : digitsValue p.whole ≤ p.significand :=
      hsplit ▸ (Nat.le_mul_of_pos_right _ (by positivity)).trans (Nat.le_add_right _ _)
    rw [significandOf_eq (by omega), Nat.zero_mul, Nat.zero_add]
  have hplaces : significandOf (digitsValue p.whole) p.places = (p.significand, 0) := by
    rw [significandOf_eq (hsplit ▸ h), hsplit]
  have hcondition : (p.places.isEmpty && p.exponent.isNone) = false := by
    rcases hkind with hne | hne
    · simp [hne]
    · cases hexponent : p.exponent with
      | none => exact absurd hexponent hne
      | some e => simp
  simp only [numberOf?, hwhole, hcondition, Bool.false_eq_true, if_false, hplaces]
  cases hexponent : p.exponent with
  | none => simp [Parts.scale, hexponent]
  | some e =>
    simp only [Parts.scale, hexponent, Option.getD_some]
    congr 2
    simp
    ring
end Json

namespace Number

/-- Whether there is a sign in the text of a number. -/
def isNegative : Number → Bool
  | int i => i < 0
  | float x => x.isNegative

/-- A number as it is spelled, without its sign. -/
def parts : Number → Parts
  | int i => ⟨Nat.toDigits 10 i.natAbs, [], none⟩
  | float x => x.parts .document

/-- The number that is scanned from the text of a number. There is none if it is too large. -/
def reread? (n : Number) : Option Number :=
  Json.numberOf? n.isNegative n.parts.whole n.parts.places n.parts.exponent

/-- The token that is scanned from the text of a number. -/
def token (n : Number) : Json.Token :=
  (n.reread?.map .num).getD .unreadable

theorem wellFormed_parts (n : Number) : n.parts.WellFormed := by
  cases n with
  | int i =>
    refine ⟨Nat.toDigits_ne_nil, isDigits_toDigits _, nofun, fun h => ?_⟩
    rcases Nat.eq_zero_or_pos i.natAbs with hzero | hpos
    · rw [parts, hzero]
      rfl
    · exact absurd h (Double.head?_toDigits hpos)
  | float x => exact x.wellFormed_parts .document

theorem toList_text {n : Number} (h : n.Valid) : n.text.toList = signText n.isNegative ++ n.parts.text true := by
  cases n with
  | int i => rw [text, Double.toList_toString, isNegative, parts, Parts.text]; simp [Parts.exponentText]
  | float x => exact Double.toList_write h .document

variable {n : Number}

theorem head?_text_parts (n : Number) (rest : List Char) :
    ∀ c ∈ (n.parts.text true ++ rest).head?, c.isDigit = true := by
  have hhead := n.wellFormed_parts.head?_text true
  rw [List.head?_append_of_ne_nil]
  · exact hhead
  · simp [Parts.text, n.wellFormed_parts.whole_ne]

/-- The integers of documents are scanned as they are. -/
theorem reread?_int {i : Int} (h : (int i).Valid) : (int i).reread? = some (int i) := by
  obtain ⟨hlow, hhigh⟩ : -2 ^ 63 ≤ i ∧ i < 2 ^ 64 := h
  have hsize : UInt64.size = 2 ^ 64 := rfl
  have hpow : twoPow 63 = 2 ^ 63 := rfl
  have hdigits : Json.significandOf 0 (Nat.toDigits 10 i.natAbs) = (i.natAbs, 0) := by
    have hvalue := Double.digitsValue_toDigits i.natAbs
    rw [Json.significandOf_eq, hvalue, Nat.zero_mul, Nat.zero_add]
    rw [hvalue]
    omega
  simp only [reread?, isNegative, parts, Json.numberOf?, hdigits, List.isEmpty_nil, Option.isNone_none, Bool.and_self,
    if_true, hpow, Bool.and_eq_true, decide_eq_true_eq, Bool.not_eq_true', decide_eq_false_iff_not]
  split
  · congr 2
    omega
  · rw [if_pos (by omega)]
    congr 2
    omega

variable {x : Double}

/-- A double is scaled from its digits, if they fit 64 bits. -/
theorem reread?_float (h : (x.parts .document).significand < UInt64.size) :
    (float x).reread? =
      (Double.ofParts? x.isNegative (x.parts .document).significand (x.parts .document).scale).map float :=
  Json.numberOf?_parts x.parts_document h x.isNegative

/-- A double with few digits and a small exponent is read as it is. -/
theorem reread?_of_few_digits (hfinite : x.isFinite = true) (hdigits : (x.parts .document).significand < 2 ^ 53)
    (hscale : (x.parts .document).scale.natAbs ≤ 22) : (float x).reread? = some (float x) := by
  rw [reread?_float (hdigits.trans (by decide))]
  cases hzero : x.isZero with
  | false =>
    rw [Double.ofParts?_of_rounds hfinite hzero hdigits hscale (Double.rounds_parts hzero .document),
      Double.ofMagnitude_magnitude]
    rfl
  | true =>
    have hparts : x.parts .document = ⟨['0'], ['0'], none⟩ := if_pos hzero
    have hzeros : ∀ negative, Double.ofParts? negative 0 (-1) = some (.ofMagnitude negative 0) := by
      intro negative
      rw [Double.ofParts?, Double.scaleByTen?, if_pos (by decide), if_neg (by decide)]
      cases negative <;> decide +kernel
    rw [Double.significand_parts_of_isZero hzero, hparts, show Parts.scale ⟨['0'], ['0'], none⟩ = -1 from rfl, hzeros,
      ← Double.isZero_iff.mp hzero, Double.ofMagnitude_magnitude]
    rfl

end Number
end RecordService
