import RecordService.Proofs.Sql.Identities
import RecordService.Proofs.Sql.Reading
import RecordService.Sql.Like

/-! # Values of the store

What the store keeps of a cell is its value: a truth value is the number 0 or 1, and two numbers are the same when they
are equal as numbers, an integer and a double too (`Cell.value`). A comparison with NULL is unknown (`Value.equals`).
Cells of the same identity have the same value (`Cell.value_eq_of_identity`), but not the other way round: the integer
1 and the double 1.0 are one value with two identities. -/

namespace RecordService

/-- Whether a column of the type may hold numbers. -/
def ScalarType.hasNumbers (type : ScalarType) : Bool :=
  type.isNumeric || type == .bool

namespace Double

/-- The number that a finite double is. -/
def toRat (x : Double) : ℚ :=
  if x.isNegative then -x.size else x.size

theorem toRat_eq_zero_iff {x : Double} : x.toRat = 0 ↔ x.isZero = true := by
  have hsize : x.size = 0 ↔ x.isZero = true := by
    rw [size, mul_eq_zero, or_iff_left (unit_pos x.scale).ne', Nat.cast_eq_zero]
    cases hzero : x.isZero with
    | true =>
      obtain ⟨hexponent, hfraction⟩ : x.exponentField = 0 ∧ x.fraction = 0 := by simpa [isZero] using hzero
      simp [significand, hexponent, hfraction]
    | false => simp [(significand_pos hzero).ne']
  rw [toRat]
  split
  · rw [neg_eq_zero, hsize]
  · exact hsize

end Double

namespace Sql

theorem Truth.or_eq_yes {t u : Truth} : t.or u = .yes ↔ t = .yes ∨ u = .yes := by
  cases t <;> cases u <;> decide

/-- A value as comparisons see it. -/
inductive Value where
  | null
  | number (value : ℚ)
  /-- The infinite numbers. -/
  | infinite (negative : Bool)
  | text (value : String)
  | blob (value : List UInt8)
deriving DecidableEq

namespace Value

/-- The comparison for equality. -/
def equals : Value → Value → Truth
  | null, _ => .unknown
  | _, null => .unknown
  | v, w => if v = w then .yes else .no

/-- The comparison for inequality. -/
def differs (v w : Value) : Truth :=
  (v.equals w).not

/-- The search in a list. -/
def within (v : Value) (list : List Value) : Truth :=
  list.foldr (fun w t => (v.equals w).or t) .no

theorem equals_eq_yes {v w : Value} : v.equals w = .yes ↔ v ≠ null ∧ v = w := by
  cases v <;> cases w <;> simp [equals]

theorem differs_eq_yes {v w : Value} : v.differs w = .yes ↔ v ≠ null ∧ w ≠ null ∧ v ≠ w := by
  by_cases h : v = w
  · cases v <;> cases w <;> simp_all [differs, equals, Truth.not]
  · cases v <;> cases w <;> simp_all [differs, equals, Truth.not]

theorem within_eq_yes {v : Value} {list : List Value} : v.within list = .yes ↔ v ≠ null ∧ v ∈ list := by
  induction list with
  | nil => simp [within]
  | cons w list ih =>
    have hstep : v.within (w :: list) = (v.equals w).or (v.within list) := rfl
    rw [hstep, Truth.or_eq_yes, equals_eq_yes, ih, List.mem_cons, and_or_left]

end Value
end Sql

namespace Cell

open Sql (Value)

/-- What the store keeps of a cell. It has no NaN. -/
def value : Cell → Value
  | null => .null
  | bool b => .number (if b then 1 else 0)
  | int i => .number i
  | float x => if x.isFinite then .number x.toRat else if x.isNaN then .null else .infinite x.isNegative
  | text s => .text s
  | bytes b => .blob b

theorem value_float_of_isNaN {x : Double} (h : x.isNaN = true) : (float x).value = .null := by
  simp [value, h, Double.isFinite_eq_false h]

theorem value_stored (c : Cell) : c.stored.value = c.value := by
  cases c with
  | bool b => cases b <;> simp [stored, value]
  | float x =>
    rw [stored]
    split
    · rename_i h
      exact (value_float_of_isNaN h).symm
    · rfl
  | _ => rfl

/-- A truth value as the integer that it is stored as. -/
def plain : Cell → Cell
  | bool b => int (if b then 1 else 0)
  | c => c

theorem identity_plain (c : Cell) : c.plain.identity = c.identity := by
  cases c with
  | bool b => cases b <;> decide
  | _ => rfl

theorem value_plain (c : Cell) : c.plain.value = c.value := by
  cases c with
  | bool b => cases b <;> simp [plain, value]
  | _ => rfl

theorem plain_eq_bytes {c : Cell} {bs : List UInt8} (h : c.plain = bytes bs) : c = bytes bs := by
  cases c with
  | bool => cases h
  | _ => exact h

theorem plain_ne_bool (c : Cell) (b : Bool) : c.plain ≠ bool b := by
  cases c <;> simp [plain]

/-- Cells of the same identity are stored as the same value. -/
theorem value_eq_of_identity {a b : Cell} (h : a.identity = b.identity) (hbytes : ∀ bs, a ≠ bytes bs) :
    a.value = b.value := by
  rw [← identity_plain a, ← identity_plain b] at h
  rw [← value_plain a, ← value_plain b]
  have ha := a.plain_ne_bool
  have hb := b.plain_ne_bool
  have hbytes : ∀ bs, a.plain ≠ bytes bs := fun bs hbs => hbytes bs (plain_eq_bytes hbs)
  generalize a.plain = a at *
  generalize b.plain = b at *
  -- the first letter tells the kind, and what follows it the value
  have hchars := congrArg String.toList h
  cases a with
  | null => cases b <;> simp [identity] at hchars hb ⊢
  | bool value => exact absurd rfl (ha value)
  | int i =>
    cases b with
    | int j =>
      have htext : toString i = toString j := by simpa [identity, String.toList_inj] using hchars
      rw [Double.toString_int_inj htext]
    | _ => simp [identity] at hchars hb
  | float x =>
    cases b <;> simp [identity, String.toList_inj] at hchars hb ⊢
    rename_i y
    rcases Double.eq_or_isNaN_of_write hchars with rfl | ⟨hx, hy⟩
    · rfl
    · rw [value_float_of_isNaN hx, value_float_of_isNaN hy]
  | text s =>
    cases b <;> simp [identity, String.toList_inj] at hchars hb ⊢
    rw [hchars]
  | bytes bs => exact absurd rfl (hbytes bs)

/-! ### What documents become in a column -/

/-- What is read as a number is an integer of 64 bits or a finite double. -/
theorem readNumber?_cases {cs : List Char} {c : Cell} (h : readNumber? cs = some c) :
    (∃ i, fitsInt64 i = true ∧ c = int i) ∨ ∃ x : Double, x.isFinite = true ∧ c = float x := by
  unfold readNumber? at h
  split at h
  · rename_i i hi
    refine .inl ⟨i, ?_, (Option.some.inj h).symm⟩
    unfold readInt64? at hi
    dsimp only at hi
    split at hi
    · cases hi
    · rw [Option.ite_none_right_eq_some] at hi
      exact Option.some.inj hi.2 ▸ hi.1
  · obtain ⟨x, hx, rfl⟩ := Option.map_eq_some_iff.mp h
    exact .inr ⟨x, (Option.filter_eq_some_iff.mp hx).2, rfl⟩

/-- The cells that a document can become: NULL if it is null, a truth value, a text, and in a column that has numbers
the number that it is or spells. What holds of all of them holds of what it becomes. -/
theorem coerce_induction {P : Cell → Prop} {d : Json} {type : ScalarType} (null : d = .null → P null)
    (bool : ∀ b, P (bool b)) (text : ∀ s, P (text s))
    (number : type.hasNumbers = true → ∀ n, d = .num n → P (ofJson (.num n)))
    (spelled : type.hasNumbers = true → ∀ cs c, readNumber? cs = some c → P c) : P (coerce d type) := by
  have flag (b : Option Bool) {c : Cell} (hc : P c) : P ((b.map Cell.bool).getD c) := by
    cases b with
    | none => exact hc
    | some b => exact bool b
  have read (s : String) (htype : type.hasNumbers = true) : P ((readNumber? (Text.trim s.toList)).getD (.text s)) := by
    cases hread : readNumber? (Text.trim s.toList) with
    | none => exact text s
    | some c => exact spelled htype _ c hread
  cases d with
  | null => exact null rfl
  | bool b => exact bool b
  | num n =>
    cases type with
    | int | float => exact number rfl n rfl
    | bool => exact flag _ (number rfl n rfl)
    | _ => exact text _
  | str s =>
    cases type with
    | int | float => exact read s rfl
    | bool => exact flag _ (text s)
    | _ => exact text _
  | arr => exact text _
  | obj => exact text _

/-- The cells of a column. Only numeric and boolean columns have numbers. -/
inductive Coerced (type : ScalarType) : Cell → Prop
  | null : Coerced type null
  | bool (b : Bool) : Coerced type (bool b)
  | text (s : String) : Coerced type (text s)
  | int (i : Int) (htype : type.hasNumbers = true) : Coerced type (int i)
  | float (x : Double) (htype : type.hasNumbers = true) : Coerced type (float x)

theorem coerced_coerce (d : Json) (type : ScalarType) : Coerced type (coerce d type) := by
  refine coerce_induction (fun _ => .null) .bool .text (fun htype n _ => ?_) fun htype cs c hread => ?_
  · rw [ofJson]
    split
    · exact .int _ htype
    · exact .float _ htype
  · obtain ⟨i, -, rfl⟩ | ⟨x, -, rfl⟩ := readNumber?_cases hread
    · exact .int i htype
    · exact .float x htype

/-- Only null becomes NULL. -/
theorem isNull_coerce {d : Json} (h : d ≠ .null) (type : ScalarType) : (coerce d type).isNull = false := by
  refine coerce_induction (P := fun c => c.isNull = false) (fun hnull => absurd hnull h) (fun _ => rfl) (fun _ => rfl)
    (fun _ n _ => ?_) fun _ cs c hread => ?_
  · rw [ofJson]
    split <;> rfl
  · obtain ⟨i, -, rfl⟩ | ⟨x, -, rfl⟩ := readNumber?_cases hread <;> rfl

theorem Coerced.ne_bytes {type : ScalarType} {c : Cell} (h : Coerced type c) (bs : List UInt8) : c ≠ Cell.bytes bs := by
  cases h <;> nofun

/-- Outside numeric and boolean columns the value of a cell tells its identity. -/
theorem Coerced.identity_eq {type : ScalarType} (htype : type.hasNumbers = false) {a b : Cell}
    (ha : Coerced type a) (hb : Coerced type b) (h : a.value = b.value) : a.identity = b.identity := by
  have hkinds : ∀ {c : Cell}, Coerced type c →
      c = Cell.null ∨ (∃ b, c = Cell.bool b) ∨ ∃ s, c = Cell.text s := by
    intro c hc
    cases hc with
    | null => exact Or.inl rfl
    | bool b => exact Or.inr (Or.inl ⟨b, rfl⟩)
    | text s => exact Or.inr (Or.inr ⟨s, rfl⟩)
    | int i htype' => rw [htype] at htype'; cases htype'
    | float x htype' => rw [htype] at htype'; cases htype'
  obtain rfl | ⟨b, rfl⟩ | ⟨s, rfl⟩ := hkinds ha <;> obtain rfl | ⟨b', rfl⟩ | ⟨s', rfl⟩ := hkinds hb <;>
    simp [value] at h ⊢
  · cases b <;> cases b' <;> simp at h ⊢
  · rw [h]

end Cell
end RecordService
