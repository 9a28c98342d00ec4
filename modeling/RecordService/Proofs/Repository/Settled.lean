import RecordService.Proofs.Json.Contents
import RecordService.Proofs.Repository.WriteBack
import RecordService.Proofs.Sql.Values

/-! # Cells that are read again

A cell of a column, shown as a document and read as a cell of that column again, is the cell that it was
(`Cell.Settled.coerce_toJson`), unless the column holds truth values or documents. What a document becomes in any other
column is such a cell (`Cell.settled_coerce`). -/

namespace RecordService

/-! ### Numbers of documents -/

theorem Double.isFinite_ofInt {i : Int} (h : i.natAbs < 2 ^ 1023) : (Double.ofInt i).isFinite = true := by
  refine isFinite_ofRatio (by decide) ?_ _
  rw [Nat.cast_one, div_one, show (1023 : Int) = (1023 : Nat) from rfl, zpow_natCast]
  exact_mod_cast h

theorem Number.Valid.isFinite_toDouble {n : Number} (h : n.Valid) : n.toDouble.isFinite = true := by
  cases n with
  | float x => exact h
  | int i =>
    refine Double.isFinite_ofInt ?_
    have hsmall : 2 ^ 64 < 2 ^ 1023 := by decide +kernel
    obtain ⟨hlow, hhigh⟩ : -2 ^ 63 ≤ i ∧ i < 2 ^ 64 := h
    omega

/-- A document becomes no infinite number. -/
theorem Cell.isFinite_of_coerce {d : Json} (hvalid : ∀ n, d = .num n → n.Valid) {type : ScalarType} {x : Double}
    (h : coerce d type = .float x) : x.isFinite = true := by
  suffices hfinite : ∀ y, coerce d type = .float y → y.isFinite = true from hfinite x h
  refine coerce_induction (P := fun c => ∀ y, c = .float y → y.isFinite = true) nofun nofun nofun
    (fun _ n hn y hy => ?_) fun _ cs c hread y hy => ?_
  · rw [ofJson] at hy
    split at hy
    · cases hy
    · exact Cell.float.inj hy ▸ (hvalid n hn).isFinite_toDouble
  · obtain ⟨i, -, rfl⟩ | ⟨z, hz, rfl⟩ := readNumber?_cases hread
    · cases hy
    · exact Cell.float.inj hy ▸ hz

/-! ### Texts that are no numbers -/

namespace Text

/-- Trimming leaves a character in front that is not blank. -/
theorem head?_trim {c : Char} {rest : List Char} (hc : isBlank c = false) : (trim (c :: rest)).head? = some c := by
  have hstart : (c :: rest).dropWhile isBlank = c :: rest := by rw [List.dropWhile_cons, hc, if_neg Bool.false_ne_true]
  have hsplit : trim (c :: rest) ++ (c :: rest).rtakeWhile isBlank = c :: rest := by
    rw [trim, hstart]
    exact List.rdropWhile_append_rtakeWhile
  have hne : trim (c :: rest) ≠ [] := by
    intro hnil
    rw [hnil, List.nil_append] at hsplit
    have hblank : isBlank c = true := @List.mem_rtakeWhile_imp _ isBlank _ c (hsplit ▸ List.mem_cons_self)
    rw [hc] at hblank
    cases hblank
  rw [← List.head?_append_of_ne_nil _ hne, hsplit, List.head?_cons]

end Text

namespace Cell

/-- A number begins with a sign, a digit or a point. -/
def opensNumber (c : Char) : Bool :=
  c.isDigit || c == '+' || c == '-' || c == '.'

theorem readNumber?_eq_none {c : Char} {cs : List Char} (hhead : cs.head? = some c) (hc : opensNumber c = false) :
    readNumber? cs = none := by
  obtain ⟨rest, rfl⟩ := List.head?_eq_some_iff.mp hhead
  simp only [opensNumber, Bool.or_eq_false_iff, beq_eq_false_iff_ne] at hc
  obtain ⟨⟨⟨hdigit, hplus⟩, hminus⟩, hpoint⟩ := hc
  -- without a sign the text is left as it is, and it does not begin with a digit or a point
  have hsign : Double.takeSign (c :: rest) = (false, c :: rest) := by
    rw [Double.takeSign.eq_def]
    split <;> simp_all
  have hint : readInt64? (c :: rest) = none := by
    simp [readInt64?, hsign, hdigit]
  have hdouble : Double.ofText? (c :: rest) = none := by
    have hspelling : Double.Spelling.ofText? (c :: rest) = none := by
      simp only [Double.Spelling.ofText?, hsign, List.takeWhile_cons, List.dropWhile_cons, hdigit, Bool.false_eq_true,
        if_false]
      split
      · rename_i heq
        exact absurd (List.cons.inj heq).1 hpoint
      · rfl
    rw [Double.ofText?, hspelling, Option.map_none]
  rw [readNumber?, hint, hdouble]
  rfl

/-- A container is not taken for a number. -/
theorem readNumber?_compact {d : Json} (h : d.isScalar = false) : readNumber? (Text.trim d.compact.toList) = none := by
  have hbracket : ∀ rest, readNumber? (Text.trim ('[' :: rest)) = none := fun rest =>
    readNumber?_eq_none (Text.head?_trim (by decide)) (by decide)
  have hbrace : ∀ rest, readNumber? (Text.trim ('\x7b' :: rest)) = none := fun rest =>
    readNumber?_eq_none (Text.head?_trim (by decide)) (by decide)
  cases d with
  | arr items =>
    simp only [Json.compact, String.toList_append]
    exact hbracket _
  | obj entries =>
    simp only [Json.compact, String.toList_append]
    exact hbrace _
  | _ => cases h

/-! ### Numeric columns -/

theorem eq_of_isNumeric {type : ScalarType} (h : type.isNumeric = true) : type = .int ∨ type = .float := by
  cases type <;> first | exact Or.inl rfl | exact Or.inr rfl | cases h

theorem coerce_num (n : Number) {type : ScalarType} (htype : type.isNumeric = true) :
    coerce (.num n) type = ofJson (.num n) := by
  rcases eq_of_isNumeric htype with rfl | rfl <;> rfl

theorem coerce_str (s : String) {type : ScalarType} (htype : type.isNumeric = true) :
    coerce (.str s) type = (readNumber? (Text.trim s.toList)).getD (Cell.text s) := by
  rcases eq_of_isNumeric htype with rfl | rfl <;> rfl

/-! ### Settled cells -/

/-- The cells of a column that stay as they are when they are read again. -/
inductive Settled (type : ScalarType) : Cell → Prop
  | null : Settled type null
  | bool (b : Bool) : Settled type (bool b)
  | int {i : Int} (hfits : fitsInt64 i = true) (htype : type.isNumeric = true) : Settled type (int i)
  | float {x : Double} (hfinite : x.isFinite = true) (htype : type.isNumeric = true) : Settled type (float x)
  /-- A text that is no number. -/
  | word {s : String} (hs : readNumber? (Text.trim s.toList) = none) (htype : type.isNumeric = true) :
      Settled type (text s)
  | text (s : String) (htype : type.isTextual = true) : Settled type (text s)

variable {type : ScalarType}

theorem Settled.coerce_toJson {c : Cell} (h : c.Settled type) : coerce (c.toJson (some type)) type = c := by
  cases h with
  | null => rfl
  | bool b => rfl
  | int hfits htype => rw [toJson_int _ htype, coerce_int hfits htype]
  | @float x hfinite htype =>
    have hjson : (Cell.float x).toJson (some type) = .num (.float x) := if_pos hfinite
    rw [hjson, coerce_num _ htype]
    rfl
  | @word s hs htype =>
    have hjson : (Cell.text s).toJson (some type) = .str s := by
      rcases eq_of_isNumeric htype with rfl | rfl <;> rfl
    rw [hjson, coerce_str s htype, hs, Option.getD_none]
  | text s htype => rw [toJson_text s htype, coerce_text s htype]

/-- A key is shown as a document other than null. -/
theorem Settled.toJson_ne_null {c : Cell} (h : c.Settled type) (hnull : c.isNull = false) :
    c.toJson (some type) ≠ .null := by
  intro hjson
  have hcell := h.coerce_toJson
  rw [hjson] at hcell
  rw [← hcell] at hnull
  cases hnull

theorem settled_readNumber? (htype : type.isNumeric = true) {cs : List Char} {c : Cell} (h : readNumber? cs = some c) :
    c.Settled type := by
  obtain ⟨i, hfits, rfl⟩ | ⟨x, hfinite, rfl⟩ := readNumber?_cases h
  · exact .int hfits htype
  · exact .float hfinite htype

theorem settled_ofJson (htype : type.isNumeric = true) {n : Number} (h : n.Valid) : (ofJson (.num n)).Settled type := by
  unfold ofJson
  dsimp only
  split
  · rename_i i hi
    refine .int ?_ htype
    cases n with
    | float x => cases hi
    | int j =>
      simp only [Number.toInt64?, Option.ite_none_right_eq_some, Option.some.injEq] at hi
      exact hi.2 ▸ hi.1
  · exact .float h.isFinite_toDouble htype

/-- What a document becomes in a column. -/
theorem settled_coerce {d : Json} (hvalid : ∀ n, d = .num n → n.Valid) (hbool : type ≠ .bool) (hjson : type ≠ .json) :
    (coerce d type).Settled type := by
  -- the other columns are those of numbers and those of texts
  have hkind : type.isNumeric = true ∨ type.isTextual = true := by
    cases type <;> first | exact Or.inl rfl | exact Or.inr rfl | contradiction
  cases d with
  | null => exact .null
  | bool b => exact .bool b
  | num n =>
    rcases hkind with htype | htype
    · rw [coerce_num n htype]
      exact settled_ofJson htype (hvalid n rfl)
    · have hcoerce : coerce (.num n) type = Cell.text n.text := by cases type <;> first | rfl | cases htype
      rw [hcoerce]
      exact .text _ htype
  | str s =>
    rcases hkind with htype | htype
    · rw [coerce_str s htype]
      cases hread : readNumber? (Text.trim s.toList) with
      | none => exact .word hread htype
      | some c => exact settled_readNumber? htype hread
    · rw [coerce_text s htype]
      exact .text s htype
  | arr items =>
    rcases hkind with htype | htype
    · exact .word (readNumber?_compact rfl) htype
    · exact .text _ htype
  | obj entries =>
    rcases hkind with htype | htype
    · exact .word (readNumber?_compact rfl) htype
    · exact .text _ htype

/-- What a document becomes in a column that holds neither truth values nor documents, is shown as a document that
becomes the same. -/
theorem coerce_toJson_coerce {d : Json} (hvalid : ∀ n, d = .num n → n.Valid) (hbool : type ≠ .bool)
    (hjson : type ≠ .json) : coerce ((coerce d type).toJson (some type)) type = coerce d type :=
  (settled_coerce hvalid hbool hjson).coerce_toJson

end Cell
end RecordService
