import RecordService.Proofs.Double.Spelled
import RecordService.Sql.Cell

/-! # Identities

The identity of a cell is a letter for its kind and the text of its value. The letter tells the kind
(`Cell.kind_eq_of_identity`), and the text the value: the numbers of a list of bytes are found again between its commas
(`Cell.eq_of_numbersText`), other numbers are read back, and a text stands there as it is. So cells have one identity
just if they are one key (`Cell.identity_eq_iff`), where a truth value is the integer that it is stored as and all NaN
are one. -/

namespace RecordService

namespace Double

/-- A NaN. -/
def nan : Double := ⟨0x7FF8000000000000⟩

variable {x : Double}

theorem isFinite_eq_false (h : x.isNaN = true) : x.isFinite = false := by
  cases hx : x.isFinite with
  | false => rfl
  | true => exact absurd (isNaN_eq_false hx) (by simp [h])

theorem write_of_isNaN (h : x.isNaN = true) (style : Style) : x.write style = "NaN" := by
  rw [write_of_not_isFinite (isFinite_eq_false h), if_pos h]

end Double

namespace Cell

/-! ### Kinds -/

/-- What a cell may be as a key. -/
inductive Kind where
  | null
  | integer
  | double
  | text
  | bytes
deriving DecidableEq, Repr

def kind : Cell → Kind
  | null => .null
  | bool _ => .integer
  | int _ => .integer
  | float _ => .double
  | text _ => .text
  | bytes _ => .bytes

/-- The letter with which the identities of a kind begin. -/
def Kind.letter : Kind → Char
  | null => 'n'
  | integer => 'i'
  | double => 'f'
  | text => 's'
  | bytes => 'b'

theorem Kind.letter_inj {k l : Kind} (h : k.letter = l.letter) : k = l := by
  cases k <;> cases l <;> first | rfl | exact absurd h (by decide)

theorem head?_identity (c : Cell) : c.identity.toList.head? = some c.kind.letter := by
  cases c with
  | bool b => cases b <;> rfl
  | _ => simp [identity, kind, Kind.letter]

/-- Cells of two kinds never have one identity. -/
theorem kind_eq_of_identity {a b : Cell} (h : a.identity = b.identity) : a.kind = b.kind := by
  have hhead := congrArg (fun s : String => s.toList.head?) h
  simp only [head?_identity, Option.some.injEq] at hhead
  exact Kind.letter_inj hhead

theorem identity_eq_null {c : Cell} : c.identity = Cell.null.identity ↔ c.isNull = true := by
  constructor
  · intro h
    have hkind := kind_eq_of_identity h
    cases c <;> first | rfl | cases hkind
  · intro h
    cases c <;> first | rfl | cases h

/-! ### Lists of bytes -/

section
open Double

/-- Numbers, each behind a comma and a blank. -/
def numbersText : List Nat → List Char
  | [] => []
  | n :: rest => ',' :: ' ' :: (Nat.toDigits 10 n ++ numbersText rest)

theorem stops_numbersText (ns : List Nat) : Stops (numbersText ns) := by
  cases ns with
  | nil => simp [Stops, numbersText]
  | cons => simp [Stops, numbersText]

/-- The digits up to the next comma are the number. -/
theorem eq_of_numbersText : ∀ {ms ns : List Nat}, numbersText ms = numbersText ns → ms = ns
  | [], [], _ => rfl
  | [], _ :: _, h => by cases h
  | _ :: _, [], h => by cases h
  | m :: ms, n :: ns, h => by
    rw [numbersText, numbersText, List.cons_inj_right, List.cons_inj_right] at h
    have hdigits := congrArg (List.takeWhile Char.isDigit) h
    have hrest := congrArg (List.dropWhile Char.isDigit) h
    rw [takeWhile_digits (isDigits_toDigits m) (stops_numbersText ms),
      takeWhile_digits (isDigits_toDigits n) (stops_numbersText ns)] at hdigits
    rw [dropWhile_digits (isDigits_toDigits m) (stops_numbersText ms),
      dropWhile_digits (isDigits_toDigits n) (stops_numbersText ns)] at hrest
    have hvalue := congrArg digitsValue hdigits
    rw [digitsValue_toDigits, digitsValue_toDigits] at hvalue
    rw [hvalue, eq_of_numbersText hrest]

/-- What is written between the brackets is this without the first comma. -/
theorem numbersText_eq {ns : List Nat} (hne : ns ≠ []) :
    numbersText ns = ',' :: ' ' :: [',', ' '].intercalate (ns.map (Nat.toDigits 10)) := by
  induction ns with
  | nil => exact absurd rfl hne
  | cons n rest ih =>
    cases rest with
    | nil => simp [numbersText]
    | cons m more =>
      rw [numbersText, ih (List.cons_ne_nil m more)]
      simp only [List.map_cons, List.intercalate_cons_cons, List.append_assoc, List.cons_append, List.nil_append]

theorem toList_identity_bytes (bs : List UInt8) : (bytes bs).identity.toList =
    ['b', ':', '['] ++ [',', ' '].intercalate ((bs.map UInt8.toNat).map (Nat.toDigits 10)) ++ [']'] := by
  simp [identity, Function.comp_def]

theorem bytes_inj_of_identity {bs cs : List UInt8} (h : (bytes bs).identity = (bytes cs).identity) : bs = cs := by
  have hjoined := congrArg String.toList h
  rw [toList_identity_bytes, toList_identity_bytes, List.append_left_inj, List.append_right_inj] at hjoined
  have hne (b : UInt8) (rest : List UInt8) :
      [',', ' '].intercalate (((b :: rest).map UInt8.toNat).map (Nat.toDigits 10)) ≠ [] := by
    cases rest <;> simp [List.intercalate_cons_cons, Nat.toDigits_ne_nil]
  refine List.map_injective_iff.mpr (fun _ _ => UInt8.toNat_inj.mp) ?_
  cases bs with
  | nil =>
    cases cs with
    | nil => rfl
    | cons c cs => exact absurd hjoined.symm (hne c cs)
  | cons b bs =>
    cases cs with
    | nil => exact absurd hjoined (hne b bs)
    | cons c cs =>
      refine eq_of_numbersText ?_
      rw [numbersText_eq (by simp), numbersText_eq (by simp), hjoined]

end

/-! ### Keys -/

/-- The cell that stands for all cells of its key: a truth value is the integer that it is stored as, and there is one
NaN. -/
def key : Cell → Cell
  | bool b => int (if b then 1 else 0)
  | float x => float (if x.isNaN then Double.nan else x)
  | c => c

theorem key_key (c : Cell) : c.key.key = c.key := by
  cases c with
  | float x =>
    cases h : x.isNaN with
    | true => simp only [key, h, if_true, ite_self]
    | false => simp only [key, h, Bool.false_eq_true, if_false]
  | _ => rfl

theorem identity_key (c : Cell) : c.key.identity = c.identity := by
  cases c with
  | bool b => cases b <;> decide
  | float x =>
    rw [key]
    split
    · rename_i h
      rw [identity, identity, Double.write_of_isNaN h, Double.write_of_isNaN (by decide)]
    · rfl
  | _ => rfl

/-- A truth value and an integer have the identity of the integer. -/
theorem int_inj_of_identity {a b : Cell} {i j : Int} (ha : a.key = int i) (hb : b.key = int j)
    (h : a.identity = b.identity) : i = j := by
  rw [← identity_key a, ← identity_key b, ha, hb, identity, identity, String.append_right_inj] at h
  exact Double.toString_int_inj h

theorem key_eq_of_identity {a b : Cell} (h : a.identity = b.identity) : a.key = b.key := by
  have hkind := kind_eq_of_identity h
  cases a with
  | null =>
    cases b with
    | null => rfl
    | _ => cases hkind
  | bool v =>
    cases b with
    | bool w => exact congrArg int (int_inj_of_identity rfl rfl h)
    | int j => exact congrArg int (int_inj_of_identity rfl rfl h)
    | _ => cases hkind
  | int i =>
    cases b with
    | bool w => exact congrArg int (int_inj_of_identity rfl rfl h)
    | int j => exact congrArg int (int_inj_of_identity rfl rfl h)
    | _ => cases hkind
  | float x =>
    cases b with
    | float y =>
      rw [identity, identity, String.append_right_inj] at h
      -- only values that are no numbers are printed alike without being equal
      rcases Double.eq_or_isNaN_of_write h with rfl | ⟨hx, hy⟩
      · rfl
      · rw [key, key, if_pos hx, if_pos hy]
    | _ => cases hkind
  | text s =>
    cases b with
    | text t =>
      rw [identity, identity, String.append_right_inj] at h
      rw [h]
    | _ => cases hkind
  | bytes bs =>
    cases b with
    | bytes cs => rw [bytes_inj_of_identity h]
    | _ => cases hkind

/-- Cells have one identity just if they are one key. -/
theorem identity_eq_iff {a b : Cell} : a.identity = b.identity ↔ a.key = b.key := by
  refine ⟨key_eq_of_identity, fun h => ?_⟩
  rw [← identity_key a, ← identity_key b, h]

/-- The cell is a truth value, and the other the integer that it is stored as. -/
def StoredAs (a b : Cell) : Prop :=
  ∃ v, a = bool v ∧ b = int (if v then 1 else 0)

/-- If the cells are doubles, they are written alike only if they are one. -/
def PrintedApart (a b : Cell) : Prop :=
  ∀ x y, a = float x → b = float y → x.write .plain = y.write .plain → x = y

/-- All doubles are printed apart but NaN. -/
theorem printedApart_or_isNaN (a b : Cell) :
    a.PrintedApart b ∨ ∃ x y, a = float x ∧ b = float y ∧ x.isNaN = true ∧ y.isNaN = true := by
  by_cases h : ∃ x y, a = float x ∧ b = float y ∧ x.isNaN = true ∧ y.isNaN = true
  · exact Or.inr h
  · refine Or.inl fun x y ha hb hwrite => (Double.eq_or_isNaN_of_write hwrite).resolve_right fun hnan => ?_
    exact h ⟨x, y, ha, hb, hnan⟩

theorem key_eq_of_storedAs {a b : Cell} (h : a.StoredAs b) : a.key = b.key := by
  obtain ⟨v, rfl, rfl⟩ := h
  rfl

/-- Cells that are printed apart are one key just if they are one cell, or a truth value and its integer. -/
theorem key_eq_iff {a b : Cell} (hprinted : a.PrintedApart b) :
    a.key = b.key ↔ a = b ∨ a.StoredAs b ∨ b.StoredAs a := by
  constructor
  · intro h
    cases a with
    | bool v =>
      cases b with
      | bool w => exact Or.inl (by cases v <;> cases w <;> first | rfl | cases h)
      | int j => exact Or.inr (Or.inl ⟨v, rfl, h.symm⟩)
      | _ => cases h
    | int i =>
      cases b with
      | bool w => exact Or.inr (Or.inr ⟨w, rfl, h⟩)
      | int j => exact Or.inl h
      | _ => cases h
    | float x =>
      cases b with
      | float y =>
        -- cells of one key are printed alike
        have hwrite := identity_eq_iff.mpr h
        rw [identity, identity, String.append_right_inj] at hwrite
        exact Or.inl (congrArg float (hprinted x y rfl rfl hwrite))
      | _ => cases h
    | _ => cases b <;> first | exact Or.inl h | cases h
  · rintro (rfl | h | h)
    · rfl
    · exact key_eq_of_storedAs h
    · exact (key_eq_of_storedAs h).symm

end Cell
end RecordService
