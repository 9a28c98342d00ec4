import RecordService.Proofs.Repository.Protected
import RecordService.Proofs.Repository.Settled

/-! # Two tests of a mark

A record that is changed or deleted is a system record if its mark is set (`Cell.isSet`), one that is linked if the
store finds it with `flag <> 0` (`Cell.Flagged`). The tests agree on all that a column can hold except on texts: a text
is set in a few spellings only, but no text is equal to 0 in the store (`Table.marks_agree`). -/

namespace RecordService

open Sql (Value)

namespace Cell

/-- The store finds a cell by `flag <> 0`. -/
def Flagged (c : Cell) : Prop :=
  c.value.differs (.number 0) = .yes

/-- The texts that are set. -/
def setSpellings : List String :=
  ["1", "true", "TRUE", "True"]

theorem flagged_iff {c : Cell} : c.Flagged ↔ c.value ≠ .null ∧ c.value ≠ .number 0 := by
  rw [Flagged, Value.differs_eq_yes, and_iff_right (by nofun : Value.number 0 ≠ .null)]

theorem flagged_stored {c : Cell} : c.stored.Flagged ↔ c.Flagged := by
  rw [Flagged, value_stored, Flagged]

theorem flagged_text (s : String) : (text s).Flagged :=
  flagged_iff.mpr ⟨nofun, nofun⟩

theorem isSet_text {s : String} : (text s).isSet = true ↔ s ∈ setSpellings := by
  simp [isSet, setSpellings, or_assoc]

theorem isSet_stored {c : Cell} (hfinite : ∀ x, c = float x → x.isFinite = true) : c.stored.isSet = c.isSet := by
  cases c with
  | bool b => cases b <;> rfl
  | float x => rw [stored, Double.isNaN_eq_false (hfinite x rfl), if_neg Bool.false_ne_true]
  | _ => rfl

/-- The cell of a column that is no text is set exactly if the store finds it. -/
theorem Coerced.isSet_iff_flagged {type : ScalarType} {c : Cell} (h : Coerced type c)
    (hfinite : ∀ x, c = Cell.float x → x.isFinite = true) (htext : ∀ s, c ≠ Cell.text s) :
    c.isSet = true ↔ c.Flagged := by
  rw [flagged_iff]
  cases h with
  | null => simp [isSet, value]
  | bool b => cases b <;> simp [isSet, value]
  | int i => simp [isSet, value]
  | float x => simp [isSet, value, hfinite x rfl, Double.toRat_eq_zero_iff]
  | text s => exact absurd rfl (htext s)

/-- The two tests agree on a document in a column exactly if they agree on the text that it becomes. -/
theorem isSet_coerce_iff {d : Json} (hvalid : ∀ n, d = .num n → n.Valid) (type : ScalarType) :
    ((coerce d type).isSet = true ↔ (coerce d type).Flagged) ↔ ∀ s, coerce d type = text s → s ∈ setSpellings := by
  by_cases htext : ∃ s, coerce d type = text s
  · obtain ⟨s, hs⟩ := htext
    simp [hs, isSet_text, flagged_text]
  · rw [not_exists] at htext
    exact iff_of_true ((coerced_coerce d type).isSet_iff_flagged (fun _ => isFinite_of_coerce hvalid) htext)
      fun s hs => absurd hs (htext s)

/-- The text of a container is none of those that are set. -/
theorem compact_not_mem_setSpellings {d : Json} (h : d.isScalar = false) : d.compact ∉ setSpellings := by
  have hheads : ∀ s ∈ setSpellings, s.toList.head? ≠ some '[' ∧ s.toList.head? ≠ some '\x7b' := by decide
  intro hmem
  cases d with
  | arr items => exact (hheads _ hmem).1 (by simp [Json.compact])
  | obj entries => exact (hheads _ hmem).2 (by simp [Json.compact])
  | _ => cases h

/-- What stays a text in a boolean column is none of those that are set. -/
theorem not_mem_setSpellings_of_coerce {d : Json} {s : String} (h : coerce d .bool = text s) : s ∉ setSpellings := by
  -- a spelling of a flag that is set is read as one, and does not stay a text
  have hread : ∀ s ∈ setSpellings, readFlag? (.str s) = some true := by decide +kernel
  intro hmem
  cases d with
  | null => cases h
  | bool => cases h
  | num n =>
    have hnumber : ∀ flag : Option Bool, (flag.map bool).getD (ofJson (.num n)) ≠ text s := by
      intro flag
      cases flag with
      | none =>
        rw [Option.map_none, Option.getD_none, ofJson]
        split <;> simp
      | some b => simp
    exact hnumber _ h
  | str word =>
    have hword : ((readFlag? (.str word)).map bool).getD (text word) = text s := h
    cases hflag : readFlag? (.str word) with
    | none =>
      rw [hflag] at hword
      obtain rfl := Cell.text.inj hword
      rw [hread word hmem] at hflag
      cases hflag
    | some b =>
      rw [hflag] at hword
      cases hword
  | arr items => exact compact_not_mem_setSpellings rfl (Cell.text.inj h ▸ hmem)
  | obj entries => exact compact_not_mem_setSpellings rfl (Cell.text.inj h ▸ hmem)

end Cell

/-- The row has a mark that the store finds. -/
def Row.Flagged (row : Row) (flag : String) : Prop :=
  ∃ c, (flag, c) ∈ row ∧ c.Flagged

namespace Table

open Operation

variable {t : Table} {flag : String} {column relation : String} {action : LinkAction} {key : Cell} {rows : Rows}
  {result : Except Error Unit}

theorem isSystem_of_mark (hflag : t.systemFlag = some flag) {row : Row} {c : Cell}
    (hrow : ∀ c', (flag, c') ∈ row ↔ c' = c) : t.isSystem row = true ↔ c.isSet = true := by
  rw [isSystem_iff, Marks]
  constructor
  · rintro ⟨flag', c', hflag', hmem, hset⟩
    obtain rfl := Option.some.inj (hflag'.symm.trans hflag)
    exact (hrow c').mp hmem ▸ hset
  · exact fun hset => ⟨flag, c, hflag, (hrow c).mpr rfl, hset⟩

theorem checkCreate_eq_ok {values : Row} : t.checkCreate values = .ok () ↔ t.isSystem values = false := by
  rw [checkCreate]
  split <;> simp_all

/-- A record may be linked unless the store finds it by its mark. -/
theorem checkLinks_runs_query (hflag : t.systemFlag = some flag)
    (h : (t.checkLinks column relation action [key]).Runs
      [⟨.query (.flagged t.name column flag [key]), .ok rows⟩] result) :
    result = .ok () ↔ rows.cells = [] := by
  rw [checkLinks, hflag] at h
  obtain ⟨e, habsurd, -⟩ | ⟨before, found, after, hquery, hrest, hevents⟩ := runs_bind.mp h
  · cases List.head_eq_of_cons_eq (runs_query.mp habsurd)
  obtain rfl := runs_query.mp hquery
  obtain ⟨hfirst, rfl⟩ := List.cons.inj hevents
  cases hfirst
  split at hrest
  · rename_i hnone
    exact iff_of_true (runs_pure.mp hrest).2 (List.isEmpty_iff.mp hnone)
  · rename_i hsome
    refine iff_of_false (fun hok => ?_) (mt List.isEmpty_iff.mpr hsome)
    rw [hok] at hrest
    cases (runs_throw.mp hrest).2

/-- A document is assigned to the column that marks system records, and the store keeps what it becomes there. Such a
record may be created exactly if it is no system record when it is changed or deleted. It may be linked exactly then,
too, unless the document becomes a text other than those that are set; in a boolean column, unless it becomes any
text. -/
theorem marks_agree (hflag : t.systemFlag = some flag) {d : Json} (hvalid : ∀ n, d = .num n → n.Valid)
    (type : ScalarType) {values row : Row} (hvalues : ∀ c, (flag, c) ∈ values ↔ c = Cell.coerce d type)
    (hrow : ∀ c, (flag, c) ∈ row ↔ c = (Cell.coerce d type).stored)
    (hfinds : rows.cells ≠ [] ↔ row.Flagged flag)
    (hruns : (t.checkLinks column relation action [key]).Runs
      [⟨.query (.flagged t.name column flag [key]), .ok rows⟩] result) :
    (t.checkCreate values = .ok () ↔ t.isSystem row = false) ∧
      ((t.isSystem row = false ↔ result = .ok ()) ↔
        ∀ s, Cell.coerce d type = .text s → s ∈ Cell.setSpellings) ∧
      (type = .bool → ((t.isSystem row = false ↔ result = .ok ()) ↔ ∀ s, Cell.coerce d type ≠ .text s)) := by
  have hset : t.isSystem row = true ↔ (Cell.coerce d type).isSet = true := by
    rw [isSystem_of_mark hflag hrow, Cell.isSet_stored fun _ => Cell.isFinite_of_coerce hvalid]
  have hlinks : result = .ok () ↔ ¬(Cell.coerce d type).Flagged := by
    have hmark : row.Flagged flag ↔ (Cell.coerce d type).Flagged := by
      simp only [Row.Flagged, hrow, exists_eq_left, Cell.flagged_stored]
    rw [checkLinks_runs_query hflag hruns, ← hmark, ← hfinds, not_not]
  have hagree : (t.isSystem row = false ↔ result = .ok ()) ↔
      ∀ s, Cell.coerce d type = .text s → s ∈ Cell.setSpellings := by
    rw [← Cell.isSet_coerce_iff hvalid type, hlinks, ← Bool.not_eq_true, hset, not_iff_not]
  refine ⟨?_, hagree, ?_⟩
  · rw [checkCreate_eq_ok, ← Bool.not_eq_true, ← Bool.not_eq_true, hset, isSystem_of_mark hflag hvalues]
  · rintro rfl
    rw [hagree]
    exact forall_congr' fun s => ⟨fun h hs => Cell.not_mem_setSpellings_of_coerce hs (h hs), fun h hs => absurd hs h⟩

/-- A role that is marked by a text for false is created, and users may be given it. -/
theorem marks_agree_roles :
    let values : Row := [("id", .int 3), ("isSystem", Cell.coerce (.str " False") .bool)]
    let row : Row := [("id", .int 3), ("isSystem", .int 0)]
    let question : Query := .flagged "roles" "id" "isSystem" [.int 3]
    Table.roles.systemFlag = some "isSystem" ∧
    (∀ c, ("isSystem", c) ∈ values ↔ c = Cell.coerce (.str " False") .bool) ∧
    (∀ c, ("isSystem", c) ∈ row ↔ c = (Cell.coerce (.str " False") .bool).stored) ∧
    (Table.roles.checkLinks "id" "role" .attach [.int 3]).Runs [⟨.query question, .ok ⟨["id"], []⟩⟩] (.ok ()) ∧
    (Table.roles.checkCreate values = .ok () ↔ Table.roles.isSystem row = false) ∧ Table.roles.isSystem row = false := by
  intro values row question
  have hfalse : Cell.coerce (.str " False") .bool = .bool false := by decide +kernel
  have hvalues : ∀ c, ("isSystem", c) ∈ values ↔ c = Cell.coerce (.str " False") .bool := by simp [values]
  have hrow : ∀ c, ("isSystem", c) ∈ row ↔ c = (Cell.coerce (.str " False") .bool).stored := by
    simp [row, hfalse, Cell.stored]
  have hmark : ¬row.Flagged "isSystem" := by
    simp [Row.Flagged, hrow, hfalse, Cell.flagged_iff, Cell.stored, Cell.value]
  have hruns : (Table.roles.checkLinks "id" "role" .attach [.int 3]).Runs [⟨.query question, .ok ⟨["id"], []⟩⟩]
      (.ok ()) := .perform _ (.done _)
  obtain ⟨hcreate, hagree, -⟩ := marks_agree rfl (by simp) .bool hvalues hrow (iff_of_false (by simp) hmark) hruns
  refine ⟨rfl, hvalues, hrow, hruns, hcreate, (hagree.mpr fun s hs => ?_).mpr rfl⟩
  rw [hfalse] at hs
  cases hs

/-- A role that is marked by any other text is created, changed and deleted as no system record, but cannot be given to
users. -/
theorem not_marks_agree_maybe :
    let mark := Cell.coerce (.str "maybe") .bool
    let question : Query := .flagged "roles" "id" "isSystem" [.int 3]
    Table.roles.checkCreate [("id", .int 3), ("isSystem", mark)] = .ok () ∧
    Table.roles.isSystem [("id", .int 3), ("isSystem", mark.stored)] = false ∧
    Row.Flagged [("id", .int 3), ("isSystem", mark.stored)] "isSystem" ∧
    (Table.roles.checkLinks "id" "role" .attach [.int 3]).Runs [⟨.query question, .ok ⟨["id"], [[.int 3]]⟩⟩]
      (.error (.protection (.relation "roles" "role" .attach "3"))) := by
  intro mark question
  have hmark : mark = .text "maybe" := by decide +kernel
  refine ⟨by rw [hmark]; decide +kernel, by rw [hmark]; decide +kernel, ?_, .perform _ (.done _)⟩
  exact ⟨mark.stored, by simp, Cell.flagged_stored.mpr (hmark ▸ Cell.flagged_text _)⟩

end Table
end RecordService
