import Mathlib.Data.List.Basic
import Mathlib.Logic.Function.Basic
import RecordService.Plan.Query

/-! # Joined rows

The rows that a FROM clause yields: those of its root table, extended by one left join after the other with the rows of
a table that match, or with nulls where none does. Joins that match at most one row neither drop a row nor repeat one
(`Source.rows_root`), and what such a join adds to a row follows from the row of its parent (`Source.row_join`). -/

namespace RecordService

/-- A row of a table: its cells by column. -/
abbrev TableRow := String → Cell

/-- A row of a FROM clause: a row of a table for every alias. -/
abbrev JoinedRow := String → TableRow

/-- Tables by name, and which cells a store takes for equal. -/
structure Database where
  rows : String → List TableRow
  equal : Cell → Cell → Bool

/-- A left join of a table where its key equals a column to the left. -/
structure LeftJoin where
  table : String
  tableAlias : String
  key : String
  left : Sql.ColumnRef

namespace LeftJoin

/-- The rows of the table that match a value. -/
def matching (j : LeftJoin) (db : Database) (value : Cell) : List TableRow :=
  (db.rows j.table).filter fun row => db.equal (row j.key) value

/-- A row together with each row that matches it, or with nulls. -/
def extend (j : LeftJoin) (db : Database) (row : JoinedRow) : List JoinedRow :=
  match j.matching db (row j.left.tableAlias j.left.column) with
  | [] => [Function.update row j.tableAlias fun _ => .null]
  | found => found.map (Function.update row j.tableAlias)

/-- No two rows of the table match one value. -/
def Functional (j : LeftJoin) (db : Database) : Prop :=
  ∀ value, (j.matching db value).length ≤ 1

variable {j : LeftJoin} {db : Database}

/-- The row that matches a value, or nulls. -/
def value (j : LeftJoin) (db : Database) (cell : Cell) : TableRow :=
  (j.matching db cell).head?.getD fun _ => .null

/-- A functional join makes one row of a row. -/
theorem extend_eq (h : j.Functional db) (row : JoinedRow) :
    j.extend db row = [Function.update row j.tableAlias (j.value db (row j.left.tableAlias j.left.column))] := by
  have hone := h (row j.left.tableAlias j.left.column)
  unfold extend value
  cases hmatch : j.matching db (row j.left.tableAlias j.left.column) with
  | nil => rfl
  | cons found rest =>
    rw [hmatch, List.length_cons] at hone
    obtain rfl : rest = [] := List.eq_nil_of_length_eq_zero (by omega)
    rfl

/-- A join keeps what other aliases stand for. -/
theorem extend_keeps {row row' : JoinedRow} {tableAlias : String} (h : row' ∈ j.extend db row)
    (halias : j.tableAlias ≠ tableAlias) : row' tableAlias = row tableAlias := by
  unfold extend at h
  split at h
  · rw [List.mem_singleton.mp h, Function.update_of_ne halias.symm]
  · obtain ⟨found, -, rfl⟩ := List.mem_map.mp h
    exact Function.update_of_ne halias.symm _ row

theorem map_extend {tableAlias : String} (h : j.Functional db) (halias : j.tableAlias ≠ tableAlias) (row : JoinedRow) :
    (j.extend db row).map (· tableAlias) = [row tableAlias] := by
  rw [extend_eq h]
  exact congrArg (fun joined => [joined]) (Function.update_of_ne halias.symm _ row)

theorem map_foldl_extend {tableAlias : String} : ∀ {joins : List LeftJoin} (rows : List JoinedRow),
    (∀ j ∈ joins, j.Functional db ∧ j.tableAlias ≠ tableAlias) →
      (joins.foldl (fun rows j => rows.flatMap (j.extend db)) rows).map (· tableAlias) = rows.map (· tableAlias)
  | [], _, _ => rfl
  | j :: rest, rows, h => by
    obtain ⟨hfunctional, halias⟩ := h j List.mem_cons_self
    have hrest : ∀ other ∈ rest, other.Functional db ∧ other.tableAlias ≠ tableAlias :=
      fun other hother => h other (List.mem_cons_of_mem j hother)
    rw [List.foldl_cons, map_foldl_extend _ hrest, List.map_flatMap, List.map_eq_flatMap]
    exact List.flatMap_congr fun row _ => map_extend hfunctional halias row

theorem foldl_extend_keeps : ∀ {joins : List LeftJoin} {rows : List JoinedRow} {row : JoinedRow},
    row ∈ joins.foldl (fun rows j => rows.flatMap (j.extend db)) rows →
      ∃ before ∈ rows, ∀ tableAlias, (∀ j ∈ joins, j.tableAlias ≠ tableAlias) → row tableAlias = before tableAlias
  | [], _, row, h => ⟨row, h, fun _ _ => rfl⟩
  | j :: rest, rows, row, h => by
    obtain ⟨between, hbetween, hkept⟩ := foldl_extend_keeps (List.foldl_cons .. ▸ h)
    obtain ⟨before, hbefore, hextend⟩ := List.mem_flatMap.mp hbetween
    refine ⟨before, hbefore, fun tableAlias hne => ?_⟩
    rw [hkept tableAlias fun other hother => hne other (List.mem_cons_of_mem j hother)]
    exact extend_keeps hextend (hne j List.mem_cons_self)

end LeftJoin

/-- The left joins of a relation, as `Join.text` writes them: one, or two through the junction. -/
def Join.clauses (j : Join) : List LeftJoin :=
  match j.link with
  | some link =>
    [⟨link.table, link.tableAlias, link.sourceKey, ⟨j.parentAlias, j.parentKey⟩⟩,
      ⟨j.table, j.tableAlias, j.targetKey, ⟨link.tableAlias, link.targetKey⟩⟩]
  | none => [⟨j.table, j.tableAlias, j.targetKey, ⟨j.parentAlias, j.parentKey⟩⟩]

/-- A record has at most one related record. -/
def Join.Functional (j : Join) (db : Database) : Prop :=
  ∀ clause ∈ j.clauses, clause.Functional db

/-- The row that a functional join adds to a row of its parent. -/
def Join.value (j : Join) (db : Database) (parent : TableRow) : TableRow :=
  j.clauses.foldl (fun row clause => clause.value db (row clause.left.column)) parent

theorem Join.row_clauses {j : Join} {db : Database} (h : j.Functional db)
    (hparent : ∀ clause ∈ j.clauses, clause.tableAlias ≠ j.parentAlias) {rows : List JoinedRow} {row : JoinedRow}
    (hrow : row ∈ j.clauses.foldl (fun rows clause => rows.flatMap (clause.extend db)) rows) :
    row j.tableAlias = j.value db (row j.parentAlias) := by
  unfold Functional at h
  unfold value
  unfold clauses at *
  cases hlink : j.link with
  | none =>
    simp only [hlink, List.forall_mem_singleton, List.foldl_cons, List.foldl_nil, List.mem_flatMap] at *
    obtain ⟨before, -, hextend⟩ := hrow
    rw [LeftJoin.extend_keeps hextend hparent]
    rw [LeftJoin.extend_eq h] at hextend
    rw [List.mem_singleton.mp hextend, Function.update_self]
  | some link =>
    simp only [hlink, List.forall_mem_cons, List.foldl_cons, List.foldl_nil, List.mem_flatMap] at *
    obtain ⟨between, ⟨before, -, hfirst⟩, hsecond⟩ := hrow
    obtain ⟨hone, htwo, -⟩ := h
    -- each clause adds one row of its own table, and leaves what stands under other aliases
    rw [LeftJoin.extend_keeps hsecond hparent.2.1, LeftJoin.extend_keeps hfirst hparent.1]
    rw [LeftJoin.extend_eq hone] at hfirst
    rw [LeftJoin.extend_eq htwo] at hsecond
    rw [List.mem_singleton.mp hsecond, Function.update_self, List.mem_singleton.mp hfirst, Function.update_self]

/-- The rows of a FROM clause. -/
def Source.rows (source : Source) (db : Database) : List JoinedRow :=
  (source.joins.flatMap Join.clauses).foldl (fun rows j => rows.flatMap (j.extend db))
    ((db.rows source.table).map fun row tableAlias => if tableAlias = source.tableAlias then row else fun _ => .null)

/-- Where all joins are functional, each row of the root table is there exactly once. -/
theorem Source.rows_root {source : Source} {db : Database} (hfunctional : ∀ j ∈ source.joins, j.Functional db)
    (halias : ∀ j ∈ source.joins, ∀ clause ∈ j.clauses, clause.tableAlias ≠ source.tableAlias) :
    (source.rows db).map (· source.tableAlias) = db.rows source.table := by
  rw [rows, LeftJoin.map_foldl_extend, List.map_map]
  · refine (List.map_congr_left fun row _ => ?_).trans (List.map_id _)
    exact if_pos rfl
  · intro clause hclause
    obtain ⟨j, hj, hmem⟩ := List.mem_flatMap.mp hclause
    exact ⟨hfunctional j hj clause hmem, halias j hj clause hmem⟩

/-- What a functional join adds follows from the row of its parent, whatever is joined before it or after it. -/
theorem Source.row_join {source : Source} {db : Database} {before after : List Join} {j : Join}
    (hjoins : source.joins = before ++ j :: after) (hfunctional : j.Functional db)
    (hparent : ∀ clause ∈ j.clauses, clause.tableAlias ≠ j.parentAlias)
    (hafter : ∀ other ∈ after, ∀ clause ∈ other.clauses,
      clause.tableAlias ≠ j.tableAlias ∧ clause.tableAlias ≠ j.parentAlias)
    {row : JoinedRow} (hrow : row ∈ source.rows db) : row j.tableAlias = j.value db (row j.parentAlias) := by
  rw [rows, hjoins, List.flatMap_append, List.flatMap_cons, List.foldl_append, List.foldl_append] at hrow
  obtain ⟨joined, hjoined, hkept⟩ := LeftJoin.foldl_extend_keeps hrow
  have hlater : ∀ clause ∈ after.flatMap Join.clauses,
      clause.tableAlias ≠ j.tableAlias ∧ clause.tableAlias ≠ j.parentAlias := by
    intro clause hclause
    obtain ⟨other, hother, hmem⟩ := List.mem_flatMap.mp hclause
    exact hafter other hother clause hmem
  rw [hkept _ fun clause hclause => (hlater clause hclause).1, hkept _ fun clause hclause => (hlater clause hclause).2]
  exact Join.row_clauses hfunctional hparent hjoined

end RecordService
