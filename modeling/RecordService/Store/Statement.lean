import RecordService.Plan.Find

/-! # What is asked of the store

Every statement that leaves the service is a value of `Query` or `Change`. Both say what is meant (a page of rows,
the links of a record, an insert); `statement` writes it out. -/

namespace RecordService

/-- The rows that a query returns. -/
structure Rows where
  columns : List String
  cells : List (List Cell)
deriving DecidableEq, Repr

namespace Rows

def empty : Rows := ⟨[], []⟩

/-- The first cell of the first row. -/
def scalar? (r : Rows) : Option Cell :=
  r.cells.head?.bind List.head?

end Rows

/-- What a change has done. -/
structure Outcome where
  affected : Nat
  /-- The key that the last insert made up. -/
  lastId : Option Int
deriving DecidableEq, Repr

inductive Query where
  | rows (q : RowQuery)
  | count (q : CountQuery)
  | aggregate (q : AggregateQuery)
  /-- The links of some parents. -/
  | deferred (link : DeferredLink) (parents : List Cell)
  /-- The whole row of a record. -/
  | record (table primaryKey : String) (key : Cell)
  /-- The targets linked to one parent. -/
  | links (table : LinkTable) (parent : Cell)
  /-- Those of some keys that belong to system records. -/
  | flagged (table key flag : String) (ids : List Cell)
deriving Repr

def Query.statement : Query → Sql.Statement
  | rows q => q.statement
  | count q => q.statement
  | aggregate q => q.statement
  | deferred link parents => link.statement parents
  | record table primaryKey key =>
    ⟨s!"SELECT * FROM {Sql.quoteName table} WHERE {Sql.quoteName primaryKey} = ?", [key]⟩
  | links l parent =>
    let target := Sql.quoteName l.targetKey
    ⟨s!"SELECT {target} FROM {Sql.quoteName l.table} WHERE {Sql.quoteName l.parentKey} = ?", [parent]⟩
  | flagged table key flag ids =>
    let id := Sql.ColumnRef.text ⟨"t", key⟩
    let marked := Sql.ColumnRef.text ⟨"t", flag⟩
    ⟨s!"SELECT {id} FROM {Sql.quoteName table} AS " ++ Sql.quoteName "t" ++
      s!" WHERE {id} IN ({Sql.placeholders ids}) AND {marked} <> 0", ids⟩

inductive Change where
  /-- A new row; without values, all of them defaults. -/
  | insert (table : String) (values : List (String × Cell))
  | update (table : String) (values : List (String × Cell)) (primaryKey : String) (key : Cell)
  /-- Deletes the rows with a value in a column. -/
  | delete (table column : String) (value : Cell)
  /-- A new link row. -/
  | link (table : LinkTable) (parent target : Cell)
  /-- Deletes some link rows of a parent. -/
  | unlink (table : LinkTable) (parent : Cell) (targets : List Cell)
  /-- Makes targets refer to the parent. -/
  | claim (table : LinkTable) (parent : Cell) (targets : List Cell)
  /-- Makes targets refer to no parent. -/
  | release (table : LinkTable) (targets : List Cell)
deriving DecidableEq, Repr

namespace Change

/-- The table that is written. -/
def table : Change → String
  | insert t _ => t
  | update t _ _ _ => t
  | delete t _ _ => t
  | link l _ _ => l.table
  | unlink l _ _ => l.table
  | claim l _ _ => l.table
  | release l _ => l.table

def statement : Change → Sql.Statement
  | insert table [] => ⟨s!"INSERT INTO {Sql.quoteName table} DEFAULT VALUES", []⟩
  | insert table values =>
    let names := String.intercalate ", " (values.map fun v => Sql.quoteName v.1)
    let cells := values.map (·.2)
    ⟨s!"INSERT INTO {Sql.quoteName table} ({names}) VALUES ({Sql.placeholders cells})", cells⟩
  | update table values primaryKey key =>
    let assignments := String.intercalate ", " (values.map fun v => Sql.quoteName v.1 ++ " = ?")
    ⟨s!"UPDATE {Sql.quoteName table} SET {assignments} WHERE {Sql.quoteName primaryKey} = ?",
      values.map (·.2) ++ [key]⟩
  | delete table column value =>
    ⟨s!"DELETE FROM {Sql.quoteName table} WHERE {Sql.quoteName column} = ?", [value]⟩
  | link l parent target =>
    let columns := Sql.quoteName l.parentKey ++ ", " ++ Sql.quoteName l.targetKey
    ⟨s!"INSERT INTO {Sql.quoteName l.table} ({columns}) VALUES (?, ?)", [parent, target]⟩
  | unlink l parent targets =>
    let target := Sql.quoteName l.targetKey
    ⟨s!"DELETE FROM {Sql.quoteName l.table} WHERE {Sql.quoteName l.parentKey} = ? AND {target} IN (" ++
      Sql.placeholders targets ++ ")", parent :: targets⟩
  | claim l parent targets =>
    let target := Sql.quoteName l.targetKey
    ⟨s!"UPDATE {Sql.quoteName l.table} SET {Sql.quoteName l.parentKey} = ? WHERE {target} IN (" ++
      Sql.placeholders targets ++ ")", parent :: targets⟩
  | release l targets =>
    let target := Sql.quoteName l.targetKey
    ⟨s!"UPDATE {Sql.quoteName l.table} SET {Sql.quoteName l.parentKey} = NULL WHERE {target} IN (" ++
      Sql.placeholders targets ++ ")", targets⟩

end Change
end RecordService
