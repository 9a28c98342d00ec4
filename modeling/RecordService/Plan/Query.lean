import RecordService.Plan.Aggregate
import RecordService.Plan.Sort
import RecordService.Plan.Window

/-! # Queries of a find

A find asks up to four things: a page of rows (`RowQuery`), two counts (`CountQuery`), and aggregates over all
records that pass the filter (`AggregateQuery`). Each is kept as what it is made of and written out as a statement;
the cells that it binds stand in the order of their placeholders.

When the rows join to-many relations and there is a limit, a row is not a record: the page is then taken of the
distinct root keys, in a subquery of its own (`KeyPage`). Aggregates see the filter, and a condition that multiplies
records, as membership of the root key in a subquery (`SemiJoin`), so that each record counts once. -/

namespace RecordService

/-- The root table under its alias, and the joins that go with it. -/
structure Source where
  table : String
  tableAlias : String
  joins : List Join
deriving DecidableEq, Repr

def Source.text (s : Source) : String :=
  s!"{Sql.quoteName s.table} AS {Sql.quoteName s.tableAlias}{joinsText s.joins}"

/-- The rows of a source that meet conditions, as the root keys they belong to. -/
structure SemiJoin where
  key : Sql.ColumnRef
  source : Source
  conditions : List Condition
deriving Repr

/-- Membership of the key among the rows. -/
def SemiJoin.render (j : SemiJoin) : Sql.Fragment :=
  let key := j.key.text
  (Sql.Fragment.whereClause (Condition.allOf j.conditions)).wrap s!"{key} IN (SELECT {key} FROM {j.source.text}" ")"

/-! ### Rows -/

/-- The distinct root keys of a page. -/
structure KeyPage where
  key : Sql.ColumnRef
  source : Source
  filter : List Condition
  sort : List SortKey
  window : Window
deriving Repr

namespace KeyPage

/-- The name of the value of the sort key at a place. -/
def sortName (place : Nat) : String :=
  Sql.quoteName ("o" ++ toString place)

/-- Membership of the root key among those of the page. -/
def render (p : KeyPage) : Sql.Fragment :=
  let key := p.key.text
  let values := p.sort.zipIdx.map fun (k, place) => s!"{k.column.text} AS {sortName place}"
  let order := p.sort.zipIdx.map fun (k, place) => k.textAs (sortName place)
  let select := Sql.Fragment.raw ("SELECT DISTINCT " ++ key ++ " AS " ++ Sql.quoteName "k" ++ ", " ++
    String.intercalate ", " values ++ " FROM " ++ p.source.text)
  let page := select ++ Sql.Fragment.whereClause (Condition.allOf p.filter) ++
    Sql.Fragment.raw (" ORDER BY " ++ String.intercalate ", " order ++ p.window.clause)
  page.wrap (key ++ " IN (SELECT " ++ Sql.ColumnRef.text ⟨"w", "k"⟩ ++ " FROM (")
    (") AS " ++ Sql.quoteName "w" ++ ")")

end KeyPage

/-- How the rows are cut to the page. -/
inductive Paging where
  /-- By the rows themselves. -/
  | rows (window : Window)
  /-- By the root keys. -/
  | keys (page : KeyPage)
deriving Repr

structure RowQuery where
  columns : List Sql.ColumnRef
  source : Source
  filter : List Condition
  sort : List SortKey
  /-- The keys of joined to-many relations; related records come in their order. -/
  relatedKeys : List Sql.ColumnRef
  paging : Paging
deriving Repr

namespace RowQuery

/-- The order: by the sort keys and then by the related keys. -/
def orderClause (q : RowQuery) : String :=
  " ORDER BY " ++
    String.intercalate ", " (q.sort.map (·.text) ++ q.relatedKeys.map fun c => orderTerm c.text false)

/-- The filter together with what the paging asks of a row. -/
def condition (q : RowQuery) : Option Sql.Fragment :=
  match q.paging, Condition.allOf q.filter with
  | .rows _, filter => filter
  | .keys page, some filter => some (filter ++ Sql.Fragment.raw Sql.Connective.and.text ++ page.render)
  | .keys page, none => some page.render

/-- The clause that cuts the rows, if the rows are cut. -/
def windowClause (q : RowQuery) : String :=
  match q.paging with
  | .rows window => window.clause
  | .keys _ => ""

def statement (q : RowQuery) : Sql.Statement :=
  let select := String.intercalate ", " (q.columns.map (·.text))
  let rows := Sql.Fragment.raw s!"SELECT {select} FROM {q.source.text}"
  (rows ++ Sql.Fragment.whereClause q.condition ++ Sql.Fragment.raw (q.orderClause ++ q.windowClause)).statement

/-- The window of the page, wherever it is cut. -/
def window (q : RowQuery) : Window :=
  match q.paging with
  | .rows window => window
  | .keys page => page.window

end RowQuery

/-! ### Counts -/

inductive CountQuery where
  /-- The records of a table. -/
  | all (table : String)
  /-- The records that pass the filter. -/
  | filtered (key : Sql.ColumnRef) (source : Source) (filter : List Condition)
deriving Repr

def CountQuery.statement : CountQuery → Sql.Statement
  | all table => ⟨s!"SELECT COUNT(*) FROM {Sql.quoteName table}", []⟩
  | filtered key source filter =>
    let count := Sql.Fragment.raw s!"SELECT COUNT(DISTINCT {key.text}) FROM {source.text}"
    (count ++ Sql.Fragment.whereClause (Condition.allOf filter)).statement

/-! ### Aggregates -/

/-- Which rows an aggregate takes in. -/
inductive RowChoice where
  /-- Those that meet conditions on their own columns; all, if there are none. -/
  | meeting (conditions : List Condition)
  /-- Those of the records that a subquery finds. -/
  | within (records : SemiJoin)
deriving Repr

def RowChoice.render : RowChoice → Option Sql.Fragment
  | .meeting conditions => Condition.allOf conditions
  | .within records => some records.render

/-- One aggregate over its own joins. -/
structure AggregateSelect where
  call : AggregateCall
  rows : RowChoice
  source : Source
  /-- The records that pass the filter, if there is one. -/
  records : Option SemiJoin
  label : String
deriving Repr

def AggregateSelect.render (a : AggregateSelect) : Sql.Fragment :=
  (a.call.render a.rows.render).wrap "SELECT " s!" FROM {a.source.text}" ++
    Sql.Fragment.whereClause (a.records.map (·.render))

/-- Aggregates, computed together as the cells of one row. -/
structure AggregateQuery where
  parts : List AggregateSelect
deriving Repr

def AggregateQuery.statement (q : AggregateQuery) : Sql.Statement :=
  let columns := q.parts.zipIdx.map fun (a, place) =>
    a.render.wrap "(" (") AS " ++ Sql.quoteName ("a" ++ toString place))
  ((Sql.Fragment.join ", " columns).wrap "SELECT " "").statement

end RecordService
