import RecordService.Plan.Projection
import RecordService.Plan.Query
import RecordService.Request.Find

/-! # Find plans

`FindPlan.compile` turns a find request into its queries. The parts are compiled in a fixed order (fields, filter,
sort, aggregates), so that the aliases of a request are always the same; the count mode and the form of the
aggregates are checked before anything is looked up. -/

namespace RecordService

/-- Everything it takes to answer one find. -/
structure FindPlan where
  table : String
  projection : Projection
  data : RowQuery
  window : Window
  totalCount : Option CountQuery
  filterCount : Option CountQuery
  aggregate : Option AggregateQuery
  /-- The paths that were dropped. -/
  skipped : List String

namespace FindPlan

/-- The statements in the order in which they are run, each with its label. -/
def statements (p : FindPlan) : List (String × Sql.Statement) :=
  let labelled (label : String) (q : Option CountQuery) := (q.map fun q => (label, q.statement)).toList
  [("data", p.data.statement)] ++ labelled "totalCount" p.totalCount ++ labelled "filterCount" p.filterCount ++
    (p.aggregate.map fun q => ("aggregate", q.statement)).toList

end FindPlan

/-- The parts of a request, compiled. -/
structure CompiledParts where
  projection : Projection
  filter : List Condition
  sort : List SortKey
  aggregates : List AggregateTerm
  draft : Draft

namespace CompiledParts

/-- Compiles the parts of a request in their order. -/
def compile (s : Setting) (request : FindRequest) (aggregates : List AggregateRequest) :
    Except CompileError CompiledParts := do
  let d : Draft := ⟨.start s.options.rootAlias, []⟩
  let (projection, d) ← Projection.ofFields s (Path.listOf request.fields) d
  let (filter, d) ← Filter.compileJson s .forFilter request.filter d
  let (sort, d) ← SortKey.listOf s (SortTerm.listOf request.sort) d
  let (aggregates, d) ← AggregateRequest.compileAll s aggregates d
  return ⟨projection, filter, sort, aggregates, d⟩

/-- The root table with some joins. -/
def source (c : CompiledParts) (s : Setting) (joins : List Join) : Source :=
  ⟨s.root.name, c.draft.plan.root, joins⟩

/-- The key of the root table. -/
def rootKey (c : CompiledParts) (s : Setting) : Sql.ColumnRef :=
  ⟨c.draft.plan.root, s.root.primaryKey⟩

/-- The query for the rows of a page. -/
def rowQuery (c : CompiledParts) (s : Setting) (window : Window) : RowQuery :=
  let plan := c.draft.plan
  let paging :=
    if window.limit.isSome && plan.hasMany .forRows then
      .keys ⟨c.rootKey s, c.source s (plan.joinsFor (Usage.forFilter.union .forSort)), c.filter, c.sort, window⟩
    else .rows window
  { columns := c.projection.columns.map (·.ref)
    source := c.source s (plan.joinsFor .forRows)
    filter := c.filter
    sort := c.sort
    relatedKeys := ((plan.joinsFor .forRows).filter (·.many)).map fun j => ⟨j.tableAlias, j.primaryKey⟩
    paging }

/-- The query for the number of records that pass the filter. -/
def countQuery (c : CompiledParts) (s : Setting) : CountQuery :=
  .filtered (c.rootKey s) (c.source s (c.draft.plan.joinsFor .forFilter)) c.filter

/-- The records that pass the filter, if there is one. -/
def filtered (c : CompiledParts) (s : Setting) : Option SemiJoin :=
  if c.filter.isEmpty then none
  else some ⟨c.rootKey s, c.source s (c.draft.plan.joinsFor .forFilter), c.filter⟩

/-- One aggregate over the joins of its own target and condition. If the target's rows are records and the condition
would multiply them, the condition goes into a subquery. -/
def aggregateSelect (c : CompiledParts) (s : Setting) (t : AggregateTerm) : AggregateSelect :=
  let plan := c.draft.plan
  let select (rows : RowChoice) (places : List Nat) : AggregateSelect :=
    ⟨t.call, rows, c.source s (plan.joinsAt places), c.filtered s, t.label⟩
  if !t.condition.isEmpty && !plan.anyMany t.targetJoins && plan.anyMany t.conditionJoins then
    let matching : SemiJoin := ⟨c.rootKey s, c.source s (plan.joinsAt t.conditionJoins), t.condition⟩
    select (.within matching) t.targetJoins
  else select (.meeting t.condition) (t.targetJoins ++ t.conditionJoins)

/-- The query for the aggregates, if there are any. -/
def aggregateQuery (c : CompiledParts) (s : Setting) : Option AggregateQuery :=
  if c.aggregates.isEmpty then none else some ⟨c.aggregates.map (c.aggregateSelect s)⟩

end CompiledParts

namespace FindPlan

/-- The table and the options of a compilation, checked. -/
def setting (catalog : Catalog) (table : String) (options : CompileOptions) : Except CompileError Setting := do
  options.check
  match catalog.table? table with
  | some root => return ⟨catalog, root, options⟩
  | none => .error (.unknownTable table)

/-- Compiles a request against a table. -/
def compile (catalog : Catalog) (table : String) (request : FindRequest) (options : CompileOptions) :
    Except CompileError FindPlan := do
  let counts ← CountMode.ofText request.counts
  let aggregates ← AggregateRequest.ofJson request.aggregate
  let s ← setting catalog table options
  let c ← CompiledParts.compile s request aggregates
  let window := Window.ofPage request.page request.limit options.defaultLimit
  return {
    table := s.root.name
    projection := c.projection
    data := c.rowQuery s window
    window
    totalCount := if counts.total then some (.all s.root.name) else none
    filterCount := if counts.filtered then some (c.countQuery s) else none
    aggregate := c.aggregateQuery s
    skipped := c.draft.skipped }

end FindPlan
end RecordService
