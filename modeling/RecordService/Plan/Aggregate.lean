import RecordService.Plan.Condition
import RecordService.Request.Aggregate

/-! # Aggregate terms

An aggregate request becomes a function of one column under a condition, together with the joins that its target and
its condition reach. Unlike filters and fields, a target that leads nowhere is always an error. -/

namespace RecordService

/-- A function of a column, possibly of the distinct values of it. -/
structure AggregateCall where
  function : AggregateFunction
  column : Sql.ColumnRef
  distinct : Bool
deriving DecidableEq, Repr

/-- The call over all rows, or over those that meet a condition: a count then sums ones, the other functions skip
the rows that do not meet it. -/
def AggregateCall.render (call : AggregateCall) : Option Sql.Fragment → Sql.Fragment
  | none =>
    let col := call.column.text
    if call.function = .count && call.distinct then .raw s!"COUNT(DISTINCT {col})"
    else .raw s!"{call.function.sql}({col})"
  | some condition =>
    if call.function = .count then condition.wrap "SUM(CASE WHEN " " THEN 1 ELSE 0 END)"
    else condition.wrap s!"{call.function.sql}(CASE WHEN " s!" THEN {call.column.text} END)"

/-- An aggregate of a plan. -/
structure AggregateTerm where
  call : AggregateCall
  /-- What has to hold of the rows that count; no parts for all rows. -/
  condition : List Condition
  label : String
  /-- The places of the joins that the target reaches. -/
  targetJoins : List Nat
  /-- The places of the joins that the condition reaches. -/
  conditionJoins : List Nat
deriving Repr

namespace AggregateRequest

/-- Whether the request is for the records themselves. -/
def ofRecords (r : AggregateRequest) : Bool :=
  r.path.isEmpty || r.path.segments == ["*"]

/-- The column of the target, joined. -/
def target (s : Setting) (r : AggregateRequest) (plan : JoinPlan) : Except CompileError (AggregateCall × JoinPlan) :=
  let reject (fault : AggregateFault) : Except CompileError (AggregateCall × JoinPlan) :=
    .error (.invalidAggregate r.function r.path fault)
  if r.ofRecords then
    if r.function ≠ .count then reject .onlyCountsAll
    else .ok (⟨r.function, ⟨plan.root, s.root.primaryKey⟩, false⟩, plan)
  else
    match s.resolve? plan r.path .forAggregate with
    | none => reject .unresolved
    | some (.column _ tableAlias column, plan) =>
      if r.function ≠ .count && !(column.type.isNumeric || column.type.isTemporal) then reject .columnType
      else .ok (⟨r.function, ⟨tableAlias, column.name⟩, false⟩, plan)
    | some (.relation _ parentPath parentAlias _ relation target, plan) =>
      if r.function ≠ .count then reject .onlyCountsRelations
      else
        let (hop, plan) := plan.cross parentPath parentAlias relation target .forAggregate
        .ok (⟨r.function, ⟨hop.tableAlias, target.primaryKey⟩, true⟩, plan)

/-- Compiles an aggregate: its target first, then its condition. -/
def compile (s : Setting) (r : AggregateRequest) (d : Draft) : Except CompileError (AggregateTerm × Draft) := do
  let (call, plan) ← r.target s d.plan.record
  let (targetJoins, plan) := plan.recorded
  let d := { d with plan := plan.record }
  let (condition, d) ← Filter.compileJson s .forAggregate (r.condition.getD .null) d
  let (conditionJoins, plan) := d.plan.recorded
  return (⟨call, condition, r.label, targetJoins, conditionJoins⟩, { d with plan })

/-- Compiles aggregates in order. -/
def compileAll (s : Setting) : List AggregateRequest → Draft → Except CompileError (List AggregateTerm × Draft)
  | [], d => .ok ([], d)
  | r :: rest, d => do
    let (term, d) ← r.compile s d
    let (terms, d) ← compileAll s rest d
    return (term :: terms, d)

end AggregateRequest
end RecordService
