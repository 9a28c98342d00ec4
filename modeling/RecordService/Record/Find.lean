import RecordService.Record.Deferred

/-! # Running a find

The rows are fetched and put together, deferred relations are loaded, and then the counts and aggregates of the
request are asked for. -/

namespace RecordService

/-- An aggregate's value under its function and label. -/
structure AggregateValue where
  function : AggregateFunction
  label : String
  value : Json
deriving Repr

structure FindResult where
  data : List Entries
  totalCount : Option Nat
  filterCount : Option Nat
  aggregates : Option (List AggregateValue)

namespace FindResult

/-- The values of aggregates by function and label. A later value takes the place of an earlier one. -/
def aggregateJson (values : List AggregateValue) : Json :=
  .obj (values.foldl (fun es a =>
    let labels := match Entries.get? es a.function.name with
      | some (.obj labels) => labels
      | _ => []
    Entries.put es a.function.name (.obj (Entries.put labels a.label a.value))) [])

/-- What goes with the records, if the request asked for it. -/
def metaEntries (r : FindResult) : Entries :=
  (r.totalCount.map fun n => ("totalCount", Json.int n)).toList ++
    (r.filterCount.map fun n => ("filterCount", Json.int n)).toList ++
      (r.aggregates.map fun values => ("aggregate", aggregateJson values)).toList

def toJson (r : FindResult) : Json :=
  let extra := r.metaEntries
  .obj (("data", .arr (r.data.map .obj)) :: if extra.isEmpty then [] else [("meta", .obj extra)])

end FindResult

/-- The count in a cell; zero if it is no count. -/
def Cell.toCount : Cell → Nat
  | .int i => i.toNat
  | .float x => x.toCount
  | _ => 0

namespace AggregateQuery

/-- The values of the aggregates in the cells of a row. A count without a value is zero. -/
def values : List AggregateSelect → List Cell → List AggregateValue
  | [], _ => []
  | a :: rest, cells =>
    let value := match cells.head?, a.call.function with
      | none, .count => .int 0
      | some .null, .count => .int 0
      | some c, _ => c.toJson none
      | none, _ => .null
    ⟨a.call.function, a.label, value⟩ :: values rest cells.tail

end AggregateQuery

namespace FindPlan

/-- Runs a count, if there is one. -/
def runCount : Option CountQuery → Operation (Option Nat)
  | none => return none
  | some q => do
    let rows ← Operation.query (.count q)
    return some ((rows.scalar?.map (·.toCount)).getD 0)

/-- Runs the aggregates, if there are any. -/
def runAggregates : Option AggregateQuery → Operation (Option (List AggregateValue))
  | none => return none
  | some q => do
    let rows ← Operation.query (.aggregate q)
    return some (AggregateQuery.values q.parts (rows.cells.head?.getD []))

/-- Runs a find. -/
def run (p : FindPlan) : Operation FindResult := do
  let rows ← Operation.query (.rows p.data)
  Operation.ask (.ended .execute)
  let records := p.projection.hydrate rows.cells
  let records ← Projection.loadDeferred p.projection.deferred records
  let data := records.map p.projection.collapse
  Operation.ask (.ended .hydrate)
  let totalCount ← runCount p.totalCount
  let filterCount ← runCount p.filterCount
  let aggregates ← runAggregates p.aggregate
  if totalCount.isSome || filterCount.isSome || aggregates.isSome then
    Operation.ask (.ended .count)
  return ⟨data, totalCount, filterCount, aggregates⟩

end FindPlan
end RecordService
