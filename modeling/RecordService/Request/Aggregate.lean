import RecordService.Json.Basic
import RecordService.Request.Error

/-! # Counts and aggregates

Which counts go with a page of records (`CountMode`), and which aggregates are computed over all records that pass
the filter (`AggregateRequest`). -/

namespace RecordService

/-- The counts of a find. -/
structure CountMode where
  /-- All records of the table. -/
  total : Bool
  /-- The records that pass the filter. -/
  filtered : Bool
deriving DecidableEq, Repr

namespace CountMode

def any (m : CountMode) : Bool :=
  m.total || m.filtered

/-- The mode with what one word adds. -/
def add (m : CountMode) (word : String) : Except CompileError CountMode :=
  if word == "*" then .ok ⟨true, true⟩
  else if word == "totalCount" then .ok { m with total := true }
  else if word == "filterCount" then .ok { m with filtered := true }
  else .error (.invalidMeta word)

/-- The mode of a comma-separated list of words. -/
def ofText (text : Option String) : Except CompileError CountMode :=
  match text with
  | none => .ok ⟨false, false⟩
  | some text => (Text.pieces ',' text).foldlM add ⟨false, false⟩

end CountMode

/-- One aggregate of a find. -/
structure AggregateRequest where
  function : AggregateFunction
  /-- The column or relation; the empty path and `*` stand for the records themselves. -/
  path : Path
  /-- A filter on the rows that count. -/
  condition : Option Json
  /-- The name of the value in the answer, under the function. -/
  label : String

namespace AggregateRequest

/-- One target: a path, or an object with a field, a condition and a label. -/
def ofTarget (function : AggregateFunction) : Json → Except CompileError AggregateRequest
  | .str path => .ok ⟨function, .ofText path, none, path⟩
  | .obj entries =>
    match Entries.get? entries "field" with
    | some (.str field) =>
      let label := match Entries.get? entries "as" with
        | some (.str label) => label
        | _ => field
      let condition := match Entries.get? entries "condition" with
        | some .null => none
        | other => other
      .ok ⟨function, .ofText field, condition, label⟩
    | _ => .error (.malformedAggregate (.noField function))
  | _ => .error (.malformedAggregate (.notATarget function))

/-- The aggregates that an entry of the document asks for. -/
def ofEntry (name : String) (spec : Json) : Except CompileError (List AggregateRequest) :=
  match AggregateFunction.ofKey? name with
  | none => .error (.unknownFunction name)
  | some function =>
    match spec with
    | .arr items => items.mapM (ofTarget function)
    | single => do return [← ofTarget function single]

/-- The aggregates of a document, in order. -/
def ofJson : Json → Except CompileError (List AggregateRequest)
  | .null => .ok []
  | .obj entries => do return (← entries.mapM fun e => ofEntry e.1 e.2).flatten
  | _ => .error (.malformedAggregate .notAnObject)

end AggregateRequest
end RecordService
