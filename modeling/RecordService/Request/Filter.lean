import RecordService.Json.Basic
import RecordService.Request.Error

/-! # Filters

A filter document is read into a tree of conjunctions, disjunctions, negations and predicates. The keys of the
root are clauses of their own; every other object stands for the conjunction of its entries. Reading looks at the
form alone: which path is a column is a question for the catalog. -/

namespace RecordService

/-- A condition on the field at a path. -/
structure Predicate where
  path : Path
  op : Operator
  operand : Json

inductive Filter where
  | all (children : List Filter)
  | any (children : List Filter)
  | not (child : Filter)
  | leaf (predicate : Predicate)

namespace Filter

/-- What a key of a filter document says. -/
inductive Key where
  | all
  | any
  | not
  | count
  | op (o : Operator)
  | field (name : String)
deriving DecidableEq, Repr

/-- Keywords and operators may start with an underscore; any other key is a field. -/
def Key.ofText (key : String) : Key :=
  let bare := bareKeyword key
  if bare == "and" then .all
  else if bare == "or" then .any
  else if bare == "not" then .not
  else if bare == "count" then .count
  else
    match Operator.ofName? bare with
    | some o => .op o
    | none => .field key

/-- The nodes of an object as at most one node. -/
def conjoin : List Filter → Option Filter
  | [] => none
  | [f] => some f
  | fs => some (.all fs)

/-- The predicates of a count operand. -/
def counts (path : Path) : List (String × Json) → Except CompileError (List Filter)
  | [] => .ok []
  | (key, operand) :: rest =>
    match Comparison.ofName? (bareKeyword key) with
    | none => .error (.malformedOperand path "count" .comparisonKeys)
    | some c => do
      let more ← counts path rest
      return .leaf ⟨path, .count c, operand⟩ :: more

/-- An operator needs a field to stand under. -/
def underField (key : String) (path : Path) : Except CompileError Unit :=
  if path.isEmpty then .error (.malformedFilter (.operatorAtRoot key)) else .ok ()

/-- What a key says of an operand that is neither an object nor an array. -/
def ofScalar (key : String) (value : Json) (path : Path) : Except CompileError (List Filter) :=
  match Key.ofText key with
  | .all | .any => .error (.malformedFilter (.childrenOf key))
  | .not => .error (.malformedFilter (.negationOf key))
  | .count => do
    underField key path
    .error (.malformedOperand path "count" .comparisons)
  | .op o => do
    underField key path
    return [.leaf ⟨path, o, value⟩]
  | .field name => .ok [.leaf ⟨path.child name, .compare .eq, value⟩]

mutual

/-- The nodes of the entries of an object at a path, in order. -/
def ofEntries (path : Path) : List (String × Json) → Except CompileError (List Filter)
  | [] => .ok []
  | (key, value) :: rest => do
    let nodes ← ofEntry key path value
    let more ← ofEntries path rest
    return nodes ++ more

/-- The nodes of one entry. -/
def ofEntry (key : String) (path : Path) : Json → Except CompileError (List Filter)
  | .obj entries =>
    match Key.ofText key with
    | .all => do return [.all (conjoin (← ofEntries path entries)).toList]
    | .any => do return [.any (conjoin (← ofEntries path entries)).toList]
    | .not => do return ((conjoin (← ofEntries path entries)).map .not).toList
    | .count => do
      underField key path
      counts path entries
    | .op o => do
      underField key path
      return [.leaf ⟨path, o, .obj entries⟩]
    | .field name => do return (conjoin (← ofEntries (path.child name) entries)).toList
  | .arr items =>
    match Key.ofText key with
    | .all => do return [.all (← ofItems key path items)]
    | .any => do return [.any (← ofItems key path items)]
    | _ => ofScalar key (.arr items) path
  | value => ofScalar key value path

/-- The children of a group, one for each object that says something. -/
def ofItems (key : String) (path : Path) : List Json → Except CompileError (List Filter)
  | [] => .ok []
  | .obj entries :: rest => do
    let node := conjoin (← ofEntries path entries)
    let more ← ofItems key path rest
    return node.toList ++ more
  | _ :: _ => .error (.malformedFilter (.childOf key))

end

/-- The root clauses of a filter document. -/
def ofJson : Json → Except CompileError (List Filter)
  | .null => .ok []
  | .obj entries => ofEntries .root entries
  | _ => .error (.malformedFilter .notAnObject)

end Filter
end RecordService
