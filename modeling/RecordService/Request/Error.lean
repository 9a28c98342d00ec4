import RecordService.Request.Operator
import RecordService.Request.Path

/-! # Faults of a request

Everything that can be wrong with a find request or its options, by cause. Each has a code for programs and a
message for people. All of them are the caller's. -/

namespace RecordService

/-- What an operator expects of its operand. -/
inductive Expected where
  | scalar
  | list
  | pair
  | text
  | number
  | comparisons
  | comparisonKeys
deriving DecidableEq, Repr

def Expected.message : Expected → String
  | scalar => "a scalar"
  | list => "an array"
  | pair => "a two-element array"
  | text => "a string"
  | number => "a number"
  | comparisons => "an object such as \x7b\"gte\": 2\x7d"
  | comparisonKeys => "comparison keys eq/neq/gt/gte/lt/lte"

/-- Why a document is not a filter. -/
inductive FilterFault where
  | notAnObject
  | negationOf (key : String)
  | operatorAtRoot (key : String)
  | childOf (key : String)
  | childrenOf (key : String)
deriving DecidableEq, Repr

def FilterFault.message : FilterFault → String
  | notAnObject => "filter must be an object"
  | negationOf key => s!"'{key}' expects an object"
  | operatorAtRoot key => s!"operator '{key}' must be nested under a field"
  | childOf key => s!"'{key}' children must be objects"
  | childrenOf key => s!"'{key}' expects an array of objects"

/-- Why a path gives no order. -/
inductive SortFault where
  | throughMany
  | isMany
deriving DecidableEq, Repr

def SortFault.message : SortFault → String
  | throughMany => "cannot sort through a to-many relation"
  | isMany => "cannot sort by a to-many relation"

/-- Why a path cannot be aggregated. -/
inductive AggregateFault where
  | onlyCountsAll
  | columnType
  | onlyCountsRelations
  | unresolved
deriving DecidableEq, Repr

def AggregateFault.message : AggregateFault → String
  | onlyCountsAll => "only count may target '*'"
  | columnType => "target must be a numeric or temporal column"
  | onlyCountsRelations => "relations can only be counted"
  | unresolved => "path does not resolve"

/-- Why a document asks for no aggregates. -/
inductive AggregateShape where
  | notAnObject
  | noField (function : AggregateFunction)
  | notATarget (function : AggregateFunction)
deriving DecidableEq, Repr

def AggregateShape.message : AggregateShape → String
  | notAnObject => "aggregate must be an object"
  | noField f => s!"{f.name} target needs a 'field' string"
  | notATarget f => s!"{f.name} target must be a path or an object"

/-- Why a name cannot stand for the root table. -/
inductive AliasFault where
  | empty
  | paging
  | generated
deriving DecidableEq, Repr

def AliasFault.message : AliasFault → String
  | empty => "must not be empty"
  | paging => "reserved for the paging subquery"
  | generated => "collides with a generated alias"

/-- Why a request does not compile. -/
inductive CompileError where
  | unknownTable (table : String)
  | unresolvedPath (table : String) (path : Path)
  /-- An operator for to-many relations on something else. -/
  | notToMany (path : Path) (op : Operator)
  | malformedOperand (path : Path) (op : String) (expected : Expected)
  | malformedFilter (fault : FilterFault)
  | invalidSort (path : Path) (fault : SortFault)
  | invalidAggregate (function : AggregateFunction) (path : Path) (fault : AggregateFault)
  | unknownFunction (name : String)
  | malformedAggregate (shape : AggregateShape)
  | invalidMeta (mode : String)
  | invalidRootAlias (name : String) (fault : AliasFault)
deriving DecidableEq, Repr

namespace CompileError

def message : CompileError → String
  | unknownTable table => s!"unknown table '{table}'"
  | unresolvedPath table path => s!"path '{path.text}' does not resolve against table '{table}'"
  | notToMany path op =>
    s!"operator '{op.name}' is not valid on '{path.text}': only valid on a to-many relation"
  | malformedOperand path op expected => s!"operator '{op}' on '{path.text}' expects {expected.message}"
  | malformedFilter fault => s!"malformed filter: {fault.message}"
  | invalidSort path fault => s!"cannot sort by '{path.text}': {fault.message}"
  | invalidAggregate f path fault => s!"{f.name}('{path.text}') rejected: {fault.message}"
  | unknownFunction name => s!"unknown aggregate function '{name}'"
  | malformedAggregate shape => s!"malformed aggregate: {shape.message}"
  | invalidMeta mode => s!"unknown meta mode '{mode}'"
  | invalidRootAlias name fault => s!"root alias '{name}' is not usable: {fault.message}"

def code : CompileError → String
  | unknownTable _ => "UnknownTable"
  | unresolvedPath .. => "UnresolvedPath"
  | notToMany .. => "InvalidOperator"
  | malformedOperand .. => "MalformedOperand"
  | malformedFilter _ => "MalformedFilter"
  | invalidSort .. => "InvalidSort"
  | invalidAggregate .. => "InvalidAggregate"
  | unknownFunction _ => "InvalidAggregate"
  | malformedAggregate _ => "InvalidAggregate"
  | invalidMeta _ => "InvalidMeta"
  | invalidRootAlias .. => "InvalidOptions"

/-- The code in brackets, then the message. -/
def labelled (e : CompileError) : String :=
  s!"[{e.code}] {e.message}"

end CompileError
end RecordService
