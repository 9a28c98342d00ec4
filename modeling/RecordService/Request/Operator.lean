/-! # Operators and functions of requests

The comparisons, filter operators and aggregate functions that a request may name, with their spellings in
requests and in statements. -/

namespace RecordService

/-- A keyword without the one underscore that it may start with. -/
def bareKeyword (key : String) : String :=
  match key.toList with
  | '_' :: rest => String.ofList rest
  | _ => key

inductive Comparison where
  | eq
  | neq
  | gt
  | gte
  | lt
  | lte
deriving DecidableEq, Repr

namespace Comparison

/-- The comparison sign of a statement. -/
def sql : Comparison → String
  | eq => "="
  | neq => "<>"
  | gt => ">"
  | gte => ">="
  | lt => "<"
  | lte => "<="

def name : Comparison → String
  | eq => "eq"
  | neq => "neq"
  | gt => "gt"
  | gte => "gte"
  | lt => "lt"
  | lte => "lte"

def ofName? (s : String) : Option Comparison :=
  [eq, neq, gt, gte, lt, lte].find? (·.name == s)

end Comparison

/-- What a filter asks of a field. -/
inductive Operator where
  | compare (c : Comparison)
  | isIn
  | notIn
  /-- Within a range, ends included. -/
  | between
  /-- Null or not, as the operand says. -/
  | isNull
  | contains
  | startsWith
  | endsWith
  /-- The number of related records, compared. -/
  | count (c : Comparison)
  /-- The set of related records, exactly. -/
  | eqSet
deriving DecidableEq, Repr

namespace Operator

def name : Operator → String
  | compare c => c.name
  | isIn => "in"
  | notIn => "not_in"
  | between => "between"
  | isNull => "is_null"
  | contains => "contains"
  | startsWith => "starts_with"
  | endsWith => "ends_with"
  | count c => "count." ++ c.name
  | eqSet => "eq_set"

/-- The operator a key names. A count is not among them, since its comparison stands in the operand. -/
def ofName? (s : String) : Option Operator :=
  match Comparison.ofName? s with
  | some c => some (compare c)
  | none => [isIn, notIn, between, isNull, contains, startsWith, endsWith, eqSet].find? (·.name == s)

end Operator

inductive AggregateFunction where
  | count
  | sum
  | avg
  | min
  | max
deriving DecidableEq, Repr

namespace AggregateFunction

def name : AggregateFunction → String
  | count => "count"
  | sum => "sum"
  | avg => "avg"
  | min => "min"
  | max => "max"

/-- The function's name in a statement. -/
def sql : AggregateFunction → String
  | count => "COUNT"
  | sum => "SUM"
  | avg => "AVG"
  | min => "MIN"
  | max => "MAX"

def ofName? (s : String) : Option AggregateFunction :=
  [count, sum, avg, min, max].find? (·.name == s)

/-- The function that a key of a document names. -/
def ofKey? (key : String) : Option AggregateFunction :=
  ofName? (bareKeyword key)

end AggregateFunction

end RecordService
