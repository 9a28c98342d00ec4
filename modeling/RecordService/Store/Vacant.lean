import RecordService.Store.Program

/-! # A store without rows

The tables of a catalog, all of them empty: finds and deletes come to nothing and counts to zero. It stays empty, since
whatever would add a row is refused. -/

namespace RecordService

structure Vacant where
  catalog : Catalog

namespace Vacant

/-- The largest number of rows that a query may be cut to or skip. -/
def maxRows : Nat :=
  twoPow 63 - 1

/-- Whether a window can be asked for. -/
def serves (w : Window) : Bool :=
  match w.limit with
  | some n => n ≤ maxRows && w.skip ≤ maxRows
  | none => true

/-- The value of an aggregate of nothing. A count under a condition is a sum, and has no value. -/
def aggregateCell (a : AggregateSelect) : Cell :=
  match a.call.function, a.rows with
  | .count, .meeting [] => .int 0
  | _, _ => .null

def query : Query → Except Error Rows
  | .rows q => if serves q.window then .ok .empty else .error (.store "datatype mismatch")
  | .count _ => .ok ⟨["count"], [[.int 0]]⟩
  | .aggregate q => .ok ⟨q.parts.map (·.label), [q.parts.map aggregateCell]⟩
  | _ => .ok .empty

def change : Change → Except Error Outcome
  | .insert .. => .error (.store "attempt to write a readonly database")
  | .link .. => .error (.store "attempt to write a readonly database")
  | _ => .ok ⟨0, none⟩

/-- The answer of a step. The store is the same after it. -/
def answer : (step : Step) → Vacant → step.Answer × Vacant
  | .catalog, v => (v.catalog, v)
  | .query q, v => (query q, v)
  | .change c, v => (change c, v)
  | .begin, v => (.ok (), v)
  | .commit, v => (.ok (), v)
  | .rollback, v => ((), v)
  | .invalidate _, v => ((), v)
  | .ended _, v => ((), v)

end Vacant
end RecordService
