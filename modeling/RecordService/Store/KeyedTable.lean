import RecordService.Double.Extended
import RecordService.Error
import RecordService.Sql.Like
import RecordService.Store.Statement

/-! # Keyed tables

A table of an integer key and a value of any kind, as the store keeps it in memory. Rows stand in the order of their
keys. A failed transaction leaves the rows as they were; which key was inserted last is remembered all the same. -/

namespace RecordService

structure KeyedTable where
  rows : List (Int × Cell)
  /-- The key of the last insert; zero before the first. -/
  last : Int
deriving DecidableEq, Repr

/-- The blanks that may stand around the digits of a key. -/
def isKeyBlank (c : Char) : Bool :=
  c == ' ' || ('\t' ≤ c && c ≤ '\r')

/-- The integer that a cell stands for when it is compared with a key. -/
def Cell.keyValue? : Cell → Option Int
  | null => none
  | bool b => some (if b then 1 else 0)
  | int i => some i
  | float x => Double.toInt64? x
  | text s =>
    let word := ((s.toList.dropWhile isKeyBlank).reverse.dropWhile isKeyBlank).reverse
    (readInt64? word).or ((Double.readExtended? word).bind Double.toInt64?)
  | bytes _ => none

namespace KeyedTable

def empty : KeyedTable := ⟨[], 0⟩

/-- The outcome of a change of so many rows. -/
def outcome (t : KeyedTable) (affected : Nat) : Outcome :=
  ⟨affected, if t.last = 0 then none else some t.last⟩

/-- A row among rows in order of their keys. -/
def insertRow (key : Int) (value : Cell) : List (Int × Cell) → List (Int × Cell)
  | [] => [(key, value)]
  | (k, v) :: rest => if key < k then (key, value) :: (k, v) :: rest else (k, v) :: insertRow key value rest

/-- The key after the greatest one. -/
def nextKey (t : KeyedTable) : Int :=
  match t.rows.getLast? with
  | some (k, _) => k + 1
  | none => 1

/-- A new row. Without a key it gets the next one; a key that is there already is refused. -/
def insert (t : KeyedTable) (key value : Cell) : Except Error (Outcome × KeyedTable) :=
  match if key.isNull then some t.nextKey else key.keyValue? with
  | none => .error (.store "datatype mismatch")
  | some k =>
    if t.rows.any (·.1 == k) then .error (.store "UNIQUE constraint failed: t.id")
    else
      let t : KeyedTable := ⟨insertRow k value.stored t.rows, k⟩
      .ok (t.outcome 1, t)

/-- How many rows have the key. -/
def count (t : KeyedTable) (key : Cell) : Nat :=
  t.rows.countP fun row => some row.1 == key.keyValue?

/-- Sets the value of a key. -/
def update (t : KeyedTable) (key value : Cell) : Outcome × KeyedTable :=
  let rows := t.rows.map fun (k, v) => if some k == key.keyValue? then (k, value.stored) else (k, v)
  (t.outcome (t.count key), { t with rows })

def delete (t : KeyedTable) (key : Cell) : Outcome × KeyedTable :=
  (t.outcome (t.count key), { t with rows := t.rows.filter fun row => some row.1 != key.keyValue? })

/-- The table after a transaction that failed in the state of a later one. -/
def rollback (t later : KeyedTable) : KeyedTable :=
  { later with rows := t.rows }

end KeyedTable

/-- What can be asked of the table. -/
inductive TableRequest where
  | insert (key value : Cell)
  | update (key value : Cell)
  | delete (key : Cell)
  /-- A value as it is stored, and folded. -/
  | echo (value : Cell)
  | like (value pattern : Cell)
  /-- A failure of the caller's own. -/
  | fail (reason : String)
  /-- A statement that the store cannot read. -/
  | malformed
deriving DecidableEq, Repr

inductive TableAnswer where
  | changed (o : Outcome)
  | rows (r : Rows)
deriving DecidableEq, Repr

namespace KeyedTable

/-- One request. -/
def step (t : KeyedTable) : TableRequest → Except Error TableAnswer × KeyedTable
  | .insert key value =>
    match t.insert key value with
    | .ok (o, t) => (.ok (.changed o), t)
    | .error e => (.error e, t)
  | .update key value => let (o, t) := t.update key value; (.ok (.changed o), t)
  | .delete key => let (o, t) := t.delete key; (.ok (.changed o), t)
  | .echo value => (.ok (.rows ⟨["raw", "folded"], [[value.stored, value.unaccent]]⟩), t)
  | .like value pattern => (.ok (.rows ⟨["matches"], [[value.like pattern]]⟩), t)
  | .fail reason => (.error (.argument (.other reason)), t)
  | .malformed => (.error (.store "malformed statement"), t)

/-- Requests until one fails: the answers before the failure, the failure, and the table. -/
def steps (t : KeyedTable) : List TableRequest → List TableAnswer × Option Error × KeyedTable
  | [] => ([], none, t)
  | r :: rest =>
    match t.step r with
    | (.ok a, t) =>
      let (answers, e, t) := t.steps rest
      (a :: answers, e, t)
    | (.error e, t) => ([], some e, t)

/-- Requests in a transaction. -/
def transaction (t : KeyedTable) (requests : List TableRequest) : List TableAnswer × Option Error × KeyedTable :=
  let (answers, e, later) := t.steps requests
  (answers, e, if e.isSome then t.rollback later else later)

end KeyedTable
end RecordService
