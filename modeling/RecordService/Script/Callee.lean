import RecordService.Handler.Target
import RecordService.Script.Fault
import RecordService.Worker.Message

/-! # What scripts call

A script calls the records of a table, a helper, or an error. It reaches only what its context names, and only with as
many arguments as the function takes; every other call is a fault, and the host hears nothing of it. -/

namespace RecordService.Script

/-- A function of the host, as a script names it. -/
inductive Callee where
  /-- A function of the records of a table. -/
  | records (table function : String)
  | helper (name : String)
  /-- The function that throws an error of the status. -/
  | failure (status : Int)
deriving DecidableEq, Repr

/-- The counts of arguments that a method takes from a script. -/
def argumentCounts : RecordMethod → List Nat
  | .find => [0, 1]
  | .update => [2]
  | _ => [1]

/-- The method that a script calls by the name with so many arguments. -/
def methodOf? (name : String) (count : Nat) : Option RecordMethod :=
  (RecordMethod.ofName? name).filter fun m => m.name == name && (argumentCounts m).contains count

/-- Whether a script has the records of the table. -/
def hasRecords (c : ScriptContext) (table : String) : Bool :=
  c.tables.contains table || (table == "main" && c.mainTable.isSome)

/-- The most arguments that a helper takes. -/
def helperArguments : Nat := 3

/-- The path that a call goes by. -/
def Callee.path (c : ScriptContext) (args : List Value) : Callee → Except Fault String
  | .records table function =>
    let known := hasRecords c table
    match if known then methodOf? function args.length else none with
    | some method => .ok (CallTarget.recordPath table method)
    | none =>
      let receiver := if known then "Repo" else Value.unit.argumentName
      .error (.unknownFunction function (receiver :: args.map Value.argumentName))
  | .helper name =>
    if c.helpers.contains name && args.length ≤ helperArguments then .ok (CallTarget.helperPath name)
    else .error (.unknownFunction s!"helpers::{name}" (args.map Value.argumentName))
  | .failure status =>
    if (CallTarget.failureOf? s!"throw{status}").isSome && args.length == 1 then .ok s!"errors.throw{status}"
    else .error (.unknownFunction s!"errors::throw{status}" (args.map Value.argumentName))

end RecordService.Script
