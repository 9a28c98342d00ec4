import RecordService.Text.Pieces

/-! # Call paths

A script names what it calls by a path: a method on the records of a table, a helper, or an error to throw. -/

namespace RecordService

/-- What a script may do with the records of a table. -/
inductive RecordMethod where
  | find
  | findOne
  | create
  | update
  | delete
deriving DecidableEq, Repr

namespace RecordMethod

def name : RecordMethod → String
  | find => "find"
  | findOne => "find_one"
  | create => "create"
  | update => "update"
  | delete => "delete"

def ofName? : String → Option RecordMethod
  | "find" => some find
  | "find_one" => some findOne
  | "findOne" => some findOne
  | "create" => some create
  | "update" => some update
  | "delete" => some delete
  | _ => none

/-- The fewest arguments of a call. -/
def arity : RecordMethod → Nat
  | find => 0
  | update => 2
  | _ => 1

end RecordMethod

inductive CallTarget where
  | records (table : String) (method : RecordMethod)
  | helper (name : String)
  /-- An error of the status is thrown. -/
  | failure (status : UInt16)
deriving DecidableEq, Repr

namespace CallTarget

/-- The error that a name stands for. -/
def failureOf? : String → Option CallTarget
  | "throw400" => some (failure 400)
  | "throw401" => some (failure 401)
  | "throw403" => some (failure 403)
  | _ => none

def ofPath? (path : String) : Option CallTarget :=
  match Text.parts '.' path with
  | ["repos", table, method] => if table.isEmpty then none else (RecordMethod.ofName? method).map (records table)
  | ["helpers", name] => if name.isEmpty then none else some (helper name)
  | ["errors", name] => failureOf? name
  | _ => none

/-- The path by which a script calls a method. -/
def recordPath (table : String) (method : RecordMethod) : String :=
  s!"repos.{table}.{method.name}"

/-- The path by which a script calls a helper. -/
def helperPath (name : String) : String :=
  s!"helpers.{name}"

end CallTarget
end RecordService
