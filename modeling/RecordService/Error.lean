import RecordService.Catalog.Basic
import RecordService.Request.Error

/-! # Errors

Everything that can go wrong between a request and its answer, by cause: the request itself, a protected record, a
missing record, an argument, the catalog, the store, or a document that cannot be read. -/

namespace RecordService

/-- What is done to a related record when links change. -/
inductive LinkAction where
  | attach
  | detach
deriving DecidableEq, Repr

def LinkAction.name : LinkAction → String
  | attach => "attach"
  | detach => "detach"

/-- A change that touches a system record. -/
inductive Violation where
  | create (table : String)
  | delete (table id : String)
  | field (table id field : String)
  | relation (table relation : String) (action : LinkAction) (ids : String)
deriving DecidableEq, Repr

namespace Violation

def message : Violation → String
  | create table => s!"cannot create a '{table}' record flagged as system"
  | delete table id => s!"cannot delete system record {id} of '{table}'"
  | field table id name => s!"cannot change '{name}' of system record {id} of '{table}'"
  | relation table name action ids =>
    s!"cannot {action.name} system record(s) {ids} of '{table}' through '{name}'"

def code : Violation → String
  | create _ => "SystemCreate"
  | delete .. => "SystemDelete"
  | field .. => "SystemField"
  | relation .. => "SystemRelation"

end Violation

/-- Why an argument cannot be used. -/
inductive ArgumentFault where
  | payloadShape
  | keyNeeded (table key : String)
  | noKeyProduced
  | unknownField (table field : String)
  | relatedKeyNeeded (field key : String)
  | singleRelated (field : String)
  | noJoinValue (table key : String)
  /-- Any other reason, in words. -/
  | other (reason : String)
deriving DecidableEq, Repr

def ArgumentFault.message : ArgumentFault → String
  | payloadShape => "payload must be an object"
  | keyNeeded table key => s!"'{table}' records need an explicit '{key}'"
  | noKeyProduced => "insert produced no key"
  | unknownField table field => s!"'{table}' has no field '{field}'"
  | relatedKeyNeeded field key => s!"'{field}' object needs '{key}'"
  | singleRelated field => s!"'{field}' expects a single related id"
  | noJoinValue table key => s!"'{table}' cannot link records without a '{key}' value"
  | other reason => reason

inductive Error where
  | compile (e : CompileError)
  | protection (v : Violation)
  | notFound (table id : String)
  | argument (f : ArgumentFault)
  | catalog (e : CatalogError)
  /-- The store refused a statement. -/
  | store (reason : String)
  /-- A document cannot be read. -/
  | document
deriving DecidableEq, Repr

namespace Error

def message : Error → String
  | compile e => e.message
  | protection v => v.message
  | notFound table id => s!"{table} record {id} not found"
  | argument f => s!"invalid argument: {f.message}"
  | catalog e => s!"invalid catalog: {e.message}"
  | store reason => s!"store error: {reason}"
  | document => "serialization error"

def code : Error → String
  | compile e => e.code
  | protection v => v.code
  | notFound .. => "NotFound"
  | argument _ => "InvalidArgument"
  | catalog _ => "Catalog"
  | store _ => "Store"
  | document => "Json"

/-- The status for a caller who speaks HTTP. -/
def status : Error → Nat
  | compile _ => 400
  | argument _ => 400
  | protection _ => 403
  | notFound .. => 404
  | catalog _ => 500
  | store _ => 500
  | document => 500

/-- Whether the request itself is at fault. -/
def isClientError (e : Error) : Bool :=
  400 ≤ e.status && e.status < 500

end Error
end RecordService
