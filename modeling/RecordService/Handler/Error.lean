/-! # Why an execution gives no value

The script took too long or failed, the worker could not be had, or it broke off. -/

namespace RecordService

inductive ExecutionError where
  /-- The deadline passed, so many milliseconds after the start. -/
  | timeout (milliseconds : Nat)
  | badRequest (message : String)
  | unauthorized (message : String)
  | forbidden (message : String)
  /-- The script failed with no status of its own, or with another one. -/
  | script (message : String) (stack : Option String)
  /-- The worker went away, or sent what it may not send. -/
  | transport (reason : String)
  /-- No worker could be started. -/
  | spawn (reason : String)
  /-- No worker came free in time. -/
  | acquireTimeout
  | poolClosed
deriving DecidableEq, Repr

namespace ExecutionError

/-- The error of a script that fails with a status. -/
def ofScript (status : Option UInt16) (message : String) (stack : Option String) : ExecutionError :=
  match status with
  | some 400 => badRequest message
  | some 401 => unauthorized message
  | some 403 => forbidden message
  | _ => script message stack

def message : ExecutionError → String
  | timeout milliseconds => s!"execution timed out after {milliseconds} ms"
  | badRequest text => s!"bad request: {text}"
  | unauthorized text => s!"unauthorized: {text}"
  | forbidden text => s!"forbidden: {text}"
  | script text _ => s!"script error: {text}"
  | transport reason => s!"worker transport error: {reason}"
  | spawn reason => s!"failed to start worker: {reason}"
  | acquireTimeout => "no worker available"
  | poolClosed => "worker pool is shut down"

def code : ExecutionError → String
  | timeout _ => "ExecutionTimeout"
  | badRequest _ => "BadRequest"
  | unauthorized _ => "Unauthorized"
  | forbidden _ => "Forbidden"
  | script .. => "ScriptRuntimeError"
  | transport _ => "TransportError"
  | spawn _ => "SpawnError"
  | acquireTimeout => "AcquireTimeout"
  | poolClosed => "PoolClosed"

/-- The status for a caller who speaks HTTP. -/
def status : ExecutionError → Nat
  | badRequest _ => 400
  | unauthorized _ => 401
  | forbidden _ => 403
  | timeout _ => 504
  | acquireTimeout => 503
  | poolClosed => 503
  | _ => 500

end ExecutionError
end RecordService
