import RecordService.Script.Fault
import RecordService.Worker.Message

/-! # What scripts do

The behaviour of a script is a tree: it ends with a value or an error, or it calls the host and goes on with the
reply. Every language of scripts whose runs are such trees can be used by a worker. -/

namespace RecordService

/-- What a script throws. -/
structure Thrown where
  value : Script.Value
  /-- Whether a function of the script threw it, and not the script itself. -/
  fromFunction : Bool

inductive Run (α : Type) where
  | done (value : α)
  /-- The script throws a value that it does not catch. -/
  | thrown (what : Thrown)
  /-- An error that no script can catch. -/
  | failed (message : String)
  /-- The script waits for the reply to a call. -/
  | call (path : String) (args : List Json) (next : CallReply → Run α)
  /-- The script runs on and never does anything that can be seen. -/
  | endless
  /-- The script is cut off, and nobody is told. -/
  | aborted

/-- A way to evaluate scripts of a language. -/
abbrev Interpreter (σ : Type) := σ → ScriptContext → SandboxLimits → Run Json

/-- Every script is cut off at once. -/
def Interpreter.killed {σ : Type} : Interpreter σ :=
  fun _ _ _ => .aborted

namespace Run

variable {α β : Type}

def bind (r : Run α) (f : α → Run β) : Run β :=
  match r with
  | done value => f value
  | thrown what => thrown what
  | failed message => failed message
  | call path args next => call path args fun reply => (next reply).bind f
  | endless => endless
  | aborted => aborted

instance : Monad Run where
  pure := done
  bind := bind

/-- A run that the script itself ends by throwing nothing throws what was caught before. -/
def rethrow (caught : Thrown) (r : Run α) : Run α :=
  match r with
  | thrown ⟨.unit, false⟩ => thrown caught
  | call path args next => call path args fun reply => (next reply).rethrow caught
  | r => r

/-- Runs a handler on the value that is thrown, if one is. A handler that throws nothing throws it again. -/
def handle (r : Run α) (handler : Script.Value → Run α) : Run α :=
  match r with
  | thrown what => (handler what.value).rethrow what
  | call path args next => call path args fun reply => (next reply).handle handler
  | r => r

/-- Throws a value. -/
def throwValue (value : Script.Value) : Run α :=
  .thrown ⟨value, false⟩

/-- Goes on with a value, or throws the fault. -/
def ofExcept : Except Script.Fault α → Run α
  | .ok value => .done value
  | .error fault => throwValue fault.toValue

end Run

/-- The value that a script finds thrown when a call fails. -/
def CallError.thrown (e : CallError) : Script.Value :=
  .ofEntries (("message", .text e.message) :: (e.status.map fun s => ("statusCode", .int s.toNat)).toList)

/-- Calls the host. The script gets the result, or the error is thrown. -/
def Run.ask (path : String) (args : List Script.Value) : Run Script.Value :=
  .call path (args.map Script.Value.toJson) fun
    | .ok value => .done (.ofJson value)
    | .error e => throwValue e.thrown

/-- What is told of a script that fails. -/
structure Failure where
  message : String
  status : Option UInt16
deriving DecidableEq, Repr

/-- The failure of a script that throws a value: a map may give its message and its status. -/
def Failure.ofThrown (value : Script.Value) : Failure :=
  match value with
  | .map entries =>
    ⟨((Script.Value.get? entries "message").map Script.Value.display).getD value.display,
      (Script.Value.get? entries "statusCode").bind Script.Value.status?⟩
  | _ => ⟨value.display, none⟩

end RecordService
