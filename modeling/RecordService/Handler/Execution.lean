import RecordService.Handler.Capabilities
import RecordService.Handler.Peer

/-! # Executions

The host sends a script to a worker and answers its calls until the worker ends the execution. `judge` decides on
everything that the host can meet. What is neither a call, the value nor the error of the execution breaks it off,
and the worker is not used again. -/

namespace RecordService

structure Execution where
  number : UInt64
  /-- The worker that runs the script. -/
  worker : Nat
  /-- The time that the script has, in milliseconds. -/
  timeout : Nat
  context : ScriptContext

/-- What the host does about what it meets. -/
inductive Verdict where
  /-- It answers a call and waits again. -/
  | serve (call : UInt64) (path : String) (args : List Json)
  /-- The execution is over, and the worker can be used again. -/
  | over (result : Except ExecutionError Json)
  /-- The execution is broken off, and the worker is killed. -/
  | broken (e : ExecutionError)

/-- How an execution ends. -/
structure Ending (ω : Type) where
  result : Except ExecutionError Json
  /-- The worker as the execution leaves it. -/
  worker : ω
  /-- Whether it can be used again. -/
  sound : Bool

/-- What a host does for scripts. -/
structure Services where
  /-- The tables that a script may name. -/
  tables : Program (List String)
  /-- The helpers that a script may name. -/
  helpers : List String
  /-- Answers a call, if it is ever answered. -/
  invoke : ScriptContext → String → List Json → Program (Option CallReply)

/-- Capabilities as services, for the tables of the catalog as it stands. -/
def Capabilities.services (c : Capabilities) : Services where
  tables := return (← Program.ask .catalog).names
  helpers := c.helperNames
  invoke := c.invoke

namespace Execution

/-- The error of a message that is not part of the execution. -/
def unexpected (x : Execution) (m : WorkerMessage) : ExecutionError :=
  .transport s!"unexpected {m.inspect} during execution {x.number}"

def judge (x : Execution) : Heard → Verdict
  | .message m@(.call execution call path args) =>
    if execution = x.number then .serve call path args else .broken (x.unexpected m)
  | .message m@(.done execution data) =>
    if execution = x.number then .over (.ok data) else .broken (x.unexpected m)
  | .message m@(.error execution message stack status) =>
    if execution = x.number then .over (.error (.ofScript status message stack)) else .broken (x.unexpected m)
  | .message m@(.ready _) => .broken (x.unexpected m)
  | .closed => .broken (Peer.exited x.worker)
  | .silence => .broken (.timeout x.timeout)

theorem hear_of_serve {x : Execution} {heard : Heard} {call : UInt64} {path : String} {args : List Json}
    (h : x.judge heard = .serve call path args) : ∃ m, heard = .message m := by
  cases heard with
  | message m => exact ⟨m, rfl⟩
  | closed => simp [judge] at h
  | silence => simp [judge] at h

variable {σ ω : Type}

/-- Answers the calls of a worker until the execution ends. A call that is never answered lasts until the time
is over. -/
def converse (k : Channel σ ω) (services : Services) (x : Execution) (w : ω) : Program (Ending ω) :=
  match _hh : k.hear w with
  | (heard, w') =>
    match _hj : x.judge heard with
    | .over result => return ⟨result, w', true⟩
    | .broken e => return ⟨.error e, w', false⟩
    | .serve call path args => do
      match ← services.invoke x.context path args with
      | none => return ⟨.error (.timeout x.timeout), w', false⟩
      | some reply =>
        match _hs : k.send? w' (.ofReply x.number call reply) with
        | some w'' => converse k services x w''
        | none => return ⟨.error (Peer.gone x.worker), w', false⟩
termination_by k.wf.wrap w
decreasing_by
  obtain ⟨m, rfl⟩ := hear_of_serve _hj
  exact k.later _hh _hs

end Execution
end RecordService
