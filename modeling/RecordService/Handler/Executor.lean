import RecordService.Handler.Execution
import RecordService.Handler.Pool

/-! # Running handlers

An executor leases a worker for each request, runs the script on it, and then gives the worker back, or kills it if
the execution was broken off. -/

namespace RecordService

/-- A script to run. -/
structure ExecutionRequest (σ : Type) where
  script : σ
  context : ScriptContext
  /-- The time that it has, if not the usual one. -/
  timeout : Option Nat

structure Executor (ω : Type) where
  pool : Pool ω
  nextExecution : UInt64

/-- What the executions of a service have in common, with workers of a kind `ω`. -/
structure Host (σ ω : Type) where
  channel : Channel σ ω
  services : Services
  /-- Starts the worker with a number and waits until it is ready, or says why it cannot. -/
  start : Nat → Except String ω
  limits : SandboxLimits
  /-- The time that a script has by default, in milliseconds. -/
  timeout : Nat

namespace Host

variable {σ ω : Type}

/-- Runs a task on the pool. -/
def perform (host : Host σ ω) (e : Executor ω) (t : Pool.Task ω) : Pool.Answer ω × Executor ω :=
  let (answer, pool) := e.pool.run host.start t
  (answer, { e with pool })

/-- The execution of a request on a worker. The script sees the names that the services have. -/
def execution (host : Host σ ω) (number : UInt64) (worker : Nat) (request : ExecutionRequest σ)
    (tables : List String) : Execution where
  number
  worker
  timeout := request.timeout.getD host.timeout
  context := { request.context with tables, helpers := host.services.helpers }

/-- Sends a script to a worker and answers its calls. -/
def attend (host : Host σ ω) (x : Execution) (script : σ) (w : ω) : Program (Ending ω) :=
  match host.channel.send? w (.execute x.number script x.context host.limits) with
  | some w => x.converse host.channel host.services w
  | none => return ⟨.error (Peer.gone x.worker), w, false⟩

/-- Runs a script on a leased worker. -/
def converse (host : Host σ ω) (number : UInt64) (h : Handle ω) (request : ExecutionRequest σ) :
    Program (Ending ω) := do
  let tables ← host.services.tables
  host.attend (host.execution number h.id request tables) request.script h.worker

/-- Ends a lease: the worker is given back if it can be used again. -/
def release (host : Host σ ω) (e : Executor ω) (h : Handle ω) (ending : Ending ω) : Executor ω :=
  let t : Pool.Task ω := if ending.sound then .giveBack { h with worker := ending.worker } else .discard h
  (host.perform e t).2

/-- Runs a script. -/
def run (host : Host σ ω) (e : Executor ω) (request : ExecutionRequest σ) :
    Program (Except ExecutionError Json × Executor ω) := do
  match host.perform e .look with
  | (.leased h, e) =>
    let ending ← host.converse e.nextExecution h request
    let e := { e with nextExecution := e.nextExecution + 1 }
    return (ending.result, host.release e h ending)
  | (.failed reason, e) => return (.error reason, e)
  | (_, e) => return (.error .acquireTimeout, e)

end Host

/-! ### Hosts of workers that run scripts -/

structure ExecutorOptions (σ : Type) where
  evaluate : Interpreter σ
  capabilities : Capabilities
  spawn : Spawner
  limits : SandboxLimits
  /-- The time that a script has by default, in milliseconds. -/
  timeout : Nat

namespace ExecutorOptions

def host {σ : Type} (o : ExecutorOptions σ) : Host σ Peer where
  channel := Peer.channel o.evaluate
  services := o.capabilities.services
  start := Spawner.start o.spawn
  limits := o.limits
  timeout := o.timeout

end ExecutorOptions

namespace Executor

variable {σ : Type}

def start {ω : Type} (pool : Pool ω) : Executor ω :=
  ⟨pool, 1⟩

/-- Runs a task on the pool. -/
def perform (o : ExecutorOptions σ) (e : Executor Peer) (t : Pool.Task Peer) : Pool.Answer Peer × Executor Peer :=
  o.host.perform e t

/-- Stops accepting executions. -/
def shutdown (o : ExecutorOptions σ) (e : Executor Peer) : Executor Peer :=
  (e.perform o .close).2

/-- Runs a script. -/
def run (o : ExecutorOptions σ) (e : Executor Peer) (request : ExecutionRequest σ) :
    Program (Except ExecutionError Json × Executor Peer) :=
  o.host.run e request

end Executor
end RecordService
