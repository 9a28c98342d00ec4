import RecordService.Script.Run

/-! # Workers

A worker waits for a script, runs it up to its next call, waits for the reply, and in the end sends the value or the
error and waits again. `receive` is its whole behaviour towards the host: what it does with one message, and the one
message that it may send. -/

namespace RecordService

inductive Worker where
  /-- It has nothing to do. -/
  | waiting
  /-- Its script waits for the reply to a call. -/
  | calling (execution call : UInt64) (next : CallReply → Run Json)
  /-- Its script runs on without end. -/
  | spinning
  /-- It has ended. -/
  | stopped

namespace Worker

/-- The last message of an execution whose script fails. -/
def errorMessage (execution : UInt64) (f : Failure) : WorkerMessage :=
  .error execution f.message (some s!"Runtime error: {f.message}") f.status

/-- Goes on with a script that has made some calls so far, up to its next message. -/
def proceed (execution calls : UInt64) : Run Json → Worker × Option WorkerMessage
  | .done value => (waiting, some (.done execution value))
  | .thrown what => (waiting, some (errorMessage execution (.ofThrown what.value)))
  | .failed message => (waiting, some (errorMessage execution ⟨message, none⟩))
  | .call path args next => (calling execution (calls + 1) next, some (.call execution (calls + 1) path args))
  | .endless => (spinning, none)
  | .aborted => (stopped, none)

variable {σ : Type}

/-- What a worker does with a message. While a script waits, every message but the result of its call ends the
worker without a word; a result that nothing waits for is dropped. -/
def receive (evaluate : Interpreter σ) : Worker → HostMessage σ → Worker × Option WorkerMessage
  | waiting, .execute execution script context limits => proceed execution 0 (evaluate script context limits)
  | waiting, .callResult .. => (waiting, none)
  | waiting, .shutdown => (stopped, none)
  | calling execution call next, .callResult execution' call' result error =>
    if execution' = execution ∧ call' = call then proceed execution call (next (HostMessage.reply result error))
    else (stopped, none)
  | calling .., _ => (stopped, none)
  | spinning, _ => (spinning, none)
  | stopped, _ => (stopped, none)

end Worker
end RecordService
