import RecordService.Worker.Link

/-! # Dialogues

What passes between a host and a worker, in the order in which the worker takes and sends it. -/

namespace RecordService

/-- A message and the way that it goes. -/
inductive Message (σ : Type) where
  | toWorker (m : HostMessage σ)
  | toHost (m : WorkerMessage)

variable {σ : Type}

namespace Message

/-- The message, if it is the worker's. -/
def sent? : Message σ → Option WorkerMessage
  | toWorker _ => none
  | toHost m => some m

end Message

namespace Inbound

/-- The messages that come over a link before it breaks. -/
def messages : Inbound σ → List (HostMessage σ)
  | .ok m :: rest => m :: messages rest
  | .error _ :: _ => []
  | [] => []

end Inbound

namespace Worker

/-- What passes from the moment that a worker is ready for the first of some messages, after which the host hangs up. A
worker that has ended takes no message, and one whose script runs on without end never comes to it. -/
def dialogue (evaluate : Interpreter σ) : Worker → List (HostMessage σ) → List (Message σ)
  | _, [] => []
  | stopped, _ => []
  | spinning, _ => []
  | w, m :: rest =>
    let (w, sent) := w.receive evaluate m
    .toWorker m :: (sent.toList.map .toHost ++ w.dialogue evaluate rest)

end Worker
end RecordService
