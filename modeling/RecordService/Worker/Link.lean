import RecordService.Json.Reader
import RecordService.Worker.Basic
import RecordService.Worker.Frame

/-! # Workers on a link

A worker reads from a link and writes to it until the host hangs up, it is told to stop, or the link breaks. A link
that breaks while a script waits for a reply ends the worker like any other message that is not that reply. -/

namespace RecordService

/-- How a link breaks. -/
inductive LinkFault where
  | reset
  | broken
  /-- A frame that cannot be read, or does not hold a message. -/
  | invalid
  /-- The stream ends inside a frame. -/
  | cut
deriving DecidableEq, Repr

/-- What comes over a link, up to the first fault; then the host hangs up. -/
abbrev Inbound (σ : Type) := List (Except LinkFault (HostMessage σ))

namespace Inbound

variable {σ : Type}

/-- A frame's payload as a message. -/
def ofPayload (script? : Json → Option σ) (payload : List UInt8) : Except LinkFault (HostMessage σ) :=
  let message := do
    let text ← String.fromUTF8? ⟨payload.toArray⟩
    HostMessage.ofJson? script? (← Json.readRaw? text)
  message.elim (.error .invalid) .ok

def faultOf : Frame.Fault → LinkFault
  | .cut => .cut
  | _ => .invalid

/-- The messages in a stream of frames. -/
def ofBytes (script? : Json → Option σ) (bytes : List UInt8) : Inbound σ :=
  let (payloads, fault) := Frame.readAll bytes
  payloads.map (ofPayload script?) ++ (fault.map fun f => .error (faultOf f)).toList

end Inbound

/-- What a worker has sent, and how it ended. -/
structure Served where
  sent : List WorkerMessage
  fault : Option LinkFault

namespace Worker

variable {σ : Type}

/-- Whether its script waits for a reply. -/
def isCalling : Worker → Bool
  | calling .. => true
  | _ => false

/-- Serves what comes in; `room` messages can be sent before the link breaks, if it does. -/
def serveFrom (evaluate : Interpreter σ) (w : Worker) (room : Option Nat) : Inbound σ → Served
  | [] => ⟨[], none⟩
  | .error fault :: _ => ⟨[], if w.isCalling then none else some fault⟩
  | .ok message :: rest =>
    match w.receive evaluate message with
    | (stopped, _) => ⟨[], none⟩
    | (w, none) => w.serveFrom evaluate room rest
    | (w, some sent) =>
      if room = some 0 then ⟨[], if w.isCalling then none else some .broken⟩
      else
        let served := w.serveFrom evaluate (room.map (· - 1)) rest
        { served with sent := sent :: served.sent }

/-- Serves a link from the first message of the worker, which announces it. -/
def serve (evaluate : Interpreter σ) (process : UInt32) (room : Option Nat) (inbound : Inbound σ) : Served :=
  if room = some 0 then ⟨[], some .broken⟩
  else
    let served := waiting.serveFrom evaluate (room.map (· - 1)) inbound
    { served with sent := .ready process :: served.sent }

end Worker
end RecordService
