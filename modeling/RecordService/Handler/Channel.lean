import RecordService.Worker.Message

/-! # The host's end of a worker

All that the host has of a worker is a way to wait for its next message and a way to send it one, whatever the worker is
and however it behaves. -/

namespace RecordService

/-- What the host meets when it waits for a worker. -/
inductive Heard where
  | message (m : WorkerMessage)
  /-- The worker has ended. -/
  | closed
  /-- Nothing comes. -/
  | silence

/-- Workers of a kind `ω`, as the host deals with them. -/
structure Channel (σ ω : Type) where
  /-- Waits for the next message. -/
  hear : ω → Heard × ω
  /-- Sends a message, unless the worker has ended. -/
  send? : ω → HostMessage σ → Option ω
  /-- Whether less is left to happen. No worker goes on calling forever, since there is a time after which the host
  hears nothing more. -/
  Later : ω → ω → Prop
  wf : WellFounded Later
  /-- A worker that was heard and then sent the result of a call comes later. -/
  later {w heard sent : ω} {m : WorkerMessage} {execution call : UInt64} {result : Option Json}
    {error : Option CallError} (hheard : hear w = (.message m, heard))
    (hsent : send? heard (.callResult execution call result error) = some sent) : Later sent w

end RecordService
