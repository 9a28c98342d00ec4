import RecordService.Handler.Channel
import RecordService.Handler.Error
import RecordService.Worker.Basic

/-! # The host's end of a worker that runs scripts

A worker reacts to a message at once; what it sends lies in its outbox until the host takes it. A worker that has
ended can no longer be sent anything, but what it sent before can still be taken. -/

namespace RecordService

structure Peer where
  worker : Worker
  /-- What the host has not taken yet, the first first. -/
  outbox : List WorkerMessage

namespace Peer

/-- A worker that has just been started. -/
def fresh (process : UInt32) : Peer :=
  ⟨.waiting, [.ready process]⟩

/-- Sends a message, unless the worker has ended. -/
def send? {σ : Type} (evaluate : Interpreter σ) (p : Peer) (m : HostMessage σ) : Option Peer :=
  match p.worker with
  | .stopped => none
  | w =>
    let (w, sent) := w.receive evaluate m
    some ⟨w, p.outbox ++ sent.toList⟩

/-- Waits for the next message. -/
def hear (p : Peer) : Heard × Peer :=
  match p.outbox, p.worker with
  | m :: rest, _ => (.message m, { p with outbox := rest })
  | [], .stopped => (.closed, p)
  | [], _ => (.silence, p)

/-- The error of a worker that has ended. -/
def exited (id : Nat) : ExecutionError :=
  .transport s!"worker {id} exited"

/-- The error of sending to a worker that has ended. -/
def gone (id : Nat) : ExecutionError :=
  .transport s!"worker {id} is gone"

/-- Waits until a worker has announced itself. -/
def handshake (id : Nat) (p : Peer) : Except String Peer :=
  match p.hear with
  | (.message (.ready _), p) => .ok p
  | (.message _, _) => .error s!"worker {id} skipped its handshake"
  | (.closed, _) => .error (exited id).message
  | (.silence, _) => .error s!"worker {id} did not become ready"

end Peer

/-- Starts the worker with a number, or says why it cannot. -/
abbrev Spawner := Nat → Except String Peer

namespace Spawner

/-- Starts workers that run scripts. -/
def standard : Spawner :=
  fun _ => .ok (.fresh 0)

/-- Starts a worker and waits until it is ready. -/
def start (spawn : Spawner) (id : Nat) : Except String Peer := do
  (← spawn id).handshake id

end Spawner

/-! ### A script comes to an end -/

namespace Worker

/-- A worker follows one that waits for a reply if it has got one, or has ended. -/
inductive Follows : Worker → Worker → Prop where
  | resumed (execution call : UInt64) (next : CallReply → Run Json) (reply : CallReply) :
    Follows (proceed execution call (next reply)).1 (calling execution call next)
  | ended (execution call : UInt64) (next : CallReply → Run Json) : Follows stopped (calling execution call next)

theorem acc_proceed (execution calls : UInt64) (r : Run Json) : Acc Follows (proceed execution calls r).1 := by
  have stopped_acc : Acc Follows stopped := ⟨_, fun _ h => nomatch h⟩
  induction r generalizing calls with
  | done value => exact ⟨_, fun _ h => nomatch h⟩
  | thrown value => exact ⟨_, fun _ h => nomatch h⟩
  | failed message => exact ⟨_, fun _ h => nomatch h⟩
  | endless => exact ⟨_, fun _ h => nomatch h⟩
  | aborted => exact stopped_acc
  | call path args next ih =>
    refine ⟨_, fun w h => ?_⟩
    cases h with
    | resumed _ _ _ reply => exact ih reply (calls + 1)
    | ended => exact stopped_acc

theorem follows_wf : WellFounded Follows := by
  have stopped_acc : Acc Follows stopped := ⟨_, fun _ h => nomatch h⟩
  refine ⟨fun w => ⟨_, fun w' h => ?_⟩⟩
  cases h with
  | resumed execution call next reply => exact acc_proceed execution call (next reply)
  | ended => exact stopped_acc

end Worker

namespace Peer

/-- What is left to happen: the replies that the script still waits for, and then the messages to take. -/
def rest (p : Peer) : Worker × Nat :=
  (p.worker, p.outbox.length)

/-- A peer that was heard and then sent the result of a call has less left to happen. -/
theorem rest_send_lt {σ : Type} {evaluate : Interpreter σ} {p heard sent : Peer} {m : WorkerMessage}
    {execution call : UInt64} {result : Option Json} {error : Option CallError}
    (hh : p.hear = (.message m, heard))
    (hs : heard.send? evaluate (.callResult execution call result error) = some sent) :
    Prod.Lex Worker.Follows (· < ·) sent.rest p.rest := by
  obtain ⟨w, outbox⟩ := p
  cases outbox with
  | nil => cases w <;> simp [hear] at hh
  | cons first more =>
    simp only [hear, Prod.mk.injEq, Heard.message.injEq] at hh
    obtain ⟨-, rfl⟩ := hh
    cases w with
    | stopped => simp [send?] at hs
    | waiting =>
      simp only [send?, Worker.receive, Option.some.injEq] at hs
      subst hs
      exact .right _ (by simp)
    | spinning =>
      simp only [send?, Worker.receive, Option.some.injEq] at hs
      subst hs
      exact .right _ (by simp)
    | calling e c next =>
      simp only [send?, Worker.receive] at hs
      by_cases h : execution = e ∧ call = c
      · rw [if_pos h] at hs
        simp only [Option.some.injEq] at hs
        subst hs
        exact .left _ _ (.resumed e c next (HostMessage.reply result error))
      · rw [if_neg h] at hs
        simp only [Option.some.injEq] at hs
        subst hs
        exact .left _ _ (.ended e c next)

/-- The host's end of such workers. -/
def channel {σ : Type} (evaluate : Interpreter σ) : Channel σ Peer where
  hear := hear
  send? := send? evaluate
  Later p q := Prod.Lex Worker.Follows (· < ·) p.rest q.rest
  wf := InvImage.wf rest (Prod.lex ⟨Worker.Follows, Worker.follows_wf⟩ Nat.lt_wfRel).wf
  later := rest_send_lt

end Peer
end RecordService
