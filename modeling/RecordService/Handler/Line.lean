import RecordService.Handler.Execution

/-! # Lines between the host and a worker

A line has a queue of messages each way. The worker takes the first of its messages when it is ready for one, and says
what it has to say some time later; the host hears the first message that was said, and does what `judge` decides. Host
and worker act each at its own pace: what either does is an act, and which act comes next is up to nobody. -/

namespace RecordService

/-- What the host is about on a line. -/
inductive Desk where
  /-- It has given the worker nothing to do. -/
  | free
  /-- It waits for the next message of an execution. -/
  | listening (x : Execution)
  /-- It works on a call. -/
  | serving (x : Execution) (call : UInt64) (path : String) (args : List Json)

/-- Whether the host has given the worker nothing to do. -/
def Desk.isFree : Desk → Bool
  | free => true
  | listening _ | serving .. => false

structure Line (σ : Type) where
  desk : Desk
  worker : Worker
  /-- What the worker is about to say. -/
  saying : Option WorkerMessage
  /-- What was sent to the worker and not taken yet, the first first. -/
  inbox : List (HostMessage σ)
  /-- What the worker said and the host has not heard yet. -/
  outbox : List WorkerMessage

/-- Whether a worker takes messages. -/
def Worker.listens : Worker → Bool
  | waiting | calling .. => true
  | spinning | stopped => false

/-- What comes of an act. -/
inductive Fate (σ : Type) where
  | goes (l : Line σ)
  /-- The execution is over, and the lease is released. -/
  | ends (x : Execution) (result : Except ExecutionError Json) (l : Line σ)
  /-- The execution is broken off, and the worker is killed. -/
  | breaks (x : Execution) (e : ExecutionError) (l : Line σ)
  /-- Nobody is interested in the result any more, and the worker is killed. -/
  | drops (l : Line σ)

/-- What the worker may do. -/
inductive WorkerAct where
  | take
  | say
deriving DecidableEq, Repr

/-- What the host may do during an execution. -/
inductive HostAct where
  | hear
  /-- It has the answer to a call. -/
  | answer (reply : CallReply)
  /-- The time of the execution is over. -/
  | expire
  /-- The client goes away. -/
  | drop

namespace Line

variable {σ : Type}

/-- The line of a worker that has just been started. -/
def fresh (process : UInt32) : Line σ :=
  ⟨.free, .waiting, some (.ready process), [], []⟩

/-- The worker takes its next message, if it is ready for one and there is one. -/
def take (evaluate : Interpreter σ) (l : Line σ) : Line σ :=
  match l.inbox with
  | m :: rest =>
    if l.worker.listens && l.saying.isNone then
      let (worker, saying) := l.worker.receive evaluate m
      { l with worker, saying, inbox := rest }
    else l
  | [] => l

/-- The worker says what it has to say. -/
def say (l : Line σ) : Line σ :=
  match l.saying with
  | some m => { l with saying := none, outbox := l.outbox ++ [m] }
  | none => l

def work (evaluate : Interpreter σ) (l : Line σ) : WorkerAct → Line σ
  | .take => l.take evaluate
  | .say => l.say

/-- Sends a message to the worker, unless it has ended. -/
def send? (l : Line σ) (m : HostMessage σ) : Option (Line σ) :=
  match l.worker with
  | .stopped => none
  | _ => some { l with inbox := l.inbox ++ [m] }

/-- What there is to hear. -/
def hear? (l : Line σ) : Option (Heard × Line σ) :=
  match l.outbox, l.worker with
  | m :: rest, _ => some (.message m, { l with outbox := rest })
  | [], .stopped => some (.closed, l)
  | [], _ => none

/-- Waits until the worker has announced itself. -/
def handshake (id : Nat) (l : Line σ) : Except String (Line σ) :=
  match l.hear? with
  | some (.message (.ready _), l) => .ok l
  | some (.message _, _) => .error s!"worker {id} skipped its handshake"
  | some (_, _) => .error (Peer.exited id).message
  | none => .error s!"worker {id} did not become ready"

/-- The host gives the worker a script. -/
def order (l : Line σ) (x : Execution) (script : σ) (limits : SandboxLimits) : Fate σ :=
  match l.send? (.execute x.number script x.context limits) with
  | some l => .goes { l with desk := .listening x }
  | none => .breaks x (Peer.gone x.worker) l

/-- What the host does during an execution. An act that it is not ready for changes nothing. -/
def act (l : Line σ) : HostAct → Fate σ
  | .hear =>
    match l.desk, l.hear? with
    | .listening x, some (heard, l) =>
      match x.judge heard with
      | .serve call path args => .goes { l with desk := .serving x call path args }
      | .over result => .ends x result { l with desk := .free }
      | .broken e => .breaks x e l
    | _, _ => .goes l
  | .answer reply =>
    match l.desk with
    | .serving x call _ _ =>
      match l.send? (.ofReply x.number call reply) with
      | some l => .goes { l with desk := .listening x }
      | none => .breaks x (Peer.gone x.worker) l
    | _ => .goes l
  | .expire =>
    match l.desk with
    | .free => .goes l
    | .listening x | .serving x _ _ _ => .breaks x (.timeout x.timeout) l
  | .drop => .drops l

/-- What the worker of a line does that the host has left: what was sent is still there to be taken, and then the worker
finds that the host is gone; what it says goes nowhere. Either ends it. -/
def workAlone (evaluate : Interpreter σ) (l : Line σ) : WorkerAct → Line σ
  | .take =>
    match l.inbox with
    | _ :: _ => l.take evaluate
    | [] => if l.saying.isNone then { l with worker := .stopped } else l
  | .say =>
    match l.saying with
    | some _ => { l with worker := .stopped, saying := none }
    | none => l

end Line
end RecordService
