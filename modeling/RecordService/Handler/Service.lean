import RecordService.Handler.Line
import RecordService.Handler.PoolUse

/-! # A service at work

The pool in use, with the line of each worker, and the executions that ended. Each lease is for one execution, whose
worker is released when the execution is over and killed when it is broken off or nobody waits for it any more. What
happens next is an act: a client of the pool takes a step, the host acts on a line, or a worker does. -/

namespace RecordService

open Pool

/-- What may happen next. Clients, leases and lines are given by their places. -/
inductive ServiceAct (σ : Type) where
  | acquire
  | prewarm
  | shutdown
  /-- A client of the pool goes on. If a worker comes, it has a process. -/
  | client (place : Nat) (signal : Signal UInt32)
  /-- A leased worker is given a script. -/
  | order (place : Nat) (script : σ) (context : ScriptContext) (timeout : Nat) (limits : SandboxLimits)
  | host (place : Nat) (a : HostAct)
  /-- A leased worker does something. -/
  | work (place : Nat) (a : WorkerAct)
  /-- An idle worker does something. -/
  | workIdle (place : Nat) (a : WorkerAct)
  /-- A worker does something that the host has left. -/
  | workAlone (place : Nat) (a : WorkerAct)

structure Service (σ : Type) where
  use : PoolUse (Line σ)
  /-- The lines that the host has left. -/
  left : List (Line σ)
  nextExecution : UInt64
  /-- The executions that ended, each with its result. -/
  results : List (Execution × Except ExecutionError Json)

namespace Service

variable {σ : Type}

def start (size stock : Nat) : Service σ :=
  ⟨.start size stock, [], 1, []⟩

/-- The signal that a client gets: a worker that comes is greeted first. -/
def signalTo (c : PoolClient (Line σ)) : Signal UInt32 → Signal (Line σ)
  | .ready process =>
    let id := match c.task with
      | .await _ id => id
      | _ => 0
    match (Line.fresh process).say.handshake id with
    | .ok l => .ready l
    | .error reason => .broken reason
  | .go => .go
  | .broken reason => .broken reason
  | .woken => .woken
  | .late => .late
  | .abandoned => .abandoned

/-- What becomes of a lease after an act on its line. -/
def settle (s : Service σ) (place : Nat) : Fate σ → Service σ
  | .goes l =>
    { s with use := { s.use with leases := s.use.leases.modify place fun h => { h with worker := l } } }
  | .ends x result l => { s with use := s.use.step (.release place l), results := s.results ++ [(x, result)] }
  | .breaks x e l =>
    { s with use := s.use.step (.kill place), left := s.left ++ [l], results := s.results ++ [(x, .error e)] }
  | .drops l => { s with use := s.use.step (.kill place), left := s.left ++ [l] }

variable (evaluate : Interpreter σ)

def step (s : Service σ) : ServiceAct σ → Service σ
  | .acquire => { s with use := s.use.step .acquire }
  | .prewarm => { s with use := s.use.step .prewarm }
  | .shutdown => { s with use := s.use.step .shutdown }
  | .client place signal =>
    match s.use.clients[place]? with
    | some c => { s with use := s.use.step (.go place (signalTo c signal)) }
    | none => s
  | .order place script context timeout limits =>
    match s.use.leases[place]? with
    | some h =>
      if h.worker.desk.isFree then
        { s with nextExecution := s.nextExecution + 1 }.settle place
          (h.worker.order ⟨s.nextExecution, h.id, timeout, context⟩ script limits)
      else s
    | none => s
  | .host place a =>
    match s.use.leases[place]? with
    | some h => s.settle place (h.worker.act a)
    | none => s
  | .work place a =>
    match s.use.leases[place]? with
    | some h => s.settle place (.goes (h.worker.work evaluate a))
    | none => s
  | .workIdle place a =>
    let idle := s.use.pool.idle.modify place fun h => { h with worker := h.worker.work evaluate a }
    { s with use := { s.use with pool := { s.use.pool with idle } } }
  | .workAlone place a => { s with left := s.left.modify place fun l => l.workAlone evaluate a }

/-- One act after the other. -/
def run (s : Service σ) (acts : List (ServiceAct σ)) : Service σ :=
  acts.foldl (step evaluate) s

end Service
end RecordService
