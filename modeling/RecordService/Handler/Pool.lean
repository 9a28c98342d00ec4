import RecordService.Handler.Error

/-! # Pools of workers

At most `size` workers are alive at once. Those that have nothing to do are idle, the last released on top. Whatever
is done to a pool is a task that takes one step at a time, each of them under a lock or on a counter, so that the
steps of several tasks may come in any order; between two steps a task may hold a slot that is counted as alive. -/

namespace RecordService

/-- A worker of a pool, with the number that no other worker of the pool has. -/
structure Handle (ω : Type) where
  id : Nat
  worker : ω
deriving DecidableEq, Repr

structure Pool (ω : Type) where
  /-- The most workers that may be alive. -/
  size : Nat
  /-- How many workers may be kept ready ahead of use. -/
  stock : Nat
  idle : List (Handle ω)
  closed : Bool
  /-- The slots that are taken. -/
  live : Nat
  /-- The workers that are leased. -/
  busy : Nat
  nextId : Nat
deriving DecidableEq, Repr

namespace Pool

/-- What a worker is started for. -/
inductive Purpose where
  | lease
  /-- To be kept ready, after so many others. -/
  | stock (started : Nat)
deriving DecidableEq, Repr

/-- What a task comes to. -/
inductive Answer (ω : Type) where
  | leased (h : Handle ω)
  /-- So many workers were started. -/
  | started (count : Nat)
  | finished
  | failed (e : ExecutionError)
deriving DecidableEq, Repr

/-- What a task does after it has told that a slot or a worker is free. -/
inductive After (ω : Type) where
  | answer (a : Answer ω)
  /-- It stops the workers that are left. -/
  | stop (rest : List (Handle ω))
deriving DecidableEq, Repr

/-- What a task is about to do. -/
inductive Task (ω : Type) where
  /-- To acquire a worker: take an idle one. -/
  | look
  /-- To acquire a worker: take a slot, as none was idle. -/
  | reserve
  /-- To acquire a worker: wait until told that one may be free. -/
  | wait
  /-- To fill the stock: see whether workers are missing. -/
  | fill (started : Nat)
  /-- To fill the stock: take a slot. -/
  | fillReserve (started : Nat)
  /-- To start a worker in the slot taken. -/
  | start (purpose : Purpose)
  /-- To wait until the worker started is ready. -/
  | await (purpose : Purpose) (id : Nat)
  /-- To pass on a worker that is ready. -/
  | place (purpose : Purpose) (h : Handle ω)
  | lend (h : Handle ω)
  /-- To end a lease and keep its worker. -/
  | giveBack (h : Handle ω)
  | shelve (h : Handle ω)
  /-- To end a lease and its worker. -/
  | discard (h : Handle ω)
  /-- To free the slot of a worker that is killed or was never ready. -/
  | free (next : After ω)
  /-- To tell one task that waits. -/
  | announce (next : After ω)
  /-- To close the pool. -/
  | close
  | stop (rest : List (Handle ω))
deriving DecidableEq, Repr

/-- What comes from outside to a task. -/
inductive Signal (ω : Type) where
  /-- Nothing: the task goes on by itself. -/
  | go
  | ready (worker : ω)
  | broken (reason : String)
  /-- Told that a worker or a slot may be free. -/
  | woken
  /-- The time to wait is over. -/
  | late
  /-- Nobody is interested in the task any more. -/
  | abandoned
deriving DecidableEq, Repr

/-- Which of the tasks that wait are told. -/
inductive Notice where
  | one
  | all
deriving DecidableEq, Repr

/-- A step of a task: the pool after it, what the task does next, and who is told. -/
structure Move (ω : Type) where
  pool : Pool ω
  next : Answer ω ⊕ Task ω
  notice : Option Notice
deriving DecidableEq, Repr

variable {ω : Type}

/-- A pool without workers, of one slot at least. -/
def empty (size stock : Nat) : Pool ω :=
  ⟨max size 1, stock, [], false, 0, 0, 1⟩

/-- How many workers are kept ready. -/
def target (p : Pool ω) : Nat :=
  min p.stock p.size

/-- The task goes on with the next thing to do. -/
def goOn (p : Pool ω) (t : Task ω) : Move ω :=
  ⟨p, .inr t, none⟩

/-- The task has come to an answer. -/
def answer (p : Pool ω) (a : Answer ω) : Move ω :=
  ⟨p, .inl a, none⟩

/-- Takes a slot, if one is free. -/
def reserve? (p : Pool ω) : Option (Pool ω) :=
  if p.live < p.size then some { p with live := p.live + 1 } else none

/-- The step of a task on a signal. A signal that the task does not wait for changes nothing. -/
def step (p : Pool ω) (t : Task ω) (signal : Signal ω) : Move ω :=
  match t, signal with
  | .look, .go =>
    if p.closed then p.answer (.failed .poolClosed)
    else
      match p.idle with
      | h :: rest => { p with idle := rest, busy := p.busy + 1 }.answer (.leased h)
      | [] => p.goOn .reserve
  | .reserve, .go =>
    match p.reserve? with
    | some p => p.goOn (.start .lease)
    | none => p.goOn .wait
  | .wait, .woken => p.goOn .look
  | .wait, .late => p.answer (.failed .acquireTimeout)
  | .wait, .abandoned => p.answer .finished
  | .fill started, .go =>
    if p.idle.length < p.target then p.goOn (.fillReserve started) else p.answer (.started started)
  | .fillReserve started, .go =>
    match p.reserve? with
    | some p => p.goOn (.start (.stock started))
    | none => p.answer (.started started)
  | .start purpose, .go => { p with nextId := p.nextId + 1 }.goOn (.await purpose p.nextId)
  | .await purpose id, .ready worker => p.goOn (.place purpose ⟨id, worker⟩)
  | .await _ _, .broken reason => p.goOn (.free (.answer (.failed (.spawn reason))))
  | .await _ _, .abandoned => p.goOn (.free (.answer .finished))
  | .place purpose h, .go =>
    if p.closed then p.goOn (.free (.answer (.failed .poolClosed)))
    else
      match purpose with
      | .lease => p.goOn (.lend h)
      | .stock started => { p with idle := h :: p.idle }.goOn (.fill (started + 1))
  | .lend h, .go => { p with busy := p.busy + 1 }.answer (.leased h)
  | .giveBack h, .go => { p with busy := p.busy - 1 }.goOn (.shelve h)
  | .shelve h, .go =>
    if p.closed then p.goOn (.free (.answer .finished))
    else { p with idle := h :: p.idle }.goOn (.announce (.answer .finished))
  | .discard _, .go => { p with busy := p.busy - 1 }.goOn (.free (.answer .finished))
  | .free next, .go => { p with live := p.live - 1 }.goOn (.announce next)
  | .announce (.answer a), .go => ⟨p, .inl a, some .one⟩
  | .announce (.stop rest), .go => ⟨p, .inr (.stop rest), some .one⟩
  | .close, .go => { p with closed := true, idle := [] }.goOn (.stop p.idle)
  | .stop (_ :: rest), .go => p.goOn (.free (.stop rest))
  | .stop [], .go => ⟨p, .inl .finished, some .all⟩
  | t, _ => p.goOn t

/-- What a task meets when no other task is under way: workers start as they do, and nobody else frees a slot. -/
def signalAlone (start : Nat → Except String ω) : Task ω → Signal ω
  | .wait => .late
  | .await _ id =>
    match start id with
    | .ok worker => .ready worker
    | .error reason => .broken reason
  | _ => .go

/-- At most so many steps of a task while no other is under way. -/
def runFor (start : Nat → Except String ω) : Nat → Pool ω → Task ω → Answer ω × Pool ω
  | 0, p, _ => (.finished, p)
  | fuel + 1, p, t =>
    let move := p.step t (signalAlone start t)
    match move.next with
    | .inl a => (a, move.pool)
    | .inr t => runFor start fuel move.pool t

/-- Steps enough for every task: five for each worker that is started, three for each that is stopped. -/
def steps (p : Pool ω) : Nat :=
  5 * p.size + 3 * p.idle.length + 8

/-- A whole task while no other is under way. -/
def run (start : Nat → Except String ω) (p : Pool ω) (t : Task ω) : Answer ω × Pool ω :=
  runFor start p.steps p t

end Pool
end RecordService
