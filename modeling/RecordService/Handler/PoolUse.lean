import RecordService.Handler.Pool

/-! # Pools in use

Several tasks may be under way on one pool, each for a client, and workers are leased until they are released or ended. A
client that waits is parked until it is told that a worker or a slot may be free. A word meant for one client goes to the
one that is parked longest; if none is parked it is stored, at most once, for the next that would be. A word meant for all
is not stored. Which steps are taken, and in which order, is a list of acts; an act that nobody is ready for changes
nothing. -/

namespace RecordService

open Pool

/-- What a client has heard since it last looked for a worker. -/
inductive Attention where
  /-- It does not listen. -/
  | off
  /-- It hears what is told to all. -/
  | on
  /-- It is in the queue of those that are told one by one. -/
  | parked
  | told (word : Notice)
deriving DecidableEq, Repr

/-- A task with the attention of its client. -/
structure PoolClient (ω : Type) where
  task : Pool.Task ω
  attention : Attention
deriving DecidableEq, Repr

/-- What may happen next. Clients and leases are given by their places. -/
inductive PoolAct (ω : Type) where
  | acquire
  | prewarm
  | shutdown
  /-- A lease is released, with its worker as it is by then. -/
  | release (place : Nat) (worker : ω)
  /-- A lease is killed, or dropped without being released. -/
  | kill (place : Nat)
  /-- A client takes its next step, on a signal. -/
  | go (place : Nat) (signal : Signal ω)
deriving DecidableEq, Repr

structure PoolUse (ω : Type) where
  pool : Pool ω
  /-- Those with a task under way. -/
  clients : List (PoolClient ω)
  leases : List (Handle ω)
  /-- Whether a word is stored. -/
  stored : Bool
  /-- How often a client missed what it should have been told: a worker became idle and nobody was told, or a word came to
  nothing because one was stored. -/
  missed : Nat
deriving DecidableEq, Repr

variable {ω : Type}

/-- Whether a step makes a worker idle and tells nobody. -/
def Pool.silent (p : Pool ω) : Pool.Task ω → Signal ω → Bool
  | .place (.stock _) _, .go => !p.closed
  | _, _ => false

namespace PoolClient

/-- Whether the client has found neither a worker nor, if it waits, a slot, and has not been told anything since. -/
def lacks : PoolClient ω → Bool
  | ⟨.reserve, _⟩ => true
  | ⟨.wait, .told _⟩ => false
  | ⟨.wait, _⟩ => true
  | _ => false

def isParked (c : PoolClient ω) : Bool :=
  c.attention = .parked

/-- The client hears a word that is meant for all. -/
def hear (c : PoolClient ω) : PoolClient ω :=
  match c.attention with
  | .on | .parked => { c with attention := .told .all }
  | _ => c

/-- The client goes on with a task. One that looks listens anew. -/
def goOn (c : PoolClient ω) : Pool.Task ω → PoolClient ω
  | .look => ⟨.look, .on⟩
  | t => { c with task := t }

end PoolClient

namespace PoolUse

/-- A pool that nobody has used. -/
def start (size stock : Nat) : PoolUse ω :=
  ⟨.empty size stock, [], [], false, 0⟩

def join (u : PoolUse ω) (c : PoolClient ω) : PoolUse ω :=
  { u with clients := u.clients ++ [c] }

def withoutClient (u : PoolUse ω) (place : Nat) : PoolUse ω :=
  { u with clients := u.clients.eraseIdx place }

def withoutLease (u : PoolUse ω) (place : Nat) : PoolUse ω :=
  { u with leases := u.leases.eraseIdx place }

/-- Whether a client lacks something that no stored word will make it look for. -/
def short (u : PoolUse ω) : Bool :=
  u.stored.toNat < u.clients.countP PoolClient.lacks

/-- Counts what is missed, if it is. -/
def miss (u : PoolUse ω) (missed : Bool) : PoolUse ω :=
  { u with missed := u.missed + missed.toNat }

/-- A word for one client. -/
def tell (u : PoolUse ω) : PoolUse ω :=
  match u.clients.dropWhile (!·.isParked) with
  | c :: later =>
    { u with clients := u.clients.takeWhile (!·.isParked) ++ { c with attention := .told .one } :: later }
  | [] => { u.miss (u.stored && u.short) with stored := true }

/-- A word for all clients. -/
def tellAll (u : PoolUse ω) : PoolUse ω :=
  { u with clients := u.clients.map .hear }

/-- What becomes of a client after a step. -/
def goOn (u : PoolUse ω) (c : PoolClient ω) : Answer ω ⊕ Pool.Task ω → PoolUse ω
  | .inl (.leased h) => { u with leases := u.leases ++ [h] }
  | .inl _ => u
  | .inr t => u.join (c.goOn t)

def spread (u : PoolUse ω) : Option Notice → PoolUse ω
  | none => u
  | some .one => u.tell
  | some .all => u.tellAll

/-- The step of a client's task, the client being out of the list, and without the word that comes with it. -/
def advance (u : PoolUse ω) (c : PoolClient ω) (signal : Signal ω) : PoolUse ω :=
  let move := u.pool.step c.task signal
  { u.miss (silent u.pool c.task signal && u.short) with pool := move.pool }.goOn c move.next

def act (u : PoolUse ω) (c : PoolClient ω) (signal : Signal ω) : PoolUse ω :=
  (u.advance c signal).spread (u.pool.step c.task signal).notice

/-- The next step of a client. One that waits takes a word that is stored, or is parked; if it leaves after it was told,
the word is passed on. -/
def poll (u : PoolUse ω) (place : Nat) (c : PoolClient ω) (signal : Signal ω) : PoolUse ω :=
  let others := u.withoutClient place
  match c, signal with
  | ⟨.wait, .on⟩, .go =>
    if u.stored then { others with stored := false }.act c .woken else others.join ⟨.wait, .parked⟩
  | ⟨.wait, .told _⟩, .go => others.act c .woken
  | ⟨.wait, .told .one⟩, .late | ⟨.wait, .told .one⟩, .abandoned => (others.act c signal).tell
  | ⟨.wait, _⟩, .late | ⟨.wait, _⟩, .abandoned => others.act c signal
  | ⟨.wait, _⟩, _ => u
  | c, signal => others.act c signal

def step (u : PoolUse ω) : PoolAct ω → PoolUse ω
  | .acquire => u.join ⟨.look, .on⟩
  | .prewarm => u.join ⟨.fill 0, .off⟩
  | .shutdown => u.join ⟨.close, .off⟩
  | .release place worker =>
    match u.leases[place]? with
    | some h => (u.withoutLease place).join ⟨.giveBack ⟨h.id, worker⟩, .off⟩
    | none => u
  | .kill place =>
    match u.leases[place]? with
    | some h => (u.withoutLease place).join ⟨.discard h, .off⟩
    | none => u
  | .go place signal =>
    match u.clients[place]? with
    | some c => u.poll place c signal
    | none => u

/-- One act after the other. -/
def run (u : PoolUse ω) (acts : List (PoolAct ω)) : PoolUse ω :=
  acts.foldl step u

end PoolUse
end RecordService
