import RecordService.Handler.Pool
import RecordService.Request.Options
import RecordService.Worker.Message

/-! # Settings

What a service is set up with: where its files are, how finds are compiled, and how scripts are run. Every setting has
a default. Times are in milliseconds. -/

namespace RecordService

/-- How a pool of workers is set up. -/
structure PoolOptions where
  size : Nat
  /-- How many workers are kept ready ahead of use. -/
  stock : Nat
  /-- How long to wait for a free worker; without it, for ever. -/
  acquireTimeout : Option Nat
  /-- How long a new worker may take to announce itself. -/
  handshakeTimeout : Nat
deriving DecidableEq, Repr

namespace PoolOptions

def standard : PoolOptions :=
  ⟨4, 0, none, 10000⟩

/-- The pool before any worker is started. -/
def pool {ω : Type} (o : PoolOptions) : Pool ω :=
  .empty o.size o.stock

end PoolOptions

namespace Config

structure Database where
  path : Option String
  catalog : Option String
deriving DecidableEq, Repr

/-- What separates a worker from the service. -/
inductive Isolation where
  | thread
  | process
deriving DecidableEq, Repr

structure Execution where
  poolSize : Nat
  /-- How many workers are started before the first request. -/
  prewarm : Nat
  /-- The time that a script has by default. -/
  timeout : Nat
  /-- How long to wait for a free worker; zero for ever. -/
  acquireTimeout : Nat
  isolation : Isolation
  /-- The program of a worker that is a process of its own; the running one by default. -/
  workerProgram : Option String
  sandbox : SandboxLimits
deriving DecidableEq, Repr

namespace Execution

def standard : Execution :=
  ⟨PoolOptions.standard.size, PoolOptions.standard.stock, 5000, 0, .thread, none, .standard⟩

def poolOptions (e : Execution) : PoolOptions :=
  { PoolOptions.standard with
    size := e.poolSize
    stock := e.prewarm
    acquireTimeout := if e.acquireTimeout = 0 then none else some e.acquireTimeout }

end Execution
end Config

structure Config where
  database : Config.Database
  query : CompileOptions
  execution : Config.Execution
deriving DecidableEq, Repr

namespace Config

def standard : Config :=
  ⟨⟨none, none⟩, .standard, .standard⟩

end Config
end RecordService
