import RecordService.Error
import RecordService.Store.Statement

/-! # Programs over the store

An operation is a program that performs steps, each of which has an answer, and then is done. What the answers are
is up to whoever runs it (`Program.run`), so that one operation can be run against a database, against recorded
answers, or with a catalog that is replaced between two steps. -/

namespace RecordService

/-- The phases of a find whose ends are counted. -/
inductive Phase where
  | execute
  | hydrate
  | count
deriving DecidableEq, Repr

inductive Step where
  /-- The catalog as it stands. -/
  | catalog
  | query (q : Query)
  | change (c : Change)
  /-- Begins a transaction. -/
  | begin
  /-- Ends the transaction and keeps its changes. A commit takes the transaction's handle, so that one that fails leaves
  no transaction open: what it could not keep is undone within the step. -/
  | commit
  /-- Drops the transaction, and what it changed is undone. -/
  | rollback
  /-- Makes the scope of the cache stale. -/
  | invalidate (scope : String)
  /-- Notes that a phase has ended. -/
  | ended (phase : Phase)
deriving Repr

/-- The type of the answer of a step. -/
abbrev Step.Answer : Step → Type
  | catalog => Catalog
  | query _ => Except Error Rows
  | change _ => Except Error Outcome
  | begin => Except Error Unit
  | commit => Except Error Unit
  | rollback => Unit
  | invalidate _ => Unit
  | ended _ => Unit

inductive Program (α : Type) where
  | done (value : α)
  | perform (step : Step) (next : step.Answer → Program α)

namespace Program

variable {α β σ : Type}

def bind (p : Program α) (f : α → Program β) : Program β :=
  match p with
  | done value => f value
  | perform step next => perform step fun answer => (next answer).bind f

instance : Monad Program where
  pure := done
  bind := bind

/-- One step and its answer. -/
def ask (step : Step) : Program step.Answer :=
  perform step done

/-- Runs a program. Each step is answered from a state, which is passed on to the next. -/
def run (answer : (step : Step) → σ → step.Answer × σ) : Program α → σ → α × σ
  | done value, state => (value, state)
  | perform step next, state =>
    let (reply, state) := answer step state
    (next reply).run answer state

end Program

/-- A program that may fail. -/
abbrev Operation := ExceptT Error Program

namespace Operation

variable {α : Type}

/-- A step that cannot fail. -/
def ask (step : Step) : Operation step.Answer :=
  ExceptT.lift (Program.ask step)

def query (q : Query) : Operation Rows :=
  ExceptT.mk (Program.ask (.query q))

def change (c : Change) : Operation Outcome :=
  ExceptT.mk (Program.ask (.change c))

def begin : Operation Unit :=
  ExceptT.mk (Program.ask .begin)

def commit : Operation Unit :=
  ExceptT.mk (Program.ask .commit)

def ofExcept (r : Except Error α) : Operation α :=
  ExceptT.mk (.done r)

/-- Runs work in a transaction, which is committed if the work succeeds and rolled back if it fails. Beginning and
committing may fail themselves. -/
def transaction (work : Operation α) : Operation α := do
  begin
  let value ← tryCatch work fun e => do
    ask .rollback
    throw e
  commit
  return value

end Operation
end RecordService
