import RecordService.Cache.Basic
import RecordService.Catalog.Source
import RecordService.Store.Program

/-! # Sessions with recorded replies

A program run against a list of replies: the n-th query or change gets the n-th of them. The session notes what was
asked, in order, and holds the catalog in force and the cache. -/

namespace RecordService

/-- A reply to a query or a change, whichever comes. -/
inductive Reply where
  | fail (reason : String)
  | success (rows : Rows) (outcome : Outcome)
deriving DecidableEq, Repr

namespace Reply

/-- The reply to what is asked when no reply is left: no rows, and one row changed. -/
def default : Reply :=
  .success .empty ⟨1, none⟩

def rows : Reply → Except Error Rows
  | fail reason => .error (.argument (.other reason))
  | success rows _ => .ok rows

def outcome : Reply → Except Error Outcome
  | fail reason => .error (.argument (.other reason))
  | success _ outcome => .ok outcome

end Reply

inductive LogEntry where
  | query (q : Query)
  | change (c : Change)
  | begin
  | commit
  | rollback
deriving Repr

structure Session where
  replies : List Reply
  log : List LogEntry
  source : CatalogSource
  cache : ScopedCache
  /-- The phases that have ended. -/
  ended : List Phase

namespace Session

def start (c : Catalog) (cache : ScopedCache) (replies : List Reply) : Session :=
  ⟨replies, [], .start c, cache, []⟩

/-- The next reply, and the session after it. -/
def reply (s : Session) : Reply × Session :=
  (s.replies.head?.getD .default, { s with replies := s.replies.tail })

def note (s : Session) (e : LogEntry) : Session :=
  { s with log := s.log ++ [e] }

/-- The answer of a step. -/
def answer : (step : Step) → Session → step.Answer × Session
  | .catalog, s => (s.source.current, s)
  | .query q, s =>
    let (r, s) := (s.note (.query q)).reply
    (r.rows, s)
  | .change c, s =>
    let (r, s) := (s.note (.change c)).reply
    (r.outcome, s)
  | .begin, s => (.ok (), s.note .begin)
  | .commit, s => (.ok (), s.note .commit)
  | .rollback, s => ((), s.note .rollback)
  | .invalidate scope, s => ((), { s with cache := s.cache.invalidate scope })
  | .ended phase, s => ((), { s with ended := s.ended ++ [phase] })

/-- Runs an operation. -/
def run {α : Type} (s : Session) (op : Operation α) : Except Error α × Session :=
  Program.run answer (ExceptT.run op) s

/-- How often a phase has ended. -/
def count (s : Session) (phase : Phase) : Nat :=
  s.ended.count phase

end Session
end RecordService
