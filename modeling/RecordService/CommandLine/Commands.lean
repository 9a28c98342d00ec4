import RecordService.CommandLine.Invocation
import RecordService.Config.Basic
import RecordService.Handler.Executor
import RecordService.Json.Fault
import RecordService.Script.Evaluate

/-! # Carrying out commands

A command prints a text or fails with a message. What the files that it names hold, and how its store answers, comes
from its surroundings. -/

namespace RecordService.CommandLine

/-- What a command finds. The store is of any type `σ`. -/
structure Surroundings (σ : Type) where
  catalog : String → Except String Catalog
  /-- The store of a file, for the tables of a catalog. -/
  database : String → Catalog → Except String σ
  answer : (step : Step) → σ → step.Answer × σ
  script : String → Except String Script
  /-- Starts workers that are processes of a program; of the running one, if none is named. -/
  processes : Option String → Spawner
  /-- The time. -/
  clock : String

/-- What a command leaves behind. -/
structure Report where
  exit : Nat
  output : String
  error : String
deriving DecidableEq, Repr

namespace Report

/-- The report on words that make no command. -/
def ofFault (f : UsageFault) : Report :=
  ⟨2, "", s!"error: {f.message}\n\nFor more information, try '--help'.\n"⟩

def ofResult : Except String String → Report
  | .ok output => ⟨0, output, ""⟩
  | .error message => ⟨1, "", s!"error: {message}\n"⟩

end Report

/-- A document as it is printed. -/
def printed (d : Json) : String :=
  d.pretty ++ "\n"

/-- The document of an argument; `null` if it is not given. -/
def documentOf : Option String → Except String Json
  | some text => Json.readOrComplain text
  | none => .ok .null

namespace QueryArguments

def request (q : QueryArguments) : Except String FindRequest := do
  return {
    filter := ← documentOf q.filter
    aggregate := ← documentOf q.aggregate
    fields := q.fields.toList
    sort := q.sort.toList
    page := q.page
    limit := q.limit
    counts := q.counts }

end QueryArguments

namespace SourceArguments

variable {σ : Type}

def options (s : SourceArguments) (c : Config) : CompileOptions :=
  if s.strict then { c.query with pathPolicy := .strict } else c.query

/-- The file of the catalog: the one that is named here, else that of the settings. -/
def catalogFile? (s : SourceArguments) (c : Config) : Option String :=
  s.catalog <|> c.database.catalog

def loadCatalog (s : SourceArguments) (w : Surroundings σ) (c : Config) : Except String Catalog :=
  match s.catalogFile? c with
  | some path => w.catalog path
  | none => .error "no catalog given; pass --catalog or set database.catalog"

def openStore (s : SourceArguments) (w : Surroundings σ) (c : Config) (catalog : Catalog) : Except String σ :=
  match s.database <|> c.database.path with
  | some path => w.database path catalog
  | none => .error "no database given; pass --db or set database.path"

/-- The store with its catalog. -/
def store (s : SourceArguments) (w : Surroundings σ) (c : Config) : Except String σ := do
  s.openStore w c (← s.loadCatalog w c)

def registry (s : SourceArguments) (c : Config) : Registry :=
  ⟨s.options c, true⟩

end SourceArguments

/-! ### Explaining -/

def statementJson (s : Sql.Statement) : Json :=
  .obj [("sql", .str s.sql), ("params", .arr (s.params.map fun p => p.toJson none)),
        ("fingerprint", .str s.fingerprint)]

def planJson (p : FindPlan) : Json :=
  .obj [("table", .str p.table),
        ("window", .obj [("limit", FindRequest.countJson p.window.limit), ("skip", .int p.window.skip)]),
        ("statements", .obj (p.statements.map fun (label, s) => (label, statementJson s))),
        ("deferred", Json.ofTexts (p.projection.deferred.map (·.path))),
        ("skipped", Json.ofTexts p.skipped)]

/-- A line under a heading. -/
def row (key value : String) : String :=
  s!"  {key}: {value}\n"

def statementText (label : String) (s : Sql.Statement) : String :=
  s!"{label} [{s.fingerprint}]\n" ++ row "sql" s.sql ++
    row "params" (Json.arr (s.params.map fun p => p.toJson none)).compact

def planText (p : FindPlan) : String :=
  String.join (p.statements.map fun (label, s) => statementText label s) ++
    String.join (p.projection.deferred.map fun link => row "deferred" link.path) ++
    String.join (p.skipped.map (row "skipped"))

/-! ### The commands -/

variable {σ : Type}

def explain (w : Surroundings σ) (c : Config) (format : OutputFormat) (s : SourceArguments) (q : QueryArguments) :
    Except String String := do
  let catalog ← s.loadCatalog w c
  let request ← q.request
  let plan ← (FindPlan.compile catalog q.table request (s.options c)).mapError CompileError.labelled
  return match format with
    | .text => planText plan
    | .json => printed (planJson plan)

def find (w : Surroundings σ) (c : Config) (s : SourceArguments) (q : QueryArguments) : Except String String := do
  let store ← s.store w c
  let request ← q.request
  let found : Operation FindResult := do
    let repository ← (s.registry c).repository q.table
    repository.find request
  let result ← (found.run.run w.answer store).1.mapError Error.message
  return printed result.toJson

/-- Starts the workers of the settings. -/
def workers (w : Surroundings σ) (c : Config.Execution) : Spawner :=
  match c.isolation with
  | .thread => .standard
  | .process => w.processes c.workerProgram

def executorOptions (w : Surroundings σ) (c : Config) (s : SourceArguments) : ExecutorOptions Script where
  evaluate := Script.run
  capabilities := .standard (s.registry c) w.clock
  spawn := workers w c.execution
  limits := c.execution.sandbox
  timeout := c.execution.timeout

/-- An executor that has its stock of workers. -/
def startExecutor (o : ExecutorOptions Script) (p : PoolOptions) : Except String (Executor Peer) :=
  match (Executor.start p.pool).perform o (.fill 0) with
  | (.failed e, _) => .error e.message
  | (_, e) => .ok e

def ScriptArguments.context (a : ScriptArguments) : Except String ScriptContext := do
  return { ScriptContext.empty with
    body := ← documentOf a.body
    params := ← documentOf a.params
    mainTable := a.mainTable }

def run (w : Surroundings σ) (c : Config) (s : SourceArguments) (a : ScriptArguments) : Except String String := do
  let store ← s.store w c
  let o := executorOptions w c s
  let executor ← startExecutor o c.execution.poolOptions
  let context ← a.context
  let script ← w.script a.script
  let ((result, _), _) := (executor.run o ⟨script, context, a.timeout⟩).run w.answer store
  match result with
  | .ok value => return printed value
  | .error e => throw s!"{e.code} ({e.status}): {e.message}"

namespace Command

/-- The files that a command reads before it starts. -/
def files (c : Config) : Command → List String
  | explain _ source _ => source.catalogFile? c |>.toList
  | find source _ => source.catalogFile? c |>.toList
  | run source script => (source.catalogFile? c).toList ++ [script.script] ++ c.execution.workerProgram.toList

/-- Carries out a command with settings. -/
def perform (w : Surroundings σ) (c : Config) : Command → Report
  | explain format source query => .ofResult (CommandLine.explain w c format source query)
  | find source query => .ofResult (CommandLine.find w c source query)
  | run source script => .ofResult (CommandLine.run w c source script)

end Command
end RecordService.CommandLine
