import RecordService.CommandLine.Words

/-! # Invocations

The commands and what each of them is given. -/

namespace RecordService.CommandLine

inductive OutputFormat where
  | text
  | json
deriving DecidableEq, Repr

/-- Where the catalog and the records are, and what becomes of paths that lead nowhere. -/
structure SourceArguments where
  catalog : Option String
  database : Option String
  strict : Bool
deriving DecidableEq, Repr

/-- The parts of a find, as they are written. -/
structure QueryArguments where
  table : String
  filter : Option String
  fields : Option String
  sort : Option String
  page : Option Nat
  limit : Option Nat
  counts : Option String
  aggregate : Option String
deriving DecidableEq, Repr

/-- A script file and what the script gets to see. -/
structure ScriptArguments where
  script : String
  body : Option String
  params : Option String
  mainTable : Option String
  timeout : Option Nat
deriving DecidableEq, Repr

inductive Command where
  /-- Prints the statements of a find. -/
  | explain (format : OutputFormat) (source : SourceArguments) (query : QueryArguments)
  /-- Prints the records of a find. -/
  | find (source : SourceArguments) (query : QueryArguments)
  /-- Runs a script and prints its value. -/
  | run (source : SourceArguments) (script : ScriptArguments)
deriving DecidableEq, Repr

inductive Invocation where
  /-- Runs the scripts of a host. -/
  | worker
  /-- Carries out a command, with the settings of a file. -/
  | command (config : Option String) (c : Command)
deriving DecidableEq, Repr

/-! ### Options -/

def commonOptions : List OptionSpec :=
  [.path "config" "FILE", ⟨"format", some ("FORMAT", .choice ["text", "json"]), false⟩]

def sourceOptions : List OptionSpec :=
  [.path "catalog" "FILE", .path "db" "FILE", .flag "strict"]

def tableOption : OptionSpec :=
  .text "table" "TABLE"

def queryOptions : List OptionSpec :=
  [tableOption, .text "filter" "JSON", .text "fields" "a,b.c,d.*", ⟨"sort", some ("a,-b", .text), true⟩,
   .count "page" "PAGE", .count "limit" "LIMIT", .text "meta" "totalCount|filterCount|*", .text "aggregate" "JSON"]

def scriptOption : OptionSpec :=
  .path "script" "FILE"

def runOptions : List OptionSpec :=
  [scriptOption, .text "body" "JSON", .text "params" "JSON", tableOption, .count "timeout-ms" "TIMEOUT_MS"]

/-- The commands and their options. -/
def commands : List (String × List OptionSpec) :=
  [("worker", []), ("explain", sourceOptions ++ queryOptions), ("find", sourceOptions ++ queryOptions),
   ("run", sourceOptions ++ runOptions)]

/-! ### From what was read -/

namespace Reading

def source (r : Reading) : SourceArguments :=
  ⟨r.text? "catalog", r.text? "db", r.has "strict"⟩

def query (r : Reading) : Except UsageFault QueryArguments := do
  return {
    table := ← r.need tableOption
    filter := r.text? "filter"
    fields := r.text? "fields"
    sort := r.text? "sort"
    page := r.count? "page"
    limit := r.count? "limit"
    counts := r.text? "meta"
    aggregate := r.text? "aggregate" }

def script (r : Reading) : Except UsageFault ScriptArguments := do
  return {
    script := ← r.need scriptOption
    body := r.text? "body"
    params := r.text? "params"
    mainTable := r.text? "table"
    timeout := r.count? "timeout-ms" }

def format (r : Reading) : OutputFormat :=
  if r.text? "format" == some "json" then .json else .text

/-- The invocation that the words amount to. -/
def invocation (r : Reading) : Except UsageFault Invocation :=
  let command (c : Command) : Invocation := .command (r.text? "config") c
  match r.command with
  | some "worker" => .ok .worker
  | some "explain" => r.query.map fun q => command (.explain r.format r.source q)
  | some "find" => r.query.map fun q => command (.find r.source q)
  | some "run" => r.script.map fun s => command (.run r.source s)
  | _ => .error .noCommand

end Reading

/-- The invocation of some words. -/
def Invocation.ofWords (words : List String) : Except UsageFault Invocation := do
  (← Reading.ofWords commonOptions commands words).invocation

end RecordService.CommandLine
