import RecordService.Config.Basic

/-! # Settings as documents

A section that is absent, or a setting absent from its section, has its default; names that mean nothing are ignored.
A section may also list its settings by position, and what it lists beyond the last is ignored too. Settings that are
numbers are whole, not negative, and below 2^63.

Names that mean nothing may hold anything, but not at any depth: a table lies under 79 names at most, and a value that
is no table nests 79 deep at most. -/

namespace RecordService.Config

/-! ### Nesting -/

/-- The greatest number of names above a table, and of containers within a value. -/
def maxDepth : Nat := 79

mutual

/-- How many containers lie within each other, at most. -/
def depth : Json → Nat
  | .arr items => 1 + itemsDepth items
  | .obj entries => 1 + entriesDepth entries
  | _ => 0

def itemsDepth : List Json → Nat
  | [] => 0
  | item :: rest => max (depth item) (itemsDepth rest)

def entriesDepth : List (String × Json) → Nat
  | [] => 0
  | (_, value) :: rest => max (depth value) (entriesDepth rest)

end

/-- Whether a value is a table. -/
def isTable : Json → Bool
  | .obj _ => true
  | _ => false

mutual

/-- Whether a value under so many names nests within bounds. A list of tables counts as a table. -/
def nests (names : Nat) : Json → Bool
  | .obj entries => names ≤ maxDepth && entriesNest (names + 1) entries
  | .arr items =>
    if items.isEmpty || !items.all isTable then 1 + itemsDepth items ≤ maxDepth else itemsNest names items
  | _ => true

def itemsNest (names : Nat) : List Json → Bool
  | [] => true
  | item :: rest => nests names item && itemsNest names rest

def entriesNest (names : Nat) : List (String × Json) → Bool
  | [] => true
  | (_, value) :: rest => nests names value && entriesNest names rest

end

/-! ### Sections -/

/-- A section without what it lists beyond its settings. -/
def trimmed (names : List String) : Json → Json
  | .arr items => .arr (items.take names.length)
  | d => d

/-- The settings of a section that are given, by name. -/
def section? (names : List String) (d : Json) : Option Entries :=
  (trimmed names d).members? names

/-- One of a few names, as a text or as the only key of an object that has nothing under it. -/
def choice? {α : Type} (names : List (String × α)) : Json → Option α
  | .str s => names.lookup s
  | .obj [(s, .obj [])] => names.lookup s
  | .obj [(s, .arr [])] => names.lookup s
  | _ => none

/-- A count; settings have 64 bits with a sign. -/
def count? : Json → Option Nat :=
  Json.countBelow? (twoPow 63)

/-- A text, when it is given. -/
def textMember? (m : Entries) (name : String) : Option (Option String) :=
  Json.fieldOr? m name none fun d => (Json.text? d).map some

namespace Database

def names : List String :=
  ["path", "catalog"]

def ofJson? (d : Json) : Option Database := do
  let m ← section? names d
  return ⟨← textMember? m "path", ← textMember? m "catalog"⟩

def toJson (s : Database) : Json :=
  .obj [("path", Json.ofText? s.path), ("catalog", Json.ofText? s.catalog)]

end Database

/-! ### Compilation -/

def queryNames : List String :=
  ["path_policy", "default_limit", "root_alias"]

def queryOfJson? (d : Json) : Option CompileOptions := do
  let m ← section? queryNames d
  return {
    pathPolicy := ← Json.fieldOr? m "path_policy" CompileOptions.standard.pathPolicy
      (choice? [("lenient", .lenient), ("strict", .strict)])
    defaultLimit := ← Json.fieldOr? m "default_limit" CompileOptions.standard.defaultLimit count?
    rootAlias := ← Json.fieldOr? m "root_alias" CompileOptions.standard.rootAlias Json.text? }

/-! ### Execution -/

namespace Isolation

def name : Isolation → String
  | thread => "thread"
  | process => "process"

def ofJson? : Json → Option Isolation :=
  choice? [("thread", thread), ("process", process)]

end Isolation

namespace Execution

def names : List String :=
  ["pool_size", "prewarm", "timeout_ms", "acquire_timeout_ms", "isolation", "worker_program", "sandbox"]

/-- The bounds of the sandbox, which are counts. -/
def sandboxOfJson? (d : Json) : Option SandboxLimits :=
  (SandboxLimits.ofJson? (trimmed SandboxLimits.names d)).filter fun l =>
    [l.operations, l.callLevels, l.stringSize, l.arraySize, l.mapSize].all (·.toNat < twoPow 63)

def ofJson? (d : Json) : Option Execution := do
  let m ← section? names d
  return {
    poolSize := ← Json.fieldOr? m "pool_size" standard.poolSize count?
    prewarm := ← Json.fieldOr? m "prewarm" standard.prewarm count?
    timeout := ← Json.fieldOr? m "timeout_ms" standard.timeout count?
    acquireTimeout := ← Json.fieldOr? m "acquire_timeout_ms" standard.acquireTimeout count?
    isolation := ← Json.fieldOr? m "isolation" standard.isolation Isolation.ofJson?
    workerProgram := ← textMember? m "worker_program"
    sandbox := ← Json.fieldOr? m "sandbox" standard.sandbox sandboxOfJson? }

def toJson (e : Execution) : Json :=
  .obj [("pool_size", .int e.poolSize), ("prewarm", .int e.prewarm), ("timeout_ms", .int e.timeout),
        ("acquire_timeout_ms", .int e.acquireTimeout), ("isolation", .str e.isolation.name),
        ("worker_program", Json.ofText? e.workerProgram), ("sandbox", e.sandbox.toJson)]

end Execution

/-! ### All settings -/

def names : List String :=
  ["database", "query", "executor"]

def ofJson? (d : Json) : Option Config := do
  if !nests 0 d then none
  let m ← section? names d
  return {
    database := ← Json.fieldOr? m "database" standard.database Database.ofJson?
    query := ← Json.fieldOr? m "query" standard.query queryOfJson?
    execution := ← Json.fieldOr? m "executor" standard.execution Execution.ofJson? }

def toJson (c : Config) : Json :=
  .obj [("database", c.database.toJson), ("query", c.query.toJson), ("executor", c.execution.toJson)]

end RecordService.Config
