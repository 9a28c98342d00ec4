import RecordService.Json.Fields
import RecordService.Request.Error

/-! # Compile options

What to do with a path that leads nowhere, what the root table is called in statements, and how many records a page
has when the request does not say. A root alias must differ from every alias that compilation makes up. -/

namespace RecordService

/-- What becomes of a path that the catalog does not know. -/
inductive PathPolicy where
  /-- It is dropped and reported. -/
  | lenient
  /-- It is an error. -/
  | strict
deriving DecidableEq, Repr

namespace PathPolicy

def name : PathPolicy → String
  | lenient => "lenient"
  | strict => "strict"

def ofJson? : Json → Option PathPolicy :=
  Json.choice? [("lenient", lenient), ("strict", strict)]

end PathPolicy

structure CompileOptions where
  pathPolicy : PathPolicy
  rootAlias : String
  /-- The page size of a request without a limit; zero for no bound. -/
  defaultLimit : Nat
deriving DecidableEq, Repr

namespace CompileOptions

def standard : CompileOptions :=
  ⟨.lenient, "r", 10⟩

def strict : CompileOptions :=
  { standard with pathPolicy := .strict }

/-- At least one digit and nothing else. -/
def isNumbered (cs : List Char) : Bool :=
  !cs.isEmpty && cs.all Char.isDigit

/-- A text without an ending, if it has it. -/
def dropEnding (ending cs : List Char) : List Char :=
  if ending.isSuffixOf cs then cs.take (cs.length - ending.length) else cs

/-- Whether the alias has the form of one that compilation makes up for a join, a subquery or a column. -/
def isGenerated (name : List Char) : Bool :=
  match name with
  | 'j' :: rest => isNumbered (dropEnding ['_', 'l', 'i', 'n', 'k'] rest)
  | c :: rest => (c == 's' || c == 'o' || c == 'a') && isNumbered rest
  | [] => false

/-- What is wrong with an alias for the root table. -/
def aliasFault? (name : String) : Option AliasFault :=
  if name.isEmpty then some .empty
  else if name == "w" || name == "k" then some .paging
  else if isGenerated name.toList then some .generated
  else none

/-- Refuses a root alias that cannot be used. -/
def check (o : CompileOptions) : Except CompileError Unit :=
  match aliasFault? o.rootAlias with
  | some fault => .error (.invalidRootAlias o.rootAlias fault)
  | none => .ok ()

/-- The options with another root alias, if it can be used. -/
def rename (o : CompileOptions) (name : String) : Except CompileError CompileOptions := do
  let renamed := { o with rootAlias := name }
  renamed.check
  return renamed

def ofJson? (d : Json) : Option CompileOptions := do
  let m ← d.members? ["path_policy", "root_alias", "default_limit"]
  return {
    pathPolicy := ← Json.fieldOr? m "path_policy" standard.pathPolicy PathPolicy.ofJson?
    rootAlias := ← Json.fieldOr? m "root_alias" standard.rootAlias Json.text?
    defaultLimit := ← Json.fieldOr? m "default_limit" standard.defaultLimit Json.count? }

def toJson (o : CompileOptions) : Json :=
  .obj [("path_policy", .str o.pathPolicy.name), ("root_alias", .str o.rootAlias),
        ("default_limit", .int o.defaultLimit)]

end CompileOptions
end RecordService
