import RecordService.Plan.Join
import RecordService.Request.Options

/-! # Resolving paths

A path is walked through the catalog from the root table. If it leads somewhere, every relation it crosses is
joined, except one that it ends in: whether that one needs a join is for the caller to say (`JoinPlan.cross`). -/

namespace RecordService

/-- What a compilation reads: the catalog, the root table, and the options. -/
structure Setting where
  catalog : Catalog
  root : Table
  options : CompileOptions

/-- What a compilation builds up: the joins, and the paths it has dropped. -/
structure Draft where
  plan : JoinPlan
  skipped : List String
deriving DecidableEq, Repr

/-- A relation that has been joined. -/
structure Hop where
  path : String
  tableAlias : String
  relation : Relation
  target : Table
deriving DecidableEq, Repr

/-- Where a path leads. -/
inductive Resolved where
  /-- To a column of the table known by the alias. -/
  | column (hops : List Hop) (tableAlias : String) (column : Column)
  /-- To a relation of `parent`, which is not joined yet. -/
  | relation (hops : List Hop) (parentPath parentAlias : String) (parent : Table) (relation : Relation)
      (target : Table)
deriving DecidableEq, Repr

namespace Resolved

/-- The relations crossed on the way. -/
def hops : Resolved → List Hop
  | column hops _ _ => hops
  | relation hops _ _ _ _ _ => hops

/-- Whether a crossed relation leads to many records. -/
def throughMany (r : Resolved) : Bool :=
  r.hops.any (·.relation.isMany)

end Resolved

/-- One segment of a path, looked up. -/
inductive PathStep where
  | relation (r : Relation) (target : Table)
  | column (c : Column)

/-- Looks up every segment, relations before columns; a column has to be the last one. -/
def walk (catalog : Catalog) (table : Table) : List String → Option (List PathStep)
  | [] => some []
  | segment :: rest =>
    match table.relation? segment with
    | some r =>
      match catalog.target? r with
      | some target => (walk catalog target rest).map (.relation r target :: ·)
      | none => none
    | none =>
      match table.column? segment with
      | some c => if rest.isEmpty then some [.column c] else none
      | none => none

/-- Joins a relation below a path. -/
def JoinPlan.cross (p : JoinPlan) (path tableAlias : String) (r : Relation) (target : Table) (usage : Usage) :
    Hop × JoinPlan :=
  let (joined, p) := p.join path tableAlias r target usage
  (⟨extendPath path r.name, joined, r, target⟩, p)

/-- Joins every relation of the steps but a last one. -/
def JoinPlan.follow (p : JoinPlan) (usage : Usage) (hops : List Hop) (path tableAlias : String) (table : Table) :
    List PathStep → Option (Resolved × JoinPlan)
  | [] => none
  | [.column c] => some (.column hops tableAlias c, p)
  | [.relation r target] => some (.relation hops path tableAlias table r target, p)
  | .relation r target :: rest =>
    let (hop, p) := p.cross path tableAlias r target usage
    p.follow usage (hops ++ [hop]) hop.path hop.tableAlias target rest
  | .column _ :: _ => none

/-- Resolves a path from the root. A path that leads nowhere plans no join. -/
def Setting.resolve? (s : Setting) (p : JoinPlan) (path : Path) (usage : Usage) : Option (Resolved × JoinPlan) :=
  match walk s.catalog s.root path.segments with
  | some steps => p.follow usage [] "" p.root s.root steps
  | none => none

/-- Treats a path that leads nowhere as the options say. -/
def Setting.unresolved (s : Setting) (d : Draft) (path : Path) : Except CompileError Draft :=
  match s.options.pathPolicy with
  | .strict => .error (.unresolvedPath s.root.name path)
  | .lenient => .ok { d with skipped := d.skipped ++ [path.text] }

end RecordService
