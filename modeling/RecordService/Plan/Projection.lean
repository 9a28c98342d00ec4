import RecordService.Plan.Resolve
import RecordService.Plan.Shape

/-! # Projections

The field list of a request becomes a list of selected columns and the shape that puts their cells together. A
column path selects the column and a relation path the related key; `*` selects every column of a table, the keys of
its to-one relations, and the keys of its to-many relations. The latter are not joined, since that would multiply
the rows: they are links to be loaded once the records are known (`DeferredLink`), unless a field joins them. -/

namespace RecordService

structure SelectColumn where
  ref : Sql.ColumnRef
  type : ScalarType
deriving DecidableEq, Repr

/-- A to-many relation whose keys are loaded after the rows. -/
structure DeferredLink where
  /-- The relations from the root to the parents. -/
  parentChain : List String
  name : String
  /-- The field of a parent that its links refer to. -/
  parentField : String
  parentType : ScalarType
  links : LinkTable
  /-- The only field of each related record. -/
  targetKey : String
  targetType : ScalarType
deriving DecidableEq, Repr

namespace DeferredLink

/-- The links of a relation of `parent`. -/
def ofRelation (parentChain : List String) (parent : Table) (r : Relation) (target : Table) : DeferredLink :=
  { parentChain, name := r.name, parentField := r.joinKey
    parentType := ((parent.column? r.joinKey).map (·.type)).getD parent.primaryType
    links := r.links target, targetKey := target.primaryKey, targetType := target.primaryType }

/-- The relation and the parents it belongs to. -/
def chain (l : DeferredLink) : List String :=
  l.parentChain ++ [l.name]

/-- The dotted path of the relation. -/
def path (l : DeferredLink) : String :=
  String.intercalate "." l.chain

/-- The pairs of parent key and target key for some parent keys, in order of both. -/
def statement (l : DeferredLink) (keys : List Cell) : Sql.Statement :=
  let parent := Sql.ColumnRef.text ⟨"l", l.links.parentKey⟩
  let target := Sql.ColumnRef.text ⟨"l", l.links.targetKey⟩
  ⟨s!"SELECT {parent}, {target} FROM {Sql.quoteName l.links.table} AS " ++ Sql.quoteName "l" ++
    s!" WHERE {parent} IN ({Sql.placeholders keys}) ORDER BY {parent} ASC, {target} ASC", keys⟩

end DeferredLink

structure Projection where
  columns : List SelectColumn
  shape : Shape
  deferred : List DeferredLink

namespace Projection

/-- Nothing but the root's key. -/
def start (rootAlias : String) (root : Table) : Projection :=
  ⟨[⟨⟨rootAlias, root.primaryKey⟩, root.primaryType⟩], .ofKey root.primaryKey 0, []⟩

/-- The place of a column among the selected ones, where it is added if it is not there. -/
def slot (p : Projection) (ref : Sql.ColumnRef) (type : ScalarType) : Nat × Projection :=
  match p.columns.findIdx? (·.ref == ref) with
  | some place => (place, p)
  | none => (p.columns.length, { p with columns := p.columns ++ [⟨ref, type⟩] })

/-- The hops as links of a shape, their keys selected. -/
def linksOf (p : Projection) : List Hop → List ShapeLink × Projection
  | [] => ([], p)
  | hop :: rest =>
    let (keySlot, p) := p.slot ⟨hop.tableAlias, hop.target.primaryKey⟩ hop.target.primaryType
    let (links, p) := linksOf p rest
    (⟨hop.relation.name, hop.relation.isMany, hop.target.primaryKey, keySlot⟩ :: links, p)

/-- Adds the related records at the end of the hops. -/
def addRecords (p : Projection) (hops : List Hop) : Projection :=
  let (links, p) := p.linksOf hops
  { p with shape := p.shape.grow id links }

/-- Adds a field of the records at the end of the hops. -/
def addField (p : Projection) (hops : List Hop) (tableAlias : String) (column : Column) : Projection :=
  let (links, p) := p.linksOf hops
  let (slot, p) := p.slot ⟨tableAlias, column.name⟩ column.type
  { p with shape := p.shape.grow (Shape.addField column.name slot) links }

/-- Adds the key of every relation of the table at the end of the hops: to-one relations are joined, to-many ones
deferred. -/
def addRelations (s : Setting) (hops : List Hop) (tableAlias path : String) (table : Table) :
    List Relation → Projection → JoinPlan → Projection × JoinPlan
  | [], p, plan => (p, plan)
  | r :: rest, p, plan =>
    match s.catalog.target? r with
    | none => addRelations s hops tableAlias path table rest p plan
    | some target =>
      if r.isMany then
        let link := DeferredLink.ofRelation (hops.map (·.relation.name)) table r target
        addRelations s hops tableAlias path table rest { p with deferred := p.deferred ++ [link] } plan
      else
        let (hop, plan) := plan.cross path tableAlias r target .forProjection
        addRelations s hops tableAlias path table rest (p.addRecords (hops ++ [hop])) plan

/-- Adds everything that `*` stands for at the end of the hops. -/
def addAll (s : Setting) (hops : List Hop) (tableAlias path : String) (table : Table) (p : Projection)
    (plan : JoinPlan) : Projection × JoinPlan :=
  let p := table.columns.foldl (fun p column => p.addField hops tableAlias column) p
  addRelations s hops tableAlias path table table.relations (p.addRecords hops) plan

/-- Adds what a wildcard path stands for. -/
def addWildcard (s : Setting) (path : Path) (p : Projection) (d : Draft) :
    Except CompileError (Projection × Draft) :=
  if path.parent.isEmpty then
    let (p, plan) := addAll s [] d.plan.root "" s.root p d.plan
    .ok (p, { d with plan })
  else
    match s.resolve? d.plan path.parent .forProjection with
    | some (.relation hops parentPath parentAlias _ r target, plan) =>
      let (hop, plan) := plan.cross parentPath parentAlias r target .forProjection
      let (p, plan) := addAll s (hops ++ [hop]) hop.tableAlias hop.path target p plan
      .ok (p, { d with plan })
    | some (.column .., plan) => do
      let d ← s.unresolved { d with plan } path
      return (p, d)
    | none => do
      let d ← s.unresolved d path
      return (p, d)

/-- Adds what a path of the field list stands for. -/
def addPath (s : Setting) (path : Path) (p : Projection) (d : Draft) : Except CompileError (Projection × Draft) :=
  if path.isWildcard then addWildcard s path p d
  else
    match s.resolve? d.plan path .forProjection with
    | some (.column hops tableAlias column, plan) => .ok (p.addField hops tableAlias column, { d with plan })
    | some (.relation hops parentPath parentAlias _ r target, plan) =>
      let (hop, plan) := plan.cross parentPath parentAlias r target .forProjection
      .ok (p.addRecords (hops ++ [hop]), { d with plan })
    | none => do
      let d ← s.unresolved d path
      return (p, d)

def addPaths (s : Setting) : List Path → Projection → Draft → Except CompileError (Projection × Draft)
  | [], p, d => .ok (p, d)
  | path :: rest, p, d => do
    let (p, d) ← addPath s path p d
    addPaths s rest p d

/-- The links that no field joins, each once. -/
def keepDeferred (shape : Shape) : List DeferredLink → List DeferredLink → List DeferredLink
  | kept, [] => kept
  | kept, l :: rest =>
    if kept.any (·.chain == l.chain) || shape.isJoined l.parentChain l.name then keepDeferred shape kept rest
    else keepDeferred shape (kept ++ [l]) rest

/-- The projection of a field list. An empty list stands for `*`. -/
def ofFields (s : Setting) (fields : List Path) (d : Draft) : Except CompileError (Projection × Draft) := do
  let fields := if fields.isEmpty then [⟨["*"]⟩] else fields
  let (p, d) ← addPaths s fields (start d.plan.root s.root) d
  return ({ p with deferred := keepDeferred p.shape [] p.deferred }, d)

end Projection
end RecordService
