/-! # Schema catalogs

A catalog is a fixed set of table shapes: columns with their scalar types, and relations with the keys that join
them. `Catalog.ofTables` builds one and names the first fault of tables that do not fit together; the type keeps
the proof that there is none. -/

namespace RecordService

/-- The type of a column. Booleans are stored as 0 and 1; dates, timestamps, documents and UUIDs as text. -/
inductive ScalarType where
  | int
  | float
  | bool
  | text
  | date
  | dateTime
  | json
  | uuid
deriving DecidableEq, Repr

namespace ScalarType

def isNumeric (t : ScalarType) : Bool :=
  t == int || t == float

def isTemporal (t : ScalarType) : Bool :=
  t == date || t == dateTime

end ScalarType

structure Column where
  name : String
  type : ScalarType
  nullable : Bool
deriving DecidableEq, Repr

/-- How many records a relation leads to. -/
inductive Cardinality where
  | one
  | many
deriving DecidableEq, Repr

/-- The table behind a many-to-many relation: one row per link. -/
structure Junction where
  table : String
  /-- The column that refers to the join key of the relation's own table. -/
  sourceKey : String
  /-- The column that refers to the inverse join key of the target. -/
  targetKey : String
deriving DecidableEq, Repr

/-- A named relation. Without a junction it joins `target.inverseJoinKey = own.joinKey`; with one it joins
`link.sourceKey = own.joinKey` and then `target.inverseJoinKey = link.targetKey`. -/
structure Relation where
  name : String
  cardinality : Cardinality
  target : String
  joinKey : String
  inverseJoinKey : String
  junction : Option Junction
deriving DecidableEq, Repr

structure Table where
  name : String
  primaryKey : String
  columns : List Column
  relations : List Relation
  /-- The column that marks system records. -/
  systemFlag : Option String
  /-- The fields of a system record that may still change. -/
  exemptFields : List String
  /-- The scope of the cache that a change of this table makes stale. -/
  cacheScope : Option String
deriving DecidableEq, Repr

namespace Relation

def isMany (r : Relation) : Bool :=
  r.cardinality == .many

end Relation

namespace Table

def column? (t : Table) (name : String) : Option Column :=
  t.columns.find? (·.name == name)

def relation? (t : Table) (name : String) : Option Relation :=
  t.relations.find? (·.name == name)

/-- The type of the primary key; an integer if there is no such column. -/
def primaryType (t : Table) : ScalarType :=
  ((t.column? t.primaryKey).map (·.type)).getD .int

/-- Whether the field of a system record may still change. -/
def isExempt (t : Table) (field : String) : Bool :=
  t.exemptFields.contains field

end Table

/-- Whether the parent's row holds the foreign key itself. -/
def Relation.isOwning (r : Relation) (parent : Table) : Bool :=
  r.cardinality == .one && r.junction.isNone && r.joinKey != parent.primaryKey

/-- Where the links of a relation are stored: a table with one row per related record, its column that refers to
the parent, and its column that identifies the related record. -/
structure LinkTable where
  table : String
  parentKey : String
  targetKey : String
deriving DecidableEq, Repr

/-- The link table of a relation to `target`: the junction, or the target itself. -/
def Relation.links (r : Relation) (target : Table) : LinkTable :=
  match r.junction with
  | some j => ⟨j.table, j.sourceKey, j.targetKey⟩
  | none => ⟨target.name, r.inverseJoinKey, target.primaryKey⟩

/-- Why tables do not form a catalog. -/
inductive CatalogError where
  | duplicateTable (table : String)
  | noPrimaryKey (table key : String)
  | noSystemFlag (table flag : String)
  | columnAndRelation (table name : String)
  | unknownTarget (table relation target : String)
  | noJoinKey (table relation key : String)
  | noInverseKey (table relation key target : String)
deriving DecidableEq, Repr

def CatalogError.message : CatalogError → String
  | .duplicateTable t => s!"duplicate table '{t}'"
  | .noPrimaryKey t k => s!"table '{t}' has no primary key column '{k}'"
  | .noSystemFlag t f => s!"table '{t}' system flag '{f}' is not a column"
  | .columnAndRelation t n => s!"table '{t}' declares '{n}' as both column and relation"
  | .unknownTarget t r target => s!"relation '{t}.{r}' targets unknown table '{target}'"
  | .noJoinKey t r k => s!"relation '{t}.{r}' join key '{k}' is not a column"
  | .noInverseKey t r k target => s!"relation '{t}.{r}' inverse key '{k}' is not a column of '{target}'"

namespace Catalog

/-- The first table whose name an earlier one has, given the names so far. -/
def repeatedTable? (seen : List String) : List Table → Option String
  | [] => none
  | t :: rest => if seen.contains t.name then some t.name else repeatedTable? (t.name :: seen) rest

/-- The fault of a relation of `t`. -/
def relationFault? (tables : List Table) (t : Table) (r : Relation) : Option CatalogError :=
  if (t.column? r.name).isSome then some (.columnAndRelation t.name r.name)
  else
    match tables.find? (·.name == r.target) with
    | none => some (.unknownTarget t.name r.name r.target)
    | some target =>
      if (t.column? r.joinKey).isNone then some (.noJoinKey t.name r.name r.joinKey)
      else if (target.column? r.inverseJoinKey).isNone then
        some (.noInverseKey t.name r.name r.inverseJoinKey target.name)
      else none

/-- The first fault of a table. -/
def tableFault? (tables : List Table) (t : Table) : Option CatalogError :=
  if (t.column? t.primaryKey).isNone then some (.noPrimaryKey t.name t.primaryKey)
  else
    match t.systemFlag.filter fun flag => (t.column? flag).isNone with
    | some flag => some (.noSystemFlag t.name flag)
    | none => t.relations.findSome? (relationFault? tables t)

/-- The first fault of a list of tables: a repeated name, else a fault within a table. -/
def fault? (tables : List Table) : Option CatalogError :=
  match repeatedTable? [] tables with
  | some name => some (.duplicateTable name)
  | none => tables.findSome? (tableFault? tables)

end Catalog

/-- Tables, in order of declaration, that fit together. -/
structure Catalog where
  tables : List Table
  sound : Catalog.fault? tables = none

namespace Catalog

/-- The catalog of the tables, or their first fault. -/
def ofTables (tables : List Table) : Except CatalogError Catalog :=
  match h : fault? tables with
  | none => .ok ⟨tables, h⟩
  | some e => .error e

def empty : Catalog :=
  ⟨[], rfl⟩

def table? (c : Catalog) (name : String) : Option Table :=
  c.tables.find? (·.name == name)

/-- The table a relation leads to. -/
def target? (c : Catalog) (r : Relation) : Option Table :=
  c.table? r.target

def names (c : Catalog) : List String :=
  c.tables.map (·.name)

end Catalog

/-! ### Building tables -/

namespace Table

/-- A table with an integer key `id` and nothing else. -/
def start (name : String) : Table :=
  ⟨name, "id", [⟨"id", .int, false⟩], [], none, [], none⟩

def addColumn (t : Table) (name : String) (type : ScalarType) (nullable : Bool) : Table :=
  { t with columns := t.columns ++ [⟨name, type, nullable⟩] }

def addRelation (t : Table) (r : Relation) : Table :=
  { t with relations := t.relations ++ [r] }

/-- Marks system records by a column, which is added as a boolean if it is not there. -/
def markSystem (t : Table) (column : String) : Table :=
  let t := if (t.column? column).isNone then t.addColumn column .bool false else t
  { t with systemFlag := some column }

def exempt (t : Table) (fields : List String) : Table :=
  { t with exemptFields := t.exemptFields ++ fields }

end Table

namespace Relation

/-- A relation joined by a foreign key. -/
def direct (name : String) (cardinality : Cardinality) (target joinKey inverseJoinKey : String) : Relation :=
  ⟨name, cardinality, target, joinKey, inverseJoinKey, none⟩

/-- A many-to-many relation between primary keys named `id`. -/
def through (name target junction sourceKey targetKey : String) : Relation :=
  ⟨name, .many, target, "id", "id", some ⟨junction, sourceKey, targetKey⟩⟩

end Relation
end RecordService
