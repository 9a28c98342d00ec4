import RecordService.Record.Find
import RecordService.Repository.Links

/-! # Repositories

The records of one table: found, created, updated and deleted by requests in documents. The table is looked up in
the catalog as it stands at each call. Everything that writes runs in one transaction; after its commit the scope of
the table is made stale and the record is read again. -/

namespace RecordService

structure Repository where
  table : String
  options : CompileOptions
  /-- Whether there is a cache to be told of changes. -/
  cached : Bool
deriving DecidableEq, Repr

namespace Repository

/-- The catalog and the table in it. -/
def lookUp (r : Repository) : Operation (Catalog × Table) := do
  let catalog ← Operation.ask .catalog
  match catalog.table? r.table with
  | some table => return (catalog, table)
  | none => throw (.compile (.unknownTable r.table))

/-- The plan of a find. -/
def planIn (r : Repository) (catalog : Catalog) (request : FindRequest) : Operation FindPlan :=
  Operation.ofExcept ((FindPlan.compile catalog r.table request r.options).mapError .compile)

def explain (r : Repository) (request : FindRequest) : Operation FindPlan := do
  let catalog ← Operation.ask .catalog
  r.planIn catalog request

def find (r : Repository) (request : FindRequest) : Operation FindResult := do
  let plan ← r.explain request
  plan.run

/-- The request for the record with a key. -/
def keyRequest (table : Table) (id : Json) : FindRequest :=
  { FindRequest.all with filter := .obj [(table.primaryKey, .obj [("eq", id)])], limit := some 1 }

/-- The record with a key, with every column and the keys of every relation. -/
def findOne (r : Repository) (id : Json) : Operation (Option Json) := do
  let (catalog, table) ← r.lookUp
  let plan ← r.planIn catalog (keyRequest table id)
  let result ← plan.run
  return (result.data.head?).map .obj

/-- The row of a record. -/
def loadRow? (table : Table) (key : Cell) : Operation (Option Row) := do
  let rows ← Operation.query (.record table.name table.primaryKey key)
  return (rows.cells.head?).map rows.columns.zip

/-- The row of a record that has to be there. -/
def loadRow (table : Table) (key : Cell) : Operation Row := do
  match ← loadRow? table key with
  | some row => return row
  | none => throw (.notFound table.name key.keyText)

/-- Makes the scope of the table stale. -/
def invalidate (r : Repository) (table : Table) : Operation Unit :=
  match r.cached, table.cacheScope with
  | true, some scope => Operation.ask (.invalidate scope)
  | _, _ => return ()

/-- The cell as a list, without null. -/
def nonNull (c : Cell) : List Cell :=
  if c.isNull then [] else [c]

/-- Refuses to attach system records through foreign keys. -/
def checkAttached : List ForeignKey → Operation Unit
  | [] => return ()
  | fk :: rest => do
    fk.target.checkLinks fk.relation.inverseJoinKey fk.relation.name .attach (nonNull fk.value)
    checkAttached rest

/-- Refuses to detach or attach system records through the foreign keys that change. -/
def checkReplaced (stored : Row) : List ForeignKey → Operation Unit
  | [] => return ()
  | fk :: rest => do
    let old := stored.cell fk.relation.joinKey
    if !old.sameValue fk.value fk.target.primaryType then
      fk.target.checkLinks fk.relation.inverseJoinKey fk.relation.name .detach (nonNull old)
      fk.target.checkLinks fk.relation.inverseJoinKey fk.relation.name .attach (nonNull fk.value)
    checkReplaced stored rest

/-- The key that a row gives for itself. -/
def givenKey? (table : Table) (row : Row) : Option Cell :=
  (row.find? fun (name, value) => name == table.primaryKey && !value.isNull).map (·.2)

/-- The key of a new record: the one its row gives, else the one that the store made up. -/
def newKey (table : Table) (row : Row) (outcome : Outcome) : Operation Cell :=
  match givenKey? table row, outcome.lastId with
  | some key, _ => return key
  | none, some id => return .int id
  | none, none => throw (.argument .noKeyProduced)

/-- Inserts a record, and gives its key. -/
def insert (table : Table) (changes : Changes) : Operation Cell := do
  checkAttached changes.foreignKeys
  let row := changes.assignments
  let outcome ← Operation.change (.insert table.name row)
  let key ← newKey table row outcome
  if !changes.links.isEmpty then
    let stored ← loadRow table key
    LinkSet.applyAll table stored changes.links
  return key

/-- Creates a record and reads it. -/
def create (r : Repository) (payload : Json) : Operation Json := do
  let (catalog, table) ← r.lookUp
  let changes ← Operation.ofExcept (Changes.ofPayload catalog table r.options.pathPolicy true payload)
  Operation.ofExcept (table.checkCreate changes.columns)
  if (givenKey? table changes.columns).isNone && table.primaryType != .int then
    throw (.argument (.keyNeeded table.name table.primaryKey))
  let key ← Operation.transaction (insert table changes)
  r.invalidate table
  let id := key.toJson (some table.primaryType)
  match ← r.findOne id with
  | some record => return record
  | none => throw (.notFound table.name id.compact)

/-- Writes the changes of a record. -/
def amend (table : Table) (changes : Changes) (key : Cell) : Operation Unit := do
  let stored ← loadRow table key
  let row := changes.assignments
  Operation.ofExcept (table.checkUpdate key.keyText stored row)
  checkReplaced stored changes.foreignKeys
  LinkSet.applyAll table stored changes.links
  if !row.isEmpty then
    let _ ← Operation.change (.update table.name row table.primaryKey key)

/-- Changes a record and reads it again. -/
def update (r : Repository) (id payload : Json) : Operation Json := do
  let (catalog, table) ← r.lookUp
  let changes ← Operation.ofExcept (Changes.ofPayload catalog table r.options.pathPolicy false payload)
  let key := Cell.coerce id table.primaryType
  Operation.transaction (amend table changes key)
  r.invalidate table
  match ← r.findOne id with
  | some record => return record
  | none => throw (.notFound table.name key.keyText)

/-- Deletes the link rows of a record in the junctions of its table. -/
def deleteLinks (stored : Row) : List Relation → Operation Unit
  | [] => return ()
  | r :: rest => do
    match r.junction with
    | some j =>
      let _ ← Operation.change (.delete j.table j.sourceKey (stored.cell r.joinKey))
    | none => pure ()
    deleteLinks stored rest

/-- Removes a record and its links. -/
def remove (table : Table) (key : Cell) : Operation Unit := do
  let stored ← loadRow table key
  if table.isSystem stored then throw (.protection (.delete table.name key.keyText))
  deleteLinks stored table.relations
  let _ ← Operation.change (.delete table.name table.primaryKey key)

/-- Deletes a record. -/
def delete (r : Repository) (id : Json) : Operation Unit := do
  let (_, table) ← r.lookUp
  let key := Cell.coerce id table.primaryType
  Operation.transaction (remove table key)
  r.invalidate table

end Repository

/-- What the repositories of a service have in common. -/
structure Registry where
  options : CompileOptions
  cached : Bool
deriving DecidableEq, Repr

/-- The repository of a table that the catalog has. -/
def Registry.repository (g : Registry) (table : String) : Operation Repository := do
  let r : Repository := ⟨table, g.options, g.cached⟩
  let _ ← r.lookUp
  return r

end RecordService
