import RecordService.Repository.Protection

/-! # Payloads

A payload names columns and relations of a table. Columns take their values as they are; a relation whose foreign
key the record itself holds sets that key (`ForeignKey`); every other relation is to be linked to exactly the records
that the payload lists (`LinkSet`). -/

namespace RecordService

/-- A relation whose key stands in the record itself. -/
structure ForeignKey where
  relation : Relation
  target : Table
  value : Cell
deriving Repr

/-- A relation to be linked to exactly these records. -/
structure LinkSet where
  relation : Relation
  target : Table
  ids : List Cell
deriving Repr

structure Changes where
  columns : Row
  foreignKeys : List ForeignKey
  links : List LinkSet
deriving Repr

namespace Changes

def empty : Changes := ⟨[], [], []⟩

/-- All columns that are written: those of the payload, then the foreign keys. -/
def assignments (c : Changes) : Row :=
  c.columns ++ c.foreignKeys.map fun fk => (fk.relation.joinKey, fk.value)

end Changes

/-- The key of one related record: the key itself, or an object that has it. -/
def relatedId (field : String) (target : Table) : Json → Except Error Cell
  | .obj entries =>
    match Entries.get? entries target.primaryKey with
    | some id => .ok (.coerce id target.primaryType)
    | none => .error (.argument (.relatedKeyNeeded field target.primaryKey))
  | .arr _ => .error (.argument (.singleRelated field))
  | scalar => .ok (.coerce scalar target.primaryType)

/-- The distinct keys of related records: a list, one, or `null` for none. -/
def relatedIds (field : String) (target : Table) (value : Json) : Except Error (List Cell) := do
  let items := match value with
    | .arr items => items
    | .null => []
    | single => [single]
  let ids ← items.mapM (relatedId field target)
  return Operand.distinct [] (ids.filter (!·.isNull))

namespace Changes

/-- Adds what a payload says of a relation. -/
def addRelation (c : Changes) (table : Table) (r : Relation) (target : Table) (value : Json) : Except Error Changes :=
  if r.isOwning table then do
    let id ← relatedId r.name target value
    return { c with foreignKeys := c.foreignKeys ++ [⟨r, target, id⟩] }
  else do
    let ids ← relatedIds r.name target value
    return { c with links := c.links ++ [⟨r, target, ids⟩] }

/-- Adds an entry of a payload. The primary key of a record that is there already is left alone; a name that the
table does not know is dropped or refused, as the options say. -/
def addEntry (catalog : Catalog) (table : Table) (policy : PathPolicy) (creating : Bool) (c : Changes)
    (entry : String × Json) : Except Error Changes :=
  let (key, value) := entry
  match table.column? key with
  | some column =>
    if !creating && key == table.primaryKey then .ok c
    else .ok { c with columns := c.columns ++ [(column.name, .coerce value column.type)] }
  | none =>
    match table.relation? key with
    | none =>
      match policy with
      | .strict => .error (.argument (.unknownField table.name key))
      | .lenient => .ok c
    | some r =>
      match catalog.target? r with
      | none => .error (.compile (.unknownTable r.target))
      | some target => c.addRelation table r target value

/-- The changes that a payload asks for. -/
def ofPayload (catalog : Catalog) (table : Table) (policy : PathPolicy) (creating : Bool) :
    Json → Except Error Changes
  | .obj entries => entries.foldlM (addEntry catalog table policy creating) empty
  | _ => .error (.argument .payloadShape)

end Changes
end RecordService
