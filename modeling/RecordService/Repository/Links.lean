import RecordService.Repository.Payload

/-! # Replacing links

The links of a relation are replaced by comparing the records that are linked with those that shall be, by identity.
What is too much is detached and what is missing is attached, after the parent and every record concerned have passed
the protection checks; if nothing differs, nothing is done. -/

namespace RecordService

/-- The cells that have an identity not among those of others. -/
def Cell.without (cells others : List Cell) : List Cell :=
  let known := others.map (·.identity)
  cells.filter fun c => !known.contains c.identity

namespace LinkSet

/-- Where the links are stored. -/
def table (l : LinkSet) : LinkTable :=
  l.relation.links l.target

/-- The column of the target by which its links are checked. -/
def checkedColumn (l : LinkSet) : String :=
  match l.relation.junction with
  | some _ => l.relation.inverseJoinKey
  | none => l.target.primaryKey

/-- The changes that detach some records and attach others. -/
def changes (l : LinkSet) (parent : Cell) (detached attached : List Cell) : List Change :=
  match l.relation.junction with
  | some _ =>
    (if detached.isEmpty then [] else [.unlink l.table parent detached]) ++ attached.map (.link l.table parent)
  | none =>
    (if detached.isEmpty then [] else [.release l.table detached]) ++
      (if attached.isEmpty then [] else [.claim l.table parent attached])

/-- The keys of the records that the parent is linked to. -/
def current (l : LinkSet) (parent : Cell) : Operation (List Cell) := do
  let rows ← Operation.query (.links l.table parent)
  return (rows.cells.filterMap List.head?).filter (!·.isNull)

/-- Makes changes one after the other. -/
def perform : List Change → Operation Unit
  | [] => return ()
  | c :: rest => do
    let _ ← Operation.change c
    perform rest

/-- Links the record of a row to exactly the records of the set. -/
def apply (l : LinkSet) (owner : Table) (row : Row) : Operation Unit := do
  let parent := row.cell l.relation.joinKey
  if parent.isNull then throw (.argument (.noJoinValue owner.name l.relation.joinKey))
  let current ← l.current parent
  let attached := Cell.without l.ids current
  let detached := Cell.without current l.ids
  if attached.isEmpty && detached.isEmpty then return ()
  if owner.isSystem row && !owner.isExempt l.relation.name then
    throw (.protection (.field owner.name (row.cell owner.primaryKey).keyText l.relation.name))
  l.target.checkLinks l.checkedColumn l.relation.name .detach detached
  l.target.checkLinks l.checkedColumn l.relation.name .attach attached
  perform (l.changes parent detached attached)

/-- Applies link sets in order. -/
def applyAll (owner : Table) (row : Row) : List LinkSet → Operation Unit
  | [] => return ()
  | l :: rest => do
    l.apply owner row
    applyAll owner row rest

end LinkSet
end RecordService
