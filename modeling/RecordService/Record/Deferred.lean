import RecordService.Record.Hydration
import RecordService.Record.Nested
import RecordService.Store.Program

/-! # Deferred links

The keys of a deferred relation are loaded for all parents together, at most `linkChunk` parent keys in one query,
and every parent gets the related records that have its own key. -/

namespace RecordService

/-- The most parent keys of one query. -/
def linkChunk : Nat := 500

/-- A list cut into pieces of a length, which counts as one if it is zero. -/
def chunks {α : Type} (size : Nat) : List α → List (List α)
  | [] => []
  | x :: rest => (x :: rest.take (size - 1)) :: chunks size (rest.drop (size - 1))
termination_by items => items.length
decreasing_by simp only [List.length_drop, List.length_cons]; omega

namespace DeferredLink

/-- The key by which a parent's links are found; null if the parent does not have the field. -/
def parentKey (l : DeferredLink) (parent : Entries) : Cell :=
  ((Entries.get? parent l.parentField).map (Cell.coerce · l.parentType)).getD .null

/-- The distinct keys of parents, in order. -/
def parentKeys (l : DeferredLink) (parents : List Entries) : List Cell :=
  Operand.distinct [] ((parents.map l.parentKey).filter (!·.isNull))

/-- The related record of a link row with the identity of its parent. -/
def related? (l : DeferredLink) : List Cell → Option (String × Json)
  | parent :: target :: _ =>
    if target.isNull then none
    else some (parent.identity, .obj [(l.targetKey, target.toJson (some l.targetType))])
  | _ => none

/-- Gives a parent its related records. -/
def attach (l : DeferredLink) (related : List (String × Json)) (parent : Entries) : Entries :=
  let key := (l.parentKey parent).identity
  Entries.put parent l.name (.arr ((related.filter (·.1 == key)).map (·.2)))

/-- Loads the link rows of some parent keys, chunk by chunk. -/
def loadAll (l : DeferredLink) : List (List Cell) → Operation (List (String × Json))
  | [] => return []
  | keys :: rest => do
    let rows ← Operation.query (.deferred l keys)
    let more ← loadAll l rest
    return rows.cells.filterMap l.related? ++ more

/-- Loads the relation for all records. -/
def load (l : DeferredLink) (records : List Entries) : Operation (List Entries) := do
  let parents := records.flatMap fun r => Json.objectsAt l.parentChain (.obj r)
  let related ← l.loadAll (chunks linkChunk (l.parentKeys parents))
  return records.map fun r =>
    match Json.modifyAt (l.attach related) l.parentChain (.obj r) with
    | .obj entries => entries
    | _ => r

end DeferredLink

namespace Projection

/-- Loads the deferred relations in their order. -/
def loadDeferred : List DeferredLink → List Entries → Operation (List Entries)
  | [], records => return records
  | l :: rest, records => do
    let records ← l.load records
    loadDeferred rest records

end Projection
end RecordService
