import RecordService.Json.Basic
import RecordService.Plan.Projection

/-! # Hydration

Flat rows are put together to nested records. Rows are taken one by one: a row opens a record unless one with the
same key is open, and below it opens a related record for every relation whose key it holds and that is not open.
Keys are told apart by identity, and a record keeps the cells of the row that opened it. -/

namespace RecordService

/-- A record being put together: its cells, and for each relation of its shape the related records by key. -/
inductive Partial where
  | mk (cells : List Cell) (children : List (List (String × Partial)))

/-- Records being put together, by key, in the order in which they were opened. -/
abbrev PartialSet := List (String × Partial)

namespace Partial

/-- The cell of a row; null where the row is too short. -/
def cellAt (row : List Cell) (slot : Nat) : Cell :=
  (row[slot]?).getD .null

/-- A record opened by a row. -/
def start (row : List Cell) (s : Shape) : Partial :=
  mk (s.fields.map fun f => cellAt row f.slot) (s.relations.map fun _ => [])

/-- Changes the record with the key, which is opened by the row if it is not there. -/
def update (key : String) (fresh : Partial) (change : Partial → Partial) : PartialSet → PartialSet
  | [] => [(key, change fresh)]
  | (k, p) :: rest => if k == key then (k, change p) :: rest else (k, p) :: update key fresh change rest

mutual

/-- Adds what a row holds below a record. -/
def merge (row : List Cell) : Shape → Partial → Partial
  | ⟨_, _, _, relations⟩, mk cells children => mk cells (mergeAll row relations children)

/-- Adds what a row holds below a record to the sets of its relations. -/
def mergeAll (row : List Cell) : List (Branch Shape) → List PartialSet → List PartialSet
  | [], _ => []
  | b :: rest, children => mergeBranch row b (children.headD []) :: mergeAll row rest children.tail

/-- Adds the related record that a row holds, if it holds one. -/
def mergeBranch (row : List Cell) : Branch Shape → PartialSet → PartialSet
  | ⟨_, _, shape⟩, set =>
    let key := cellAt row shape.keySlot
    if key.isNull then set else update key.identity (start row shape) (fun p => merge row shape p) set

end

/-- The fields of a record, each read by the type of its column. -/
def fields (columns : List SelectColumn) (slots : List FieldSlot) (cells : List Cell) : Entries :=
  (slots.zip cells).map fun (f, c) => (f.name, c.toJson ((columns[f.slot]?).map (·.type)))

mutual

/-- The record as an object: its fields, then its relations. A relation stands in place of a field of its name. -/
def record (columns : List SelectColumn) : Shape → Partial → Entries
  | ⟨_, _, slots, relations⟩, mk cells children =>
    Entries.putAll (fields columns slots cells) (recordAll columns relations children)

/-- The relations of a record. -/
def recordAll (columns : List SelectColumn) : List (Branch Shape) → List PartialSet → Entries
  | [], _ => []
  | b :: rest, children => recordBranch columns b (children.headD []) :: recordAll columns rest children.tail

/-- A relation of a record: an array of objects, or an object or null. -/
def recordBranch (columns : List SelectColumn) : Branch Shape → PartialSet → String × Json
  | ⟨name, many, shape⟩, set =>
    let objects := set.map fun p => Json.obj (record columns shape p.2)
    (name, if many then .arr objects else objects.head?.getD .null)

end
end Partial

namespace Projection

/-- The records of the root, by key, that rows have opened. A row too short for the root's key is ignored. -/
def openAll (s : Shape) : List (List Cell) → PartialSet → PartialSet
  | [], set => set
  | row :: rest, set =>
    match row[s.keySlot]? with
    | none => openAll s rest set
    | some key => openAll s rest (Partial.update key.identity (.start row s) (Partial.merge row s) set)

/-- The records of rows, in the order of their first rows. -/
def hydrate (p : Projection) (rows : List (List Cell)) : List Entries :=
  (openAll p.shape rows []).map fun (_, part) => part.record p.columns p.shape

end Projection

/-! ### Collapsing

A related record that has nothing but its key is replaced by the key, on the first level of a record. -/

/-- The only value of an object that holds a key and nothing else; any other document is kept. -/
def Json.collapse (key : String) : Json → Json
  | .obj [(k, v)] => if k == key then v else .obj [(k, v)]
  | value => value

/-- Collapses a relation's records: each of an array, or the one. -/
def Json.collapseAll (key : String) : Json → Json
  | .arr items => .arr (items.map (Json.collapse key))
  | value => value.collapse key

namespace Entries

/-- Changes the value of the first entry with the key. -/
def modify (es : Entries) (key : String) (change : Json → Json) : Entries :=
  match es with
  | [] => []
  | (k, v) :: rest => if k == key then (k, change v) :: rest else (k, v) :: modify rest key change

end Entries

namespace Projection

/-- The relations on the first level, each with the key of its records. -/
def topRelations (p : Projection) : List (String × String) :=
  p.shape.relations.map (fun b => (b.name, b.shape.keyName)) ++
    (p.deferred.filter (·.parentChain.isEmpty)).map fun l => (l.name, l.targetKey)

def collapse (p : Projection) (record : Entries) : Entries :=
  p.topRelations.foldl (fun es (name, key) => Entries.modify es name (Json.collapseAll key)) record

end Projection
end RecordService
