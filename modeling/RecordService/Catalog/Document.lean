import RecordService.Error
import RecordService.Json.Fields
import RecordService.Json.Reader

/-! # Catalog documents

A catalog as a document `tables: [...]`, and a table written back as one. Optional members that say nothing are
left out when writing. -/

namespace RecordService

namespace ScalarType

/-- The names of the types; a timestamp has two. -/
def names : List (String × ScalarType) :=
  [("int", int), ("float", float), ("bool", bool), ("text", text), ("date", date), ("datetime", dateTime),
   ("json", json), ("uuid", uuid), ("timestamp", dateTime)]

def name : ScalarType → String
  | int => "int"
  | float => "float"
  | bool => "bool"
  | text => "text"
  | date => "date"
  | dateTime => "datetime"
  | json => "json"
  | uuid => "uuid"

/-- The type a document names. -/
def ofJson? : Json → Option ScalarType :=
  Json.choice? names

end ScalarType

namespace Column

def ofJson? (d : Json) : Option Column := do
  let m ← d.members? ["name", "type", "nullable"]
  return {
    name := ← Json.field? m "name" Json.text?
    type := ← Json.field? m "type" ScalarType.ofJson?
    nullable := ← Json.fieldOr? m "nullable" false Json.flag? }

def toJson (c : Column) : Json :=
  .obj [("name", .str c.name), ("type", .str c.type.name), ("nullable", .bool c.nullable)]

end Column

namespace Junction

def ofJson? (d : Json) : Option Junction := do
  let m ← d.members? ["table", "sourceKey", "targetKey"]
  return {
    table := ← Json.field? m "table" Json.text?
    sourceKey := ← Json.field? m "sourceKey" Json.text?
    targetKey := ← Json.field? m "targetKey" Json.text? }

def toJson (j : Junction) : Json :=
  .obj [("table", .str j.table), ("sourceKey", .str j.sourceKey), ("targetKey", .str j.targetKey)]

end Junction

namespace Cardinality

def ofJson? : Json → Option Cardinality :=
  Json.choice? [("one", one), ("many", many)]

def name : Cardinality → String
  | one => "one"
  | many => "many"

end Cardinality

namespace Relation

def ofJson? (d : Json) : Option Relation := do
  let m ← d.members? ["name", "cardinality", "targetTable", "joinKey", "inverseJoinKey", "junction"]
  return {
    name := ← Json.field? m "name" Json.text?
    cardinality := ← Json.field? m "cardinality" Cardinality.ofJson?
    target := ← Json.field? m "targetTable" Json.text?
    joinKey := ← Json.field? m "joinKey" Json.text?
    inverseJoinKey := ← Json.field? m "inverseJoinKey" Json.text?
    junction := ← Json.fieldOr? m "junction" none (Json.optional? Junction.ofJson?) }

def toJson (r : Relation) : Json :=
  .obj ([("name", .str r.name), ("cardinality", .str r.cardinality.name), ("targetTable", .str r.target),
         ("joinKey", .str r.joinKey), ("inverseJoinKey", .str r.inverseJoinKey)] ++
        match r.junction with
        | some j => [("junction", j.toJson)]
        | none => [])

end Relation

namespace Table

def ofJson? (d : Json) : Option Table := do
  let m ← d.members?
    ["name", "primaryKey", "columns", "relations", "systemFlag", "exemptFields", "cacheScope"]
  return {
    name := ← Json.field? m "name" Json.text?
    primaryKey := ← Json.fieldOr? m "primaryKey" "id" Json.text?
    columns := ← Json.field? m "columns" (Json.list? Column.ofJson?)
    relations := ← Json.fieldOr? m "relations" [] (Json.list? Relation.ofJson?)
    systemFlag := ← Json.fieldOr? m "systemFlag" none (Json.optional? Json.text?)
    exemptFields := ← Json.fieldOr? m "exemptFields" [] (Json.list? Json.text?)
    cacheScope := ← Json.fieldOr? m "cacheScope" none (Json.optional? Json.text?) }

/-- A member that is written only when there is something to say. -/
def optionalMember (name : String) : Option String → Entries
  | some s => [(name, .str s)]
  | none => []

def toJson (t : Table) : Json :=
  .obj ([("name", .str t.name), ("primaryKey", .str t.primaryKey), ("columns", .arr (t.columns.map (·.toJson))),
         ("relations", .arr (t.relations.map (·.toJson)))] ++
        optionalMember "systemFlag" t.systemFlag ++
        (if t.exemptFields.isEmpty then [] else [("exemptFields", Json.ofTexts t.exemptFields)]) ++
        optionalMember "cacheScope" t.cacheScope)

end Table

namespace Catalog

/-- The tables of a catalog document. -/
def tablesOf? (d : Json) : Option (List Table) := do
  let m ← d.members? ["tables"]
  Json.field? m "tables" (Json.list? Table.ofJson?)

/-- The catalog of a document. -/
def ofJson (d : Json) : Except Error Catalog :=
  match tablesOf? d with
  | none => .error .document
  | some tables => (ofTables tables).mapError .catalog

/-- The catalog of a text. No member of a catalog is a number, so what cannot be read is only let pass where nothing is
known by that name. -/
def ofText (text : String) : Except Error Catalog :=
  match Json.readLoosely? text with
  | none => .error .document
  | some d => ofJson d

end Catalog
end RecordService
