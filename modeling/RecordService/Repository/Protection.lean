import RecordService.Store.Program

/-! # Protection of system records

A table may have a column that marks system records. Such a record cannot be deleted, keeps the values of all fields
that are not exempt, and is neither attached to nor detached from other records; no record is created with the mark
set. -/

namespace RecordService

/-- Cells by column name. -/
abbrev Row := List (String × Cell)

/-- The cell of a column; null if the row does not have it. -/
def Row.cell (row : Row) (column : String) : Cell :=
  (row.lookup column).getD .null

namespace Cell

/-- Whether a stored mark is set. -/
def isSet : Cell → Bool
  | bool b => b
  | int i => i != 0
  | float x => !x.isZero
  | text s => s == "1" || s == "true" || s == "TRUE" || s == "True"
  | null => false
  | bytes _ => false

/-- Whether two cells stand for the same value of a column, whatever form a store gives them. -/
def sameValue (stored incoming : Cell) (type : ScalarType) : Bool :=
  if type == .bool && !stored.isNull && !incoming.isNull then stored.isSet == incoming.isSet
  else
    match stored, incoming with
    | int a, float b | float b, int a => (Double.ofInt a).sameNumber b
    | bool a, int b | int b, bool a => (if a then 1 else 0) == b
    | text a, int b | int b, text a => Text.trim a.toList == (toString b).toList
    | float a, float b => a.sameNumber b
    | a, b => a == b

/-- A key as it stands in a message. -/
def keyText : Cell → String
  | text s => s
  | c => (c.toJson Option.none).compact

end Cell

namespace Table

/-- Whether a row is that of a system record. -/
def isSystem (t : Table) (row : Row) : Bool :=
  match t.systemFlag with
  | none => false
  | some flag => row.any fun (name, value) => name == flag && value.isSet

/-- Refuses to create a record that is marked. -/
def checkCreate (t : Table) (values : Row) : Except Error Unit :=
  if t.isSystem values then .error (.protection (.create t.name)) else .ok ()

/-- The first column of the changes that a system record may not change. -/
def changedField? (t : Table) (stored changes : Row) : Option String :=
  (changes.find? fun (field, incoming) =>
    let type := ((t.column? field).map (·.type)).getD .text
    !t.isExempt field && !((stored.lookup field).any (·.sameValue incoming type))).map (·.1)

/-- Refuses to change a field of a system record that is not exempt. -/
def checkUpdate (t : Table) (id : String) (stored changes : Row) : Except Error Unit :=
  if t.isSystem stored then
    match t.changedField? stored changes with
    | some field => .error (.protection (.field t.name id field))
    | none => .ok ()
  else .ok ()

/-- Refuses to attach or detach system records of the table, which are looked up by the values of a column. -/
def checkLinks (t : Table) (column relation : String) (action : LinkAction) (ids : List Cell) : Operation Unit :=
  match t.systemFlag with
  | none => return ()
  | some flag =>
    if ids.isEmpty then return ()
    else do
      let rows ← Operation.query (.flagged t.name column flag ids)
      if rows.cells.isEmpty then return ()
      else
        let found := (rows.cells.filterMap List.head?).map fun id => (id.toJson none).compact
        throw (.protection (.relation t.name relation action (String.intercalate ", " found)))

end Table
end RecordService
