import RecordService.Json.Basic

/-! # Reading records from documents

A record may be written as an object, by name, or as an array, by position. Unknown names are ignored; a known name
that stands twice and an array that is too long are refused. A reader of a field is a function to `Option`. -/

namespace RecordService.Json

/-- The known members of a record-shaped document, by name. -/
def members? (names : List String) : Json → Option Entries
  | .obj entries => if names.all (Entries.occurrences entries · ≤ 1) then some entries else none
  | .arr items => if items.length ≤ names.length then some (names.zip items) else none
  | _ => none

/-- A member that has to be there. -/
def field? {α : Type} (members : Entries) (name : String) (read : Json → Option α) : Option α :=
  (Entries.get? members name).bind read

/-- A member that may be left out. -/
def fieldOr? {α : Type} (members : Entries) (name : String) (default : α) (read : Json → Option α) : Option α :=
  match Entries.get? members name with
  | some value => read value
  | none => some default

/-- A text. -/
def text? : Json → Option String
  | .str s => some s
  | _ => none

/-- A truth value. -/
def flag? : Json → Option Bool
  | .bool b => some b
  | _ => none

/-- An integer of 64 bits. -/
def int64? : Json → Option Int
  | .num n => n.toInt64?
  | _ => none

/-- A count below `bound`. -/
def countBelow? (bound : Nat) : Json → Option Nat
  | .num n => n.toCount? bound
  | _ => none

/-- A count of 64 bits. -/
def count? : Json → Option Nat :=
  countBelow? UInt64.size

/-- An array of things. -/
def list? {α : Type} (read : Json → Option α) : Json → Option (List α)
  | .arr items => items.mapM read
  | _ => none

/-- Nothing for `null`, else a thing. -/
def optional? {α : Type} (read : Json → Option α) : Json → Option (Option α)
  | .null => some none
  | value => (read value).map some

/-- Any document. -/
def document? (value : Json) : Option Json :=
  some value.settle

/-- One of a few names, as a text or as the only key of an object that maps it to `null`. -/
def choice? {α : Type} (names : List (String × α)) : Json → Option α
  | .str s => names.lookup s
  | .obj [(s, .null)] => names.lookup s
  | _ => none

/-- A text, or `null`, as a document. -/
def ofText? : Option String → Json
  | some s => .str s
  | none => .null

/-- A list of texts as a document. -/
def ofTexts (texts : List String) : Json :=
  .arr (texts.map .str)

end RecordService.Json
