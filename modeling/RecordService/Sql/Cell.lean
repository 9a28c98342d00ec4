import RecordService.Catalog.Basic
import RecordService.Double.Reader
import RecordService.Json.Printer
import RecordService.Json.Reader
import RecordService.Text.Base64
import RecordService.Text.Blank

/-! # Cells

A cell is what a statement binds and what a row holds. `coerce` turns a document into the cell of a column,
`toJson` turns it back, and `identity` is the text by which cells are told apart when rows are grouped. -/

namespace RecordService

inductive Cell where
  | null
  | bool (value : Bool)
  | int (value : Int)
  | float (value : Double)
  | text (value : String)
  | bytes (value : List UInt8)
deriving DecidableEq, Repr, Inhabited

namespace Cell

def isNull : Cell → Bool
  | null => true
  | _ => false

/-- A signed 64-bit integer: an optional sign and at least one digit. -/
def readInt64? (cs : List Char) : Option Int :=
  let (negative, digits) := Double.takeSign cs
  if digits.isEmpty || !digits.all Char.isDigit then none
  else
    let n : Int := Double.digitsValue digits
    let i := if negative then -n else n
    if fitsInt64 i then some i else none

/-- A number spelled as text: an integer if it fits, else a finite double. -/
def readNumber? (cs : List Char) : Option Cell :=
  match readInt64? cs with
  | some i => some (int i)
  | none => ((Double.ofText? cs).filter (·.isFinite)).map float

/-- The spellings of a truth value. -/
def readFlag? : Json → Option Bool
  | .bool b => some b
  | .num n =>
    match n.toInt64? with
    | some 0 => some false
    | some 1 => some true
    | _ => none
  | .str s =>
    let word := String.ofList ((Text.trim s.toList).map Char.toLower)
    if word == "true" || word == "1" then some true
    else if word == "false" || word == "0" then some false
    else none
  | _ => none

/-- The cell of a document without regard to a column. Arrays and objects become text. -/
def ofJson : Json → Cell
  | .null => null
  | .bool b => bool b
  | .num n =>
    match n.toInt64? with
    | some i => int i
    | none => float n.toDouble
  | .str s => text s
  | d => text d.compact

/-- The cell of a document in a column of the type. Numeric columns take numbers spelled as text, boolean columns
take the spellings of truth values, all other columns store text. A boolean stays one in every column. -/
def coerce (d : Json) (type : ScalarType) : Cell :=
  match d with
  | .null => null
  | .bool b => bool b
  | .num n =>
    match type with
    | .int | .float => ofJson d
    | .bool => ((readFlag? d).map bool).getD (ofJson d)
    | _ => text n.text
  | .str s =>
    match type with
    | .int | .float => (readNumber? (Text.trim s.toList)).getD (text s)
    | .bool => ((readFlag? d).map bool).getD (ofJson d)
    | _ => text s
  | d => text d.compact

/-- The document of a cell, read by the type of its column if there is one. -/
def toJson (c : Cell) (type : Option ScalarType) : Json :=
  match c with
  | null => .null
  | bool b => .bool b
  | int i => if type = some .bool then .bool (i != 0) else .int i
  | float x => if x.isFinite then .num (.float x) else .null
  | text s =>
    match type with
    | some .json => (Json.read? s).getD (.str s)
    | some .bool =>
      if s == "1" || s == "true" then .bool true
      else if s == "0" || s == "false" then .bool false
      else .str s
    | _ => .str s
  | bytes b => .str (Text.Base64.encode b)

/-- The text by which cells are told apart. A truth value counts as the integer it is stored as. -/
def identity : Cell → String
  | null => "n"
  | bool b => if b then "i:1" else "i:0"
  | int i => "i:" ++ toString i
  | float x => "f:" ++ x.write .plain
  | text s => "s:" ++ s
  | bytes b => "b:[" ++ String.intercalate ", " (b.map fun x => toString x.toNat) ++ "]"

end Cell

/-- Whether an operand such as that of `is_null` counts as set. -/
def Json.truthy : Json → Bool
  | .null => false
  | .bool b => b
  | .num n => !n.toDouble.isZero
  | .str s => !(s.isEmpty || s == "false" || s == "0")
  | _ => true

end RecordService
