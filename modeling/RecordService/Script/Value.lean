import RecordService.Json.Basic
import RecordService.Text.Visible

/-! # Values of scripts

A script works on values of its own: every integer has 64 bits with a sign, a map has its keys in order, and a
character is not a text. `display` is the text of a value by itself, and `inspect` its text inside an array or a map:
there a text stands in quotes, and a character that is not visible is written by its number. -/

namespace RecordService.Script

inductive Value where
  | unit
  | bool (value : Bool)
  | int (value : Int)
  | float (value : Double)
  | char (value : Char)
  | text (value : String)
  | array (items : List Value)
  | map (entries : List (String × Value))
deriving Repr, Inhabited

namespace Value

/-- Sets the value of a key among entries in order of their keys. -/
def put : List (String × Value) → String → Value → List (String × Value)
  | [], key, value => [(key, value)]
  | (k, v) :: rest, key, value =>
    if key < k then (key, value) :: (k, v) :: rest
    else if k == key then (k, value) :: rest
    else (k, v) :: put rest key value

/-- The map with the entries; of two with the same key the later one counts. -/
def ofEntries (entries : List (String × Value)) : Value :=
  .map (entries.foldl (fun es e => put es e.1 e.2) [])

/-- The value of a key of a map. -/
def get? (entries : List (String × Value)) (key : String) : Option Value :=
  entries.lookup key

/-- The name of the type. -/
def typeName : Value → String
  | unit => "()"
  | bool _ => "bool"
  | int _ => "i64"
  | float _ => "f64"
  | char _ => "char"
  | text _ => "string"
  | array _ => "array"
  | map _ => "map"

/-- The name of the type among the arguments of a call, where a text may be taken in several forms. -/
def argumentName : Value → String
  | text _ => "&str | ImmutableString | String"
  | value => value.typeName

/-! ### Documents -/

/-- An integer beyond 64 bits with a sign becomes a float. -/
def ofNumber (n : Number) : Value :=
  match n.toInt64? with
  | some i => int i
  | none => float n.toDouble

mutual

/-- The document as a script holds it. -/
def ofJson : Json → Value
  | .null => unit
  | .bool b => bool b
  | .num n => ofNumber n
  | .str s => text s
  | .arr items => array (ofItems items)
  | .obj entries => map (ofMembers entries)

def ofItems : List Json → List Value
  | [] => []
  | item :: rest => ofJson item :: ofItems rest

def ofMembers : List (String × Json) → List (String × Value)
  | [] => []
  | (key, value) :: rest => put (ofMembers rest) key (ofJson value)

end

mutual

/-- The value as a document, in which a character is a text. -/
def toJson : Value → Json
  | unit => .null
  | bool b => .bool b
  | int i => .int i
  | float x => .num (.float x)
  | char c => .str c.toString
  | text s => .str s
  | array items => .arr (toItems items)
  | map entries => .obj (toMembers entries)

def toItems : List Value → List Json
  | [] => []
  | item :: rest => toJson item :: toItems rest

def toMembers : List (String × Value) → List (String × Json)
  | [] => []
  | (key, value) :: rest => (key, toJson value) :: toMembers rest

end

/-! ### Texts -/

mutual

/-- The text of a value inside an array or a map. -/
def inspect : Value → String
  | unit => "()"
  | bool b => toString b
  | int i => toString i
  | float x => x.write .nested
  | char c => Text.inspect '\'' c.toString
  | text s => Text.inspect '"' s
  | array items => "[" ++ String.intercalate ", " (inspectItems items) ++ "]"
  | map entries => "#\x7b" ++ String.intercalate ", " (inspectEntries entries) ++ "\x7d"

def inspectItems : List Value → List String
  | [] => []
  | item :: rest => inspect item :: inspectItems rest

def inspectEntries : List (String × Value) → List String
  | [] => []
  | (key, value) :: rest => (Text.inspect '"' key ++ ": " ++ inspect value) :: inspectEntries rest

end

/-- The text of a value by itself. -/
def display : Value → String
  | unit => ""
  | float x => x.display
  | char c => c.toString
  | text s => s
  | value => value.inspect

/-- The integer, when it fits a status. -/
def status? : Value → Option UInt16
  | int (.ofNat n) => if n < UInt16.size then some (.ofNat n) else none
  | _ => none

end Value
end RecordService.Script
