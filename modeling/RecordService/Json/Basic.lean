import RecordService.Double.Text

/-! # Documents

The values that requests, payloads, records and scripts are made of. An object is the list of its entries in order;
the order is kept everywhere except inside scripts, where keys are sorted. `settle` gives the reading in which a
repeated key keeps its first place and its last value. -/

namespace RecordService

/-- A number of a document: an integer from `-2^63` to `2^64 - 1`, or a double. -/
inductive Number where
  | int (value : Int)
  | float (value : Double)
deriving DecidableEq, Repr

inductive Json where
  | null
  | bool (value : Bool)
  | num (value : Number)
  | str (text : String)
  | arr (items : List Json)
  | obj (entries : List (String × Json))
deriving Repr, Inhabited

/-- The entries of an object, in order. -/
abbrev Entries := List (String × Json)

namespace Number

/-- The integer, when it fits a signed 64-bit integer. -/
def toInt64? : Number → Option Int
  | .int i => if fitsInt64 i then some i else none
  | .float _ => none

/-- The integer, when it is a count below `bound`. -/
def toCount? (bound : Nat) : Number → Option Nat
  | .int (.ofNat n) => if n < bound then some n else none
  | _ => none

/-- The nearest double. -/
def toDouble : Number → Double
  | .int i => .ofInt i
  | .float x => x

/-- The number as it stands in a document. -/
def text : Number → String
  | .int i => toString i
  | .float x => x.write .document

end Number

/-- An integer as a document. -/
def Json.int (i : Int) : Json :=
  .num (.int i)

namespace Entries

/-- The value of the first entry with the key. -/
def get? (es : Entries) (key : String) : Option Json :=
  (es.find? (·.1 == key)).map (·.2)

/-- Sets the value of a key: in place when the key is there, else at the end. -/
def put : Entries → String → Json → Entries
  | [], key, value => [(key, value)]
  | (k, v) :: rest, key, value => if k == key then (k, value) :: rest else (k, v) :: put rest key value

/-- Sets the values of several keys, one after the other. -/
def putAll (es new : Entries) : Entries :=
  new.foldl (fun es e => put es e.1 e.2) es

/-- How often the key occurs. -/
def occurrences (es : Entries) (key : String) : Nat :=
  es.countP (·.1 == key)

end Entries

namespace Json

mutual

/-- Each object with its repeated keys merged: a key keeps its first place and its last value. -/
def settle : Json → Json
  | .arr items => .arr (settleItems items)
  | .obj entries => .obj (Entries.putAll [] (settleEntries entries))
  | value => value

def settleItems : List Json → List Json
  | [] => []
  | item :: rest => settle item :: settleItems rest

def settleEntries : List (String × Json) → List (String × Json)
  | [] => []
  | (key, value) :: rest => (key, settle value) :: settleEntries rest

end

end Json
end RecordService
