import RecordService.Script.Value

/-! # Faults of scripts

A script fails at a name that stands for nothing, at a function that is not there, and at a step into a value that has
no such part. A fault is thrown like a value: the script may catch it as a map that says what is wrong. -/

namespace RecordService.Script

inductive Fault where
  | unknownName (name : String)
  /-- No function of the name takes arguments of the types. -/
  | unknownFunction (name : String) (types : List String)
  /-- A place that an array does not have. -/
  | outOfArray (place : Int) (size : Nat)
  /-- A place that a text does not have. -/
  | outOfText (place : Int) (size : Nat)
  /-- A place that an integer does not have among its bits. -/
  | outOfBits (place : Int) (size : Nat)
  /-- A step of one type into a value that takes another. -/
  | wrongStep (expected found : String)
  /-- A step into a value that has no parts. -/
  | noParts (value step : String)
deriving DecidableEq, Repr

namespace Fault

/-- How much there is of something: nothing, one or more. -/
def only (size : Nat) (whole one more : String) : String :=
  match size with
  | 0 => s!"{whole} is empty"
  | 1 => s!"only 1 {one} in {whole}"
  | n => s!"only {n} {more} in {whole}"

/-- The function with the types of its arguments. -/
def signature (name : String) (types : List String) : String :=
  name ++ " (" ++ String.intercalate ", " types ++ ")"

/-- The two types of a step into a value. -/
def stepName (value step : String) : String :=
  s!"{value} [{step}]"

def message : Fault → String
  | unknownName name => s!"Variable not found: {name}"
  | unknownFunction name types => s!"Function not found: {signature name types}"
  | outOfArray place size => s!"Array index {place} out of bounds: " ++ only size "array" "element" "elements"
  | outOfText place size => s!"String index {place} out of bounds: " ++ only size "string" "character" "characters"
  | outOfBits place size => s!"Bit-field index {place} out of bounds: " ++ only size "bit-field" "bit" "bits"
  | wrongStep expected found => s!"Data type incorrect: {found} (expecting {expected})"
  | noParts value step => s!"Indexer unavailable: {stepName value step}"

/-- The name of the kind. -/
def code : Fault → String
  | unknownName _ => "ErrorVariableNotFound"
  | unknownFunction .. => "ErrorFunctionNotFound"
  | outOfArray .. => "ErrorArrayBounds"
  | outOfText .. => "ErrorStringBounds"
  | outOfBits .. => "ErrorBitFieldBounds"
  | wrongStep .. => "ErrorMismatchDataType"
  | noParts .. => "ErrorIndexingType"

/-- What is known of the fault beside its kind. -/
def details : Fault → List (String × Value)
  | unknownName name => [("variable", .text name)]
  | unknownFunction name types => [("function", .text (signature name types))]
  | outOfArray place size | outOfText place size | outOfBits place size =>
    [("index", .int place), ("length", .int size)]
  | wrongStep expected found => [("requested", .text expected), ("actual", .text found)]
  | noParts value step => [("type", .text (stepName value step))]

/-- What a script catches. -/
def toValue (f : Fault) : Value :=
  .ofEntries (("error", .text f.code) :: ("message", .text f.message) :: f.details)

end Fault
end RecordService.Script
