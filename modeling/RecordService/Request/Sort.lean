import RecordService.Request.Path

/-! # Sort terms

A sort list names the fields to order by; `-` before a field asks for descending order and `+` for ascending. -/

namespace RecordService

structure SortTerm where
  path : Path
  descending : Bool
deriving DecidableEq, Repr

namespace SortTerm

/-- One term: an optional sign, then a path. -/
def ofText (item : String) : SortTerm :=
  match item.toList with
  | '-' :: rest => ⟨.ofText (String.ofList rest), true⟩
  | '+' :: rest => ⟨.ofText (String.ofList rest), false⟩
  | _ => ⟨.ofText item, false⟩

/-- The terms of a list of comma-separated lists. Terms without a path are dropped. -/
def listOf (items : List String) : List SortTerm :=
  ((items.flatMap (Text.pieces ',')).map ofText).filter (!·.path.isEmpty)

end SortTerm
end RecordService
