import RecordService.Json.Fields

/-! # Find requests

The request as it arrives: documents and lists of texts that are read further when it is compiled. Lists may be
given as one comma-separated text. -/

namespace RecordService

structure FindRequest where
  filter : Json
  fields : List String
  sort : List String
  /-- The page, from one. -/
  page : Option Nat
  /-- The page size; zero for no bound. -/
  limit : Option Nat
  counts : Option String
  aggregate : Json

namespace FindRequest

/-- The request for the first page of all records. -/
def all : FindRequest :=
  ⟨.null, [], [], none, none, none, .null⟩

/-- A list of texts: one text, several, or `null` for none. -/
def texts? : Json → Option (List String)
  | .str s => some [s]
  | .null => some []
  | d => Json.list? Json.text? d

def ofJson? (d : Json) : Option FindRequest := do
  let m ← d.members? ["filter", "fields", "sort", "page", "limit", "meta", "aggregate"]
  return {
    filter := ← Json.fieldOr? m "filter" .null Json.document?
    fields := ← Json.fieldOr? m "fields" [] texts?
    sort := ← Json.fieldOr? m "sort" [] texts?
    page := ← Json.fieldOr? m "page" none (Json.optional? Json.count?)
    limit := ← Json.fieldOr? m "limit" none (Json.optional? Json.count?)
    counts := ← Json.fieldOr? m "meta" none (Json.optional? Json.text?)
    aggregate := ← Json.fieldOr? m "aggregate" .null Json.document? }

/-- A count, or `null`. -/
def countJson : Option Nat → Json
  | some n => .int n
  | none => .null

def toJson (r : FindRequest) : Json :=
  .obj [("filter", r.filter), ("fields", Json.ofTexts r.fields), ("sort", Json.ofTexts r.sort),
        ("page", countJson r.page), ("limit", countJson r.limit), ("meta", Json.ofText? r.counts),
        ("aggregate", r.aggregate)]

end FindRequest
end RecordService
