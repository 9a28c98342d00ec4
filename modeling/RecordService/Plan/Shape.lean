import RecordService.Sql.Fragment
import RecordService.Catalog.Basic

/-! # Record shapes

A shape says how a record is put together from a flat row: which cell is its key, which cells are its fields, and
which records hang below it. A shape grows along a chain of relations (`Shape.grow`), and a relation is never there
twice. -/

namespace RecordService

/-- A field and the place of its cell in the row. -/
structure FieldSlot where
  name : String
  slot : Nat
deriving DecidableEq, Repr

/-- A relation below a record; `α` describes each related record. -/
structure Branch (α : Type) where
  name : String
  many : Bool
  shape : α
deriving Repr

structure Shape where
  keyName : String
  keySlot : Nat
  fields : List FieldSlot
  relations : List (Branch Shape)

/-- A relation on the way to a shape, with the key of the records it leads to. -/
structure ShapeLink where
  name : String
  many : Bool
  keyName : String
  keySlot : Nat
deriving DecidableEq, Repr

namespace Shape

/-- The shape of a record that has nothing but its key. -/
def ofKey (name : String) (slot : Nat) : Shape :=
  ⟨name, slot, [⟨name, slot⟩], []⟩

/-- The shape with a field, unless it has one of that name. -/
def addField (name : String) (slot : Nat) (s : Shape) : Shape :=
  if s.fields.any (·.name == name) then s else { s with fields := s.fields ++ [⟨name, slot⟩] }

/-- Changes the shape at the end of a chain of relations; what is missing of the chain is added. -/
def grow (change : Shape → Shape) : List ShapeLink → Shape → Shape
  | [], s => change s
  | link :: rest, s =>
    match s.relations.findIdx? (·.name == link.name) with
    | some place =>
      { s with relations := s.relations.modify place fun b => { b with shape := grow change rest b.shape } }
    | none =>
      let fresh := grow change rest (ofKey link.keyName link.keySlot)
      { s with relations := s.relations ++ [⟨link.name, link.many, fresh⟩] }

/-- The shape below a relation. -/
def below? (s : Shape) (name : String) : Option Shape :=
  (s.relations.find? (·.name == name)).map (·.shape)

/-- The shape at the end of a chain of relation names. -/
def at? (s : Shape) : List String → Option Shape
  | [] => some s
  | name :: rest => (s.below? name).bind (·.at? rest)

/-- Whether a relation of the records at the end of a chain is part of the shape. -/
def isJoined (s : Shape) (chain : List String) (name : String) : Bool :=
  ((s.at? chain).bind (·.below? name)).isSome

end Shape
end RecordService
