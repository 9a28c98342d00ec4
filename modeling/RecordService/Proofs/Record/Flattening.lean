import Mathlib.Data.List.Basic
import RecordService.Record.Hydration

/-! # Nested records as flat rows

A chain of left joins gives a nested record as flat rows (`RecordTree.rows`). A row has the record's own cells and, for
every relation, those of one row of a related record; all combinations occur. Where a record has no related record its
cells are null. The rows say no more than the record: `RecordTree.entries` is the document it stands for, whatever
number of rows it takes. -/

namespace RecordService

namespace Shape

/-- The places of a record's own cells: of its key and of its fields. -/
def slots (s : Shape) : List Nat :=
  s.keySlot :: s.fields.map (·.slot)

mutual

/-- The shape and all shapes below it. -/
def nodes : Shape → List Shape
  | ⟨keyName, keySlot, fields, relations⟩ => ⟨keyName, keySlot, fields, relations⟩ :: nodesOfAll relations

def nodesOfAll : List (Branch Shape) → List Shape
  | [] => []
  | b :: rest => nodesOfBranch b ++ nodesOfAll rest

def nodesOfBranch : Branch Shape → List Shape
  | ⟨_, _, shape⟩ => nodes shape

end

/-- The places of the own cells of several shapes. -/
def slotsOf (shapes : List Shape) : List Nat :=
  shapes.flatMap slots

/-- Shapes that share no place in rows of the width, each with a name of its own for every field and relation. Those of
a compiled projection are tidy in rows of its columns. -/
structure Tidy (shapes : List Shape) (width : Nat) : Prop where
  disjoint : shapes.Pairwise fun a b => ∀ slot ∈ a.slots, slot ∉ b.slots
  names : ∀ s ∈ shapes, (s.fields.map (·.name) ++ s.relations.map (·.name)).Nodup
  bound : ∀ s ∈ shapes, ∀ slot ∈ s.slots, slot < width

theorem Tidy.sublist {shapes shapes' : List Shape} {width : Nat} (h : Tidy shapes' width)
    (hsub : shapes.Sublist shapes') : Tidy shapes width where
  disjoint := h.disjoint.sublist hsub
  names s hs := h.names s (hsub.subset hs)
  bound s hs := h.bound s (hsub.subset hs)

theorem Tidy.left {before after : List Shape} {width : Nat} (h : Tidy (before ++ after) width) : Tidy before width :=
  h.sublist (List.sublist_append_left _ _)

theorem Tidy.right {before after : List Shape} {width : Nat} (h : Tidy (before ++ after) width) : Tidy after width :=
  h.sublist (List.sublist_append_right _ _)

theorem Tidy.not_mem_left {before after : List Shape} {width slot : Nat} (h : Tidy (before ++ after) width)
    (hslot : slot ∈ slotsOf after) : slot ∉ slotsOf before := by
  intro hbefore
  obtain ⟨a, ha, hslota⟩ := List.mem_flatMap.mp hbefore
  obtain ⟨b, hb, hslotb⟩ := List.mem_flatMap.mp hslot
  exact (List.pairwise_append.mp h.disjoint).2.2 a ha b hb slot hslota hslotb

theorem nodes_eq (s : Shape) : s.nodes = s :: nodesOfAll s.relations := by
  cases s
  rw [nodes]

theorem nodesOfAll_eq : ∀ relations : List (Branch Shape), nodesOfAll relations = relations.flatMap (·.shape.nodes)
  | [] => rfl
  | ⟨_, _, _⟩ :: rest => by rw [nodesOfAll, nodesOfBranch, nodesOfAll_eq rest, List.flatMap_cons]

theorem mem_nodes {node s : Shape} : node ∈ s.nodes ↔ node = s ∨ ∃ b ∈ s.relations, node ∈ b.shape.nodes := by
  rw [nodes_eq, List.mem_cons, nodesOfAll_eq, List.mem_flatMap]

theorem Tidy.not_mem_slots {s : Shape} {width slot : Nat} (h : Tidy s.nodes width)
    (hslot : slot ∈ slotsOf (nodesOfAll s.relations)) : slot ∉ s.slots := by
  rw [nodes_eq, ← List.singleton_append] at h
  simpa [slotsOf] using h.not_mem_left hslot

theorem Tidy.below {s : Shape} {width : Nat} (h : Tidy s.nodes width) : Tidy (nodesOfAll s.relations) width :=
  h.sublist (s.nodes_eq ▸ List.sublist_cons_self _ _)

theorem Tidy.own_lt {s : Shape} {width slot : Nat} (h : Tidy s.nodes width) (hslot : slot ∈ s.slots) : slot < width :=
  h.bound s (s.nodes_eq ▸ List.mem_cons_self) slot hslot

end Shape

/-- A row without an end: the cell at each place. -/
abbrev FlatRow := Nat → Cell

namespace FlatRow

/-- The row of a missing record. -/
def blank : FlatRow :=
  fun _ => .null

/-- The cells of one row at some places and those of another row at all others. -/
def overlay (slots : List Nat) (row others : FlatRow) : FlatRow :=
  fun slot => if slot ∈ slots then row slot else others slot

/-- The first cells of a row, as they are read from the database. -/
def cells (width : Nat) (row : FlatRow) : List Cell :=
  (List.range width).map row

variable {width slot : Nat} {slots : List Nat} {row others : FlatRow}

theorem overlay_of_mem (h : slot ∈ slots) : overlay slots row others slot = row slot :=
  if_pos h

theorem overlay_of_not_mem (h : slot ∉ slots) : overlay slots row others slot = others slot :=
  if_neg h

theorem getElem?_cells (h : slot < width) : (row.cells width)[slot]? = some (row slot) := by
  simp [cells, h]

theorem cellAt_cells (h : slot < width) : Partial.cellAt (row.cells width) slot = row slot := by
  rw [Partial.cellAt, getElem?_cells h, Option.getD_some]

theorem cellAt_cells_congr (h : row slot = others slot) :
    Partial.cellAt (row.cells width) slot = Partial.cellAt (others.cells width) slot := by
  by_cases hlt : slot < width
  · rw [cellAt_cells hlt, cellAt_cells hlt, h]
  · simp [Partial.cellAt, cells, hlt]

theorem cellAt_cells_blank : Partial.cellAt (blank.cells width) slot = .null := by
  by_cases hlt : slot < width
  · exact cellAt_cells hlt
  · simp [Partial.cellAt, cells, hlt]

end FlatRow

/-- A record as a row has its cells, and for each relation of its shape the related records. -/
inductive RecordTree where
  | mk (cell : FlatRow) (children : List (List RecordTree))

namespace RecordTree

/-- The cell at a place of the row. -/
def cell : RecordTree → FlatRow
  | mk cell _ => cell

def children : RecordTree → List (List RecordTree)
  | mk _ children => children

/-- What the record is told apart by. -/
def key (s : Shape) (t : RecordTree) : String :=
  (t.cell s.keySlot).identity

mutual

/-- The rows of a record: its own cells with each row of its relations. -/
def rows : Shape → RecordTree → List FlatRow
  | ⟨_, keySlot, fields, relations⟩, mk cell children =>
    (rowsOfAll relations children).map (FlatRow.overlay (keySlot :: fields.map (·.slot)) cell)

/-- The rows of the relations of a record: each row of the first with each row of the others. -/
def rowsOfAll : List (Branch Shape) → List (List RecordTree) → List FlatRow
  | [], _ => [.blank]
  | b :: rest, children =>
    (rowsOfBranch b (children.headD [])).flatMap fun row =>
      (rowsOfAll rest children.tail).map (row.overlay (Shape.slotsOf (Shape.nodesOfBranch b)))

/-- The rows of a relation: those of each related record, or a row of nulls. -/
def rowsOfBranch : Branch Shape → List RecordTree → List FlatRow
  | ⟨_, _, shape⟩, trees => if trees.isEmpty then [.blank] else trees.flatMap fun t => rows shape t

end

mutual

/-- The record has related records as the shape says. -/
def Conforms : Shape → RecordTree → Prop
  | ⟨_, _, _, relations⟩, mk _ children => ConformsAll relations children

def ConformsAll : List (Branch Shape) → List (List RecordTree) → Prop
  | [], children => children = []
  | _ :: _, [] => False
  | b :: rest, trees :: others => ConformsBranch b trees ∧ ConformsAll rest others

/-- The records of a relation have keys, no two the same; there is at most one if the relation leads to one. -/
def ConformsBranch : Branch Shape → List RecordTree → Prop
  | ⟨_, many, shape⟩, trees =>
    (∀ t ∈ trees, (t.cell shape.keySlot).isNull = false) ∧ (trees.map (key shape)).Nodup ∧
      (many = false → trees.length ≤ 1) ∧ ∀ t ∈ trees, Conforms shape t

end

mutual

instance decidableConforms : ∀ (s : Shape) (t : RecordTree), Decidable (Conforms s t)
  | ⟨_, _, _, relations⟩, mk _ children => decidableConformsAll relations children

instance decidableConformsAll : ∀ (relations : List (Branch Shape)) (children : List (List RecordTree)),
    Decidable (ConformsAll relations children)
  | [], [] => isTrue rfl
  | [], _ :: _ => isFalse (List.cons_ne_nil _ _)
  | _ :: _, [] => isFalse id
  | b :: rest, trees :: others =>
    have := decidableConformsBranch b trees
    have := decidableConformsAll rest others
    inferInstanceAs (Decidable (_ ∧ _))

instance decidableConformsBranch : ∀ (b : Branch Shape) (trees : List RecordTree), Decidable (ConformsBranch b trees)
  | ⟨_, _, shape⟩, _ =>
    have := decidableConforms shape
    inferInstanceAs (Decidable (_ ∧ _ ∧ _ ∧ _))

end

mutual

/-- The record as an object: its fields, each read by the type of its column, and its relations. -/
def entries (columns : List SelectColumn) : Shape → RecordTree → Entries
  | ⟨_, _, fields, relations⟩, mk cell children =>
    (fields.map fun f => (f.name, (cell f.slot).toJson ((columns[f.slot]?).map (·.type)))) ++
      entriesOfAll columns relations children

def entriesOfAll (columns : List SelectColumn) : List (Branch Shape) → List (List RecordTree) → Entries
  | [], _ => []
  | b :: rest, children => entryOfBranch columns b (children.headD []) :: entriesOfAll columns rest children.tail

/-- The records of a relation: an array of them, or the one or null. -/
def entryOfBranch (columns : List SelectColumn) : Branch Shape → List RecordTree → String × Json
  | ⟨name, true, shape⟩, trees => (name, .arr (trees.map fun t => .obj (entries columns shape t)))
  | ⟨name, false, _⟩, [] => (name, .null)
  | ⟨name, false, shape⟩, t :: _ => (name, .obj (entries columns shape t))

end

/-! ### The rows of a record -/

variable {s : Shape} {t : RecordTree} {row : FlatRow}

theorem rows_eq (s : Shape) (t : RecordTree) :
    t.rows s = (rowsOfAll s.relations t.children).map (FlatRow.overlay s.slots t.cell) := by
  cases s
  cases t
  rw [rows]
  rfl

theorem rowsOfAll_cons (b : Branch Shape) (rest : List (Branch Shape)) (trees : List RecordTree)
    (others : List (List RecordTree)) :
    rowsOfAll (b :: rest) (trees :: others) = (rowsOfBranch b trees).flatMap fun row =>
      (rowsOfAll rest others).map (row.overlay (Shape.slotsOf (Shape.nodesOfBranch b))) := rfl

theorem mem_rows (h : row ∈ t.rows s) :
    ∃ others ∈ rowsOfAll s.relations t.children, row = .overlay s.slots t.cell others := by
  rw [rows_eq] at h
  obtain ⟨others, hothers, rfl⟩ := List.mem_map.mp h
  exact ⟨others, hothers, rfl⟩

theorem cell_of_mem_rows (h : row ∈ t.rows s) {slot : Nat} (hslot : slot ∈ s.slots) : row slot = t.cell slot := by
  obtain ⟨others, -, rfl⟩ := mem_rows h
  exact FlatRow.overlay_of_mem hslot

mutual

theorem rows_ne_nil : ∀ (s : Shape) (t : RecordTree), rows s t ≠ []
  | ⟨_, _, _, relations⟩, mk _ children => by
    rw [rows]
    exact List.map_eq_nil_iff.not.mpr (rowsOfAll_ne_nil relations children)

theorem rowsOfAll_ne_nil : ∀ (relations : List (Branch Shape)) (children : List (List RecordTree)),
    rowsOfAll relations children ≠ []
  | [], _ => List.cons_ne_nil _ _
  | b :: rest, children => by
    obtain ⟨row, hrow⟩ := List.exists_mem_of_ne_nil _ (rowsOfBranch_ne_nil b (children.headD []))
    obtain ⟨others, hothers⟩ := List.exists_mem_of_ne_nil _ (rowsOfAll_ne_nil rest children.tail)
    exact List.ne_nil_of_mem (List.mem_flatMap.mpr ⟨row, hrow, List.mem_map_of_mem hothers⟩)

theorem rowsOfBranch_ne_nil : ∀ (b : Branch Shape) (trees : List RecordTree), rowsOfBranch b trees ≠ []
  | ⟨_, _, _⟩, [] => List.cons_ne_nil _ _
  | ⟨_, _, shape⟩, t :: rest => by
    rw [rowsOfBranch, if_neg (by simp), List.flatMap_cons]
    exact List.append_ne_nil_of_left_ne_nil (rows_ne_nil shape t) _

end

/-! ### The names of a document -/

theorem name_entryOfBranch (columns : List SelectColumn) (b : Branch Shape) (trees : List RecordTree) :
    (entryOfBranch columns b trees).1 = b.name := by
  obtain ⟨name, many, shape⟩ := b
  cases many with
  | true => rfl
  | false => cases trees <;> rfl

theorem names_entriesOfAll (columns : List SelectColumn) : ∀ (relations : List (Branch Shape))
    (children : List (List RecordTree)), (entriesOfAll columns relations children).map (·.1) = relations.map (·.name)
  | [], _ => rfl
  | b :: rest, children => by
    rw [entriesOfAll, List.map_cons, name_entryOfBranch, names_entriesOfAll columns rest, List.map_cons]

end RecordTree
end RecordService
