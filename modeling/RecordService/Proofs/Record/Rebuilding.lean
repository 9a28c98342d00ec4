import Mathlib.Logic.Function.Iterate
import RecordService.Proofs.Json.Keyed
import RecordService.Proofs.Record.Flattening

/-! # Nested records from their flat rows

Hydration puts records together again from the rows that left joins make of them (`Projection.hydrate_rows`). A row
changes a record through the cells of the shapes below it alone, so that the relations of a record are put together each
by its own part of the rows (`Partial.foldl_mergeAll`). Every part occurs again with each row of the other relations; a
row that was merged before, or that belongs to a record that is complete, changes nothing. -/

namespace RecordService

namespace Partial
open RecordTree (rowsOfAll rowsOfBranch ConformsAll ConformsBranch)

/-! ### Cells that matter -/

section
variable {row row' : List Cell}

theorem start_congr {s : Shape} (h : ∀ slot ∈ s.slots, cellAt row slot = cellAt row' slot) :
    start row s = start row' s := by
  rw [start, start]
  congr 1
  exact List.map_congr_left fun f hf => h f.slot (List.mem_cons_of_mem _ (List.mem_map_of_mem hf))

mutual

theorem merge_congr : ∀ (s : Shape) (p : Partial),
    (∀ slot ∈ Shape.slotsOf (Shape.nodesOfAll s.relations), cellAt row slot = cellAt row' slot) →
      merge row s p = merge row' s p
  | ⟨_, _, _, relations⟩, mk cells children, h => by
    rw [merge, merge, mergeAll_congr relations children h]

theorem mergeAll_congr : ∀ (relations : List (Branch Shape)) (children : List PartialSet),
    (∀ slot ∈ Shape.slotsOf (Shape.nodesOfAll relations), cellAt row slot = cellAt row' slot) →
      mergeAll row relations children = mergeAll row' relations children
  | [], _, _ => rfl
  | b :: rest, children, h => by
    rw [Shape.nodesOfAll, Shape.slotsOf, List.flatMap_append] at h
    rw [mergeAll, mergeAll, mergeBranch_congr b _ fun slot hslot => h slot (List.mem_append_left _ hslot),
      mergeAll_congr rest _ fun slot hslot => h slot (List.mem_append_right _ hslot)]

theorem mergeBranch_congr : ∀ (b : Branch Shape) (set : PartialSet),
    (∀ slot ∈ Shape.slotsOf (Shape.nodesOfBranch b), cellAt row slot = cellAt row' slot) →
      mergeBranch row b set = mergeBranch row' b set
  | ⟨_, _, ⟨keyName, keySlot, fields, relations⟩⟩, set, h => by
    rw [Shape.nodesOfBranch, Shape.nodes, Shape.slotsOf, List.flatMap_cons] at h
    have hown : ∀ slot ∈ Shape.slots ⟨keyName, keySlot, fields, relations⟩, cellAt row slot = cellAt row' slot :=
      fun slot hslot => h slot (List.mem_append_left _ hslot)
    have hmerge : merge row ⟨keyName, keySlot, fields, relations⟩ = merge row' ⟨keyName, keySlot, fields, relations⟩ :=
      funext fun p => merge_congr _ p fun slot hslot => h slot (List.mem_append_right _ hslot)
    rw [mergeBranch, mergeBranch, hmerge, start_congr hown, hown keySlot List.mem_cons_self]

end
end

/-! ### Sets of records -/

variable {key : String} {fresh p : Partial} {change : Partial → Partial}

theorem update_append {before : PartialSet} (h : key ∉ before.map (·.1)) (after : PartialSet) :
    update key fresh change (before ++ after) = before ++ update key fresh change after := by
  induction before with
  | nil => rfl
  | cons entry rest ih =>
    rw [List.map_cons, List.mem_cons, not_or] at h
    rw [List.cons_append, update, if_neg (by simpa using Ne.symm h.1), ih h.2, List.cons_append]

theorem update_here (after : PartialSet) : update key fresh change ((key, p) :: after) = (key, change p) :: after := by
  rw [update, if_pos (by simp)]

theorem update_update (h : ∀ p, change (change p) = change p) (set : PartialSet) :
    update key fresh change (update key fresh change set) = update key fresh change set := by
  induction set with
  | nil => rw [update, update_here, h]
  | cons entry rest ih =>
    obtain ⟨k, p⟩ := entry
    rw [update]
    split
    · rename_i hkey
      rw [update, if_pos hkey, h]
    · rename_i hkey
      rw [update, if_neg hkey, ih]

/-- Adds the record of the shape that a row holds. -/
def enter (s : Shape) (set : PartialSet) (row : List Cell) : PartialSet :=
  update (cellAt row s.keySlot).identity (start row s) (merge row s) set

theorem mergeBranch_eq (row : List Cell) (b : Branch Shape) (set : PartialSet) :
    mergeBranch row b set = if (cellAt row b.shape.keySlot).isNull then set else enter b.shape set row := by
  obtain ⟨name, many, shape⟩ := b
  rw [mergeBranch]
  rfl

theorem merge_mk (row : List Cell) (s : Shape) (cells : List Cell) (children : List PartialSet) :
    merge row s (mk cells children) = mk cells (mergeAll row s.relations children) := by
  cases s
  rw [merge]

theorem mergeAll_cons (row : List Cell) (b : Branch Shape) (rest : List (Branch Shape)) (set : PartialSet)
    (sets : List PartialSet) :
    mergeAll row (b :: rest) (set :: sets) = mergeBranch row b set :: mergeAll row rest sets := rfl

/-! ### Merging again -/

mutual

theorem merge_merge (row : List Cell) : ∀ (s : Shape) (p : Partial), merge row s (merge row s p) = merge row s p
  | ⟨_, _, _, relations⟩, mk cells children => by
    rw [merge, merge, mergeAll_mergeAll row relations children]

theorem mergeAll_mergeAll (row : List Cell) : ∀ (relations : List (Branch Shape)) (children : List PartialSet),
    mergeAll row relations (mergeAll row relations children) = mergeAll row relations children
  | [], _ => rfl
  | b :: rest, children => by
    rw [mergeAll, mergeAll, List.headD_cons, List.tail_cons, mergeBranch_mergeBranch row b, mergeAll_mergeAll row rest]

theorem mergeBranch_mergeBranch (row : List Cell) : ∀ (b : Branch Shape) (set : PartialSet),
    mergeBranch row b (mergeBranch row b set) = mergeBranch row b set
  | ⟨name, many, shape⟩, set => by
    rw [mergeBranch_eq row ⟨name, many, shape⟩ set]
    split
    · rename_i hnull
      rw [mergeBranch_eq, if_pos hnull]
    · rename_i hkey
      rw [mergeBranch_eq, if_neg hkey]
      exact update_update (merge_merge row shape) set

end

/-! ### Complete records -/

mutual

/-- The record put together from all of its rows. -/
def complete : Shape → RecordTree → Partial
  | ⟨_, _, fields, relations⟩, .mk cell children =>
    mk (fields.map fun f => cell f.slot) (completeAll relations children)

def completeAll : List (Branch Shape) → List (List RecordTree) → List PartialSet
  | [], _ => []
  | b :: rest, children => completeBranch b (children.headD []) :: completeAll rest children.tail

def completeBranch : Branch Shape → List RecordTree → PartialSet
  | ⟨_, _, shape⟩, trees => trees.map fun t => (t.key shape, complete shape t)

end

theorem completeAll_cons (b : Branch Shape) (rest : List (Branch Shape)) (trees : List RecordTree)
    (others : List (List RecordTree)) :
    completeAll (b :: rest) (trees :: others) = completeBranch b trees :: completeAll rest others := rfl

section
variable {width : Nat} {s : Shape} {t : RecordTree} {trees : List RecordTree} {set : PartialSet}

theorem mergeBranch_overlay (b : Branch Shape) (row others : FlatRow) (set : PartialSet) :
    mergeBranch ((row.overlay (Shape.slotsOf (Shape.nodesOfBranch b)) others).cells width) b set =
      mergeBranch (row.cells width) b set :=
  mergeBranch_congr b set fun _ hslot => FlatRow.cellAt_cells_congr (FlatRow.overlay_of_mem hslot)

theorem mergeAll_overlay {before : List Shape} {relations : List (Branch Shape)}
    (h : Shape.Tidy (before ++ Shape.nodesOfAll relations) width) (row others : FlatRow) (sets : List PartialSet) :
    mergeAll ((row.overlay (Shape.slotsOf before) others).cells width) relations sets =
      mergeAll (others.cells width) relations sets :=
  mergeAll_congr relations sets fun _ hslot =>
    FlatRow.cellAt_cells_congr (FlatRow.overlay_of_not_mem (h.not_mem_left hslot))

theorem merge_overlay (h : Shape.Tidy s.nodes width) (row others : FlatRow) (p : Partial) :
    merge ((row.overlay s.slots others).cells width) s p = merge (others.cells width) s p :=
  merge_congr s p fun _ hslot => FlatRow.cellAt_cells_congr (FlatRow.overlay_of_not_mem (h.not_mem_slots hslot))

theorem cellAt_key {row : FlatRow} (h : Shape.Tidy s.nodes width) (hrow : row ∈ t.rows s) :
    cellAt (row.cells width) s.keySlot = t.cell s.keySlot := by
  rw [FlatRow.cellAt_cells (h.own_lt List.mem_cons_self), RecordTree.cell_of_mem_rows hrow List.mem_cons_self]

/-- A row of a record finds it among the complete ones. -/
theorem enter_complete {row : List Cell} (hkeys : (trees.map (·.key s)).Nodup) (ht : t ∈ trees)
    (hkey : cellAt row s.keySlot = t.cell s.keySlot) (hmerge : merge row s (complete s t) = complete s t) :
    enter s (trees.map fun t => (t.key s, complete s t)) row = trees.map fun t => (t.key s, complete s t) := by
  obtain ⟨before, after, rfl⟩ := List.append_of_mem ht
  have hbefore : t.key s ∉ (before.map fun t => (t.key s, complete s t)).map (·.1) := by
    rw [List.map_append, List.map_cons] at hkeys
    rw [List.map_map]
    exact fun hmem => (List.nodup_append.mp hkeys).2.2 _ hmem _ List.mem_cons_self rfl
  rw [List.map_append, enter, hkey, ← RecordTree.key, update_append hbefore, List.map_cons, update_here, hmerge]

-- The row of a record holds a row of each of its relations, and this is one of a related record that is there.
mutual

theorem merge_complete : ∀ (s : Shape) (t : RecordTree) {row : FlatRow}, Shape.Tidy s.nodes width → t.Conforms s →
    row ∈ t.rows s → merge (row.cells width) s (complete s t) = complete s t
  | ⟨_, _, _, relations⟩, .mk _ children, _, htidy, hconforms, hrow => by
    obtain ⟨others, hothers, rfl⟩ := RecordTree.mem_rows hrow
    rw [merge_overlay htidy, complete, merge, mergeAll_completeAll relations children htidy.below hconforms hothers]

theorem mergeAll_completeAll : ∀ (relations : List (Branch Shape)) (children : List (List RecordTree)) {row : FlatRow},
    Shape.Tidy (Shape.nodesOfAll relations) width → ConformsAll relations children →
      row ∈ rowsOfAll relations children →
        mergeAll (row.cells width) relations (completeAll relations children) = completeAll relations children
  | [], _, _, _, _, _ => rfl
  | b :: rest, trees :: others, row, htidy, hconforms, hrow => by
    obtain ⟨hbranch, hrest⟩ := hconforms
    obtain ⟨left, hleft, hmem⟩ := List.mem_flatMap.mp hrow
    obtain ⟨right, hright, rfl⟩ := List.mem_map.mp hmem
    rw [completeAll_cons, mergeAll_cons, mergeBranch_overlay, mergeAll_overlay htidy,
      mergeBranch_completeBranch b trees htidy.left hbranch hleft,
      mergeAll_completeAll rest others htidy.right hrest hright]

theorem mergeBranch_completeBranch : ∀ (b : Branch Shape) (trees : List RecordTree) {row : FlatRow},
    Shape.Tidy (Shape.nodesOfBranch b) width → ConformsBranch b trees → row ∈ rowsOfBranch b trees →
      mergeBranch (row.cells width) b (completeBranch b trees) = completeBranch b trees
  | ⟨_, _, shape⟩, [], row, htidy, hconforms, hrow => by
    rw [List.mem_singleton.mp hrow, mergeBranch_eq, FlatRow.cellAt_cells_blank]
    rfl
  | ⟨_, _, shape⟩, first :: rest, row, htidy, hconforms, hrow => by
    obtain ⟨-, hkeys, -, hbelow⟩ := hconforms
    obtain ⟨t, ht, hrow⟩ := List.mem_flatMap.mp hrow
    rw [mergeBranch_eq]
    split
    · rfl
    · exact enter_complete hkeys ht (cellAt_key htidy hrow)
        (merge_complete shape t htidy (hbelow t ht) hrow)

end

/-! ### Rows one by one -/

/-- Merging all rows of a record into what one of them opened makes it complete. -/
def Restores (width : Nat) (s : Shape) (t : RecordTree) : Prop :=
  ∀ row ∈ t.rows s, ((t.rows s).map (·.cells width)).foldl (fun p row => merge row s p) (start (row.cells width) s) =
    complete s t

theorem foldl_enter_same {key : String} (hset : key ∉ set.map (·.1)) : ∀ {rows : List (List Cell)} {p : Partial},
    (∀ row ∈ rows, (cellAt row s.keySlot).identity = key) →
      rows.foldl (enter s) (set ++ [(key, p)]) = set ++ [(key, rows.foldl (fun p row => merge row s p) p)]
  | [], _, _ => rfl
  | row :: rest, p, h => by
    rw [List.foldl_cons, List.foldl_cons, enter, h row List.mem_cons_self, update_append hset, update_here]
    exact foldl_enter_same hset fun row hrow => h row (List.mem_cons_of_mem _ hrow)

/-- The rows of a record whose key is new open it, and make it complete. -/
theorem foldl_enter_rows (htidy : Shape.Tidy s.nodes width) (hset : t.key s ∉ set.map (·.1)) (ht : Restores width s t) :
    ((t.rows s).map (·.cells width)).foldl (enter s) set = set ++ [(t.key s, complete s t)] := by
  obtain ⟨first, rest, hrows⟩ := List.exists_cons_of_ne_nil (t.rows_ne_nil s)
  have hkeys : ∀ row ∈ (first :: rest).map (·.cells width), (cellAt row s.keySlot).identity = t.key s := by
    intro cells hcells
    obtain ⟨row, hrow, rfl⟩ := List.mem_map.mp hcells
    rw [cellAt_key htidy (hrows ▸ hrow), RecordTree.key]
  have hcomplete := ht first (hrows ▸ List.mem_cons_self)
  rw [hrows] at hcomplete ⊢
  rw [List.map_cons] at hkeys hcomplete ⊢
  rw [List.foldl_cons] at hcomplete ⊢
  rw [← List.append_nil set, enter, hkeys _ List.mem_cons_self, update_append hset, update, List.append_nil,
    foldl_enter_same hset fun row hrow => hkeys row (List.mem_cons_of_mem _ hrow), hcomplete]

theorem foldl_enter_trees (htidy : Shape.Tidy s.nodes width) : ∀ {trees : List RecordTree} {set : PartialSet},
    (∀ t ∈ trees, Restores width s t) → (set.map (·.1) ++ trees.map (·.key s)).Nodup →
      ((trees.flatMap (·.rows s)).map (·.cells width)).foldl (enter s) set =
        set ++ trees.map fun t => (t.key s, complete s t)
  | [], set, _, _ => (List.append_nil set).symm
  | t :: rest, set, h, hkeys => by
    have hset : t.key s ∉ set.map (·.1) := fun hmem =>
      (List.nodup_append.mp hkeys).2.2 _ hmem _ List.mem_cons_self rfl
    rw [List.flatMap_cons, List.map_append, List.foldl_append,
      foldl_enter_rows htidy hset (h t List.mem_cons_self),
      foldl_enter_trees htidy (fun t ht => h t (List.mem_cons_of_mem _ ht)) (by simpa using hkeys), List.map_cons,
      List.append_assoc, List.singleton_append]

/-! ### Parts of rows -/

theorem foldl_merge (s : Shape) (cells : List Cell) : ∀ (rows : List (List Cell)) (children : List PartialSet),
    rows.foldl (fun p row => merge row s p) (mk cells children) =
      mk cells (rows.foldl (fun sets row => mergeAll row s.relations sets) children)
  | [], _ => rfl
  | row :: rest, children => by
    rw [List.foldl_cons, List.foldl_cons, ← foldl_merge s cells rest, merge_mk]

theorem foldl_mergeAll (b : Branch Shape) (relations : List (Branch Shape)) :
    ∀ (rows : List (List Cell)) (set : PartialSet) (sets : List PartialSet),
      rows.foldl (fun sets row => mergeAll row (b :: relations) sets) (set :: sets) =
        rows.foldl (fun set row => mergeBranch row b set) set ::
          rows.foldl (fun sets row => mergeAll row relations sets) sets
  | [], _, _ => rfl
  | row :: rest, set, sets => by
    rw [List.foldl_cons, List.foldl_cons, List.foldl_cons, mergeAll_cons, foldl_mergeAll b relations rest]

theorem foldl_merge_overlay (h : Shape.Tidy s.nodes width) (row : FlatRow) (rows : List FlatRow) (p : Partial) :
    ((rows.map (row.overlay s.slots)).map (·.cells width)).foldl (fun p row => merge row s p) p =
      (rows.map (·.cells width)).foldl (fun p row => merge row s p) p := by
  simp only [List.foldl_map, merge_overlay h]

theorem foldl_fixed {α β : Type} {f : α → α} {x : α} (h : f (f x) = f x) {l : List β} (hl : l ≠ []) :
    l.foldl (fun y _ => f y) x = f x := by
  obtain ⟨first, rest, rfl⟩ := List.exists_cons_of_ne_nil hl
  rw [List.foldl_cons, List.foldl_const, Function.iterate_fixed h]

/-- Each row of a relation comes as often as there are rows of the others, which makes no difference to it. -/
theorem foldl_mergeBranch_product (b : Branch Shape) (rows : List FlatRow) {others : List FlatRow}
    (hothers : others ≠ []) (set : PartialSet) :
    ((rows.flatMap fun row => others.map (row.overlay (Shape.slotsOf (Shape.nodesOfBranch b)))).map
        (·.cells width)).foldl (fun set row => mergeBranch row b set) set =
      (rows.map (·.cells width)).foldl (fun set row => mergeBranch row b set) set := by
  have hsame (set : PartialSet) (row : FlatRow) :
      others.foldl (fun set _ => mergeBranch (row.cells width) b set) set = mergeBranch (row.cells width) b set :=
    foldl_fixed (mergeBranch_mergeBranch (row.cells width) b set) hothers
  simp only [List.foldl_map, List.foldl_flatMap, mergeBranch_overlay, hsame]

/-- The rows of the other relations come again with each row of the first, when all they hold is there. -/
theorem foldl_mergeAll_product {before : List Shape} {relations : List (Branch Shape)}
    (htidy : Shape.Tidy (before ++ Shape.nodesOfAll relations) width) {rows : List FlatRow} (hrows : rows ≠ [])
    (others : List FlatRow) {sets complete : List PartialSet}
    (hfold : (others.map (·.cells width)).foldl (fun sets row => mergeAll row relations sets) sets = complete)
    (hcomplete : ∀ row ∈ others, mergeAll (row.cells width) relations complete = complete) :
    ((rows.flatMap fun row => others.map (row.overlay (Shape.slotsOf before))).map (·.cells width)).foldl
      (fun sets row => mergeAll row relations sets) sets = complete := by
  rw [List.foldl_map] at hfold
  have hagain : others.foldl (fun sets row => mergeAll (row.cells width) relations sets) complete = complete :=
    List.foldlRecOn (motive := (· = complete)) others _ rfl fun sets hsets row hrow => hsets ▸ hcomplete row hrow
  simp only [List.foldl_map, List.foldl_flatMap, mergeAll_overlay htidy]
  -- The first round makes the relations complete, and no later one changes them.
  exact (foldl_fixed (hfold.symm ▸ hagain) hrows).trans hfold

-- By the shape. The rows of a record act on each relation as the rows of that relation do (`foldl_mergeAll` and the two
-- products), and these are the rows of the related records, one record after another (`foldl_enter_trees`).
mutual

theorem restores : ∀ (s : Shape) (t : RecordTree), Shape.Tidy s.nodes width → t.Conforms s → Restores width s t
  | ⟨keyName, keySlot, fields, relations⟩, .mk cell children, htidy, hconforms, row, hrow => by
    have hstart : start (row.cells width) ⟨keyName, keySlot, fields, relations⟩ =
        mk (fields.map fun f => cell f.slot) (relations.map fun _ => []) := by
      rw [start]
      congr 1
      refine List.map_congr_left fun f hf => ?_
      have hslot : f.slot ∈ Shape.slots ⟨keyName, keySlot, fields, relations⟩ :=
        List.mem_cons_of_mem _ (List.mem_map_of_mem hf)
      rw [FlatRow.cellAt_cells (htidy.own_lt hslot), RecordTree.cell_of_mem_rows hrow hslot, RecordTree.cell]
    rw [hstart, RecordTree.rows_eq, foldl_merge_overlay htidy, foldl_merge, complete]
    congr 1
    exact foldl_mergeAll_rows relations children htidy.below hconforms

theorem foldl_mergeAll_rows : ∀ (relations : List (Branch Shape)) (children : List (List RecordTree)),
    Shape.Tidy (Shape.nodesOfAll relations) width → ConformsAll relations children →
      ((rowsOfAll relations children).map (·.cells width)).foldl (fun sets row => mergeAll row relations sets)
        (relations.map fun _ => []) = completeAll relations children
  | [], _, _, _ => rfl
  | b :: rest, trees :: others, htidy, hconforms => by
    obtain ⟨hbranch, hrest⟩ := hconforms
    rw [RecordTree.rowsOfAll_cons, List.map_cons, foldl_mergeAll, completeAll_cons,
      foldl_mergeBranch_product b _ (RecordTree.rowsOfAll_ne_nil rest others),
      foldl_mergeBranch_rows b trees htidy.left hbranch,
      foldl_mergeAll_product htidy (RecordTree.rowsOfBranch_ne_nil b trees) _
        (foldl_mergeAll_rows rest others htidy.right hrest)
        fun row hrow => mergeAll_completeAll rest others htidy.right hrest hrow]

theorem foldl_mergeBranch_rows : ∀ (b : Branch Shape) (trees : List RecordTree),
    Shape.Tidy (Shape.nodesOfBranch b) width → ConformsBranch b trees →
      ((rowsOfBranch b trees).map (·.cells width)).foldl (fun set row => mergeBranch row b set) [] =
        completeBranch b trees
  | ⟨_, _, shape⟩, [], _, _ => by
    show mergeBranch (FlatRow.blank.cells width) _ [] = []
    rw [mergeBranch_eq, FlatRow.cellAt_cells_blank]
    rfl
  | ⟨name, many, shape⟩, first :: rest, htidy, hconforms => by
    obtain ⟨hpresent, hkeys, -, hbelow⟩ := hconforms
    have henter (set : PartialSet) (cells : List Cell)
        (hcells : cells ∈ ((first :: rest).flatMap (·.rows shape)).map (·.cells width)) :
        mergeBranch cells ⟨name, many, shape⟩ set = enter shape set cells := by
      obtain ⟨row, hmem, rfl⟩ := List.mem_map.mp hcells
      obtain ⟨t, ht, hrow⟩ := List.mem_flatMap.mp hmem
      rw [mergeBranch_eq, cellAt_key htidy hrow, if_neg (by simp [hpresent t ht])]
    calc
      ((rowsOfBranch ⟨name, many, shape⟩ (first :: rest)).map (·.cells width)).foldl
          (fun set row => mergeBranch row ⟨name, many, shape⟩ set) []
        = (((first :: rest).flatMap (·.rows shape)).map (·.cells width)).foldl (enter shape) [] :=
          List.foldl_ext _ _ _ henter
      _ = (first :: rest).map fun t => (t.key shape, complete shape t) :=
          foldl_enter_trees htidy (fun t ht => restores shape t htidy (hbelow t ht)) hkeys

end

end

/-! ### Documents of records -/

mutual

theorem record_complete (columns : List SelectColumn) {width : Nat} : ∀ (s : Shape) (t : RecordTree),
    Shape.Tidy s.nodes width → t.Conforms s → record columns s (complete s t) = t.entries columns s
  | ⟨keyName, keySlot, slots, relations⟩, .mk cell children, htidy, hconforms => by
    have hfields : fields columns slots (slots.map fun f => cell f.slot) =
        slots.map fun f => (f.name, (cell f.slot).toJson ((columns[f.slot]?).map (·.type))) := by
      rw [fields, ← List.map_prod_left_eq_zip, List.map_map]
      rfl
    have hnames := htidy.names _ (Shape.nodes_eq _ ▸ List.mem_cons_self)
    rw [complete, record, recordAll_completeAll columns relations children htidy.below hconforms, hfields,
      RecordTree.entries]
    refine Entries.putAll_of_nodup ?_
    rw [List.map_append, List.map_map, RecordTree.names_entriesOfAll]
    exact hnames

theorem recordAll_completeAll (columns : List SelectColumn) {width : Nat} :
    ∀ (relations : List (Branch Shape)) (children : List (List RecordTree)),
      Shape.Tidy (Shape.nodesOfAll relations) width → ConformsAll relations children →
        recordAll columns relations (completeAll relations children) =
          RecordTree.entriesOfAll columns relations children
  | [], _, _, _ => rfl
  | b :: rest, trees :: others, htidy, hconforms => by
    rw [completeAll_cons, recordAll, List.headD_cons, List.tail_cons,
      recordBranch_completeBranch columns b trees htidy.left hconforms.1,
      recordAll_completeAll columns rest others htidy.right hconforms.2]
    rfl

theorem recordBranch_completeBranch (columns : List SelectColumn) {width : Nat} :
    ∀ (b : Branch Shape) (trees : List RecordTree), Shape.Tidy (Shape.nodesOfBranch b) width → ConformsBranch b trees →
      recordBranch columns b (completeBranch b trees) = RecordTree.entryOfBranch columns b trees
  | ⟨name, many, shape⟩, trees, htidy, hconforms => by
    have hobjects : (completeBranch ⟨name, many, shape⟩ trees).map (fun p => Json.obj (record columns shape p.2)) =
        trees.map fun t => .obj (t.entries columns shape) := by
      rw [completeBranch, List.map_map]
      exact List.map_congr_left fun t ht =>
        congrArg Json.obj (record_complete columns shape t htidy (hconforms.2.2.2 t ht))
    rw [recordBranch, hobjects]
    cases many with
    | true => rfl
    | false => cases trees <;> rfl

end

end Partial

namespace Projection
open Partial

variable {width : Nat} {s : Shape}

theorem openAll_eq_foldl : ∀ {rows : List (List Cell)} {set : PartialSet}, (∀ row ∈ rows, s.keySlot < row.length) →
    openAll s rows set = rows.foldl (enter s) set
  | [], _, _ => rfl
  | row :: rest, set, h => by
    have hkey : row[s.keySlot]? = some (cellAt row s.keySlot) := by
      rw [cellAt, List.getElem?_eq_getElem (h row List.mem_cons_self), Option.getD_some]
    rw [openAll, hkey, List.foldl_cons]
    exact openAll_eq_foldl fun row hrow => h row (List.mem_cons_of_mem _ hrow)

/-- Once all rows of some records are read, the records are complete, and there are no others. -/
theorem openAll_rows {records : List RecordTree} (htidy : Shape.Tidy s.nodes width)
    (hconforms : ∀ t ∈ records, t.Conforms s) (hkeys : (records.map (·.key s)).Nodup) :
    openAll s ((records.flatMap (·.rows s)).map (·.cells width)) [] = records.map fun t => (t.key s, complete s t) := by
  have hwide : ∀ cells ∈ (records.flatMap (·.rows s)).map (·.cells width), s.keySlot < cells.length := by
    intro cells hcells
    obtain ⟨row, -, rfl⟩ := List.mem_map.mp hcells
    simpa [FlatRow.cells] using htidy.own_lt List.mem_cons_self
  rw [openAll_eq_foldl hwide]
  exact foldl_enter_trees htidy (fun t ht => restores s t htidy (hconforms t ht)) hkeys

/-- Hydration gives back the records of which left joins made the rows: in their order, each with all of its related
records in their order, and nothing else. -/
theorem hydrate_rows {p : Projection} {records : List RecordTree} (htidy : Shape.Tidy p.shape.nodes width)
    (hconforms : ∀ t ∈ records, t.Conforms p.shape) (hkeys : (records.map (·.key p.shape)).Nodup) :
    p.hydrate ((records.flatMap (·.rows p.shape)).map (·.cells width)) =
      records.map (·.entries p.columns p.shape) := by
  rw [hydrate, openAll_rows htidy hconforms hkeys, List.map_map]
  exact List.map_congr_left fun t ht => record_complete p.columns p.shape t htidy (hconforms t ht)

end Projection

/-- Posts with all posts of their authors, and with their tags. -/
def Projection.posts : Projection where
  columns :=
    [⟨⟨"r", "id"⟩, .int⟩, ⟨⟨"r", "title"⟩, .text⟩, ⟨⟨"j0", "id"⟩, .int⟩, ⟨⟨"j1", "id"⟩, .int⟩, ⟨⟨"j1", "title"⟩, .text⟩,
      ⟨⟨"j2", "id"⟩, .int⟩]
  shape :=
    ⟨"id", 0, [⟨"id", 0⟩, ⟨"title", 1⟩],
      [⟨"author", false, ⟨"id", 2, [⟨"id", 2⟩], [⟨"posts", true, ⟨"id", 3, [⟨"id", 3⟩, ⟨"title", 4⟩], []⟩⟩]⟩⟩,
        ⟨"tags", true, ⟨"id", 5, [⟨"id", 5⟩], []⟩⟩]⟩
  deferred := []

/-- A record with the cells from the place on. -/
def RecordTree.ofCells (place : Nat) (cells : List Cell) (children : List (List RecordTree)) : RecordTree :=
  .mk (fun slot => if slot < place then .null else (cells[slot - place]?).getD .null) children

/-- A post with two tags whose author has two posts, and a post with neither. -/
def RecordTree.posts : List RecordTree :=
  [.ofCells 0 [.int 1, .text "a"]
      [[.ofCells 2 [.int 7] [[.ofCells 3 [.int 1, .text "a"] [], .ofCells 3 [.int 3, .text "c"] []]]],
        [.ofCells 5 [.int 2] [], .ofCells 5 [.int 1] []]],
    .ofCells 0 [.int 2, .text "b"] [[], []]]

theorem hydrate_rows_posts :
    (RecordTree.posts.flatMap (·.rows Projection.posts.shape)).map (·.cells 6) =
        [[.int 1, .text "a", .int 7, .int 1, .text "a", .int 2],
          [.int 1, .text "a", .int 7, .int 1, .text "a", .int 1],
          [.int 1, .text "a", .int 7, .int 3, .text "c", .int 2],
          [.int 1, .text "a", .int 7, .int 3, .text "c", .int 1],
          [.int 2, .text "b", .null, .null, .null, .null]] ∧
      Projection.posts.hydrate ((RecordTree.posts.flatMap (·.rows Projection.posts.shape)).map (·.cells 6)) =
        [[("id", .int 1), ("title", .str "a"),
            ("author", .obj [("id", .int 7), ("posts", .arr [.obj [("id", .int 1), ("title", .str "a")],
              .obj [("id", .int 3), ("title", .str "c")]])]),
            ("tags", .arr [.obj [("id", .int 2)], .obj [("id", .int 1)]])],
          [("id", .int 2), ("title", .str "b"), ("author", .null), ("tags", .arr [])]] := by
  have htidy : Shape.Tidy Projection.posts.shape.nodes 6 :=
    ⟨by decide +kernel, by decide +kernel, by decide +kernel⟩
  have hconforms : ∀ t ∈ RecordTree.posts, t.Conforms Projection.posts.shape := by decide +kernel
  refine ⟨by decide +kernel, ?_⟩
  rw [Projection.hydrate_rows htidy hconforms (by decide +kernel)]
  rfl

end RecordService
