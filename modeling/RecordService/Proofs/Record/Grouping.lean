import Mathlib.Data.List.Induction
import RecordService.Proofs.Record.Rebuilding

/-! # Records as groups of rows

Hydration takes rows one by one, but what it makes of them can be said of all rows at once (`Projection.hydrate_groups`):
the rows with one key are one record, which has its fields from the first of them and its related records from all of
them, again by their keys. This holds of any rows, whatever they were read from. -/

namespace RecordService

/-! ### Groups -/

section
variable {α κ : Type} [BEq κ]

/-- The keys of items, each once, in the order in which they are first seen. -/
def keysOf (key : α → Option κ) (items : List α) : List κ :=
  (items.filterMap key).eraseDups

/-- The items with the key. -/
def withKey (key : α → Option κ) (items : List α) (k : κ) : List α :=
  items.filter (key · == some k)

/-- The items of each key, in the order in which the keys are first seen. An item without a key is in no group. -/
def groupsBy (key : α → Option κ) (items : List α) : List (List α) :=
  (keysOf key items).map (withKey key items)

variable {key : α → Option κ} {items more : List α} {item : α} {k : κ}

theorem keysOf_concat_none (h : key item = none) : keysOf key (items ++ [item]) = keysOf key items := by
  rw [keysOf, List.filterMap_append, List.filterMap_cons_none h, List.filterMap_nil, List.append_nil, keysOf]

theorem withKey_append : withKey key (items ++ more) k = withKey key items k ++ withKey key more k :=
  List.filter_append ..

variable [LawfulBEq κ]

theorem mem_keysOf : k ∈ keysOf key items ↔ ∃ item ∈ items, key item = some k := by
  rw [keysOf, List.mem_eraseDups, List.mem_filterMap]

theorem keysOf_append_of_subset (h : ∀ item ∈ more, ∀ k, key item = some k → k ∈ keysOf key items) :
    keysOf key (items ++ more) = keysOf key items := by
  have hseen : (more.filterMap key).removeAll (items.filterMap key) = [] := by
    refine List.filter_eq_nil_iff.mpr fun k hk => ?_
    obtain ⟨item, hitem, hkey⟩ := List.mem_filterMap.mp hk
    simpa using mem_keysOf.mp (h item hitem k hkey)
  rw [keysOf, List.filterMap_append, List.eraseDups_append, hseen, List.eraseDups_nil, List.append_nil, keysOf]

theorem keysOf_concat_new (h : key item = some k) (hnew : k ∉ keysOf key items) :
    keysOf key (items ++ [item]) = keysOf key items ++ [k] := by
  have hunseen : List.removeAll [k] (items.filterMap key) = [k] := by
    refine List.filter_eq_self.mpr fun other hother => ?_
    rw [List.mem_singleton.mp hother]
    simpa using fun item hitem hkey => hnew (mem_keysOf.mpr ⟨item, hitem, hkey⟩)
  rw [keysOf, List.filterMap_append, List.filterMap_cons_some h, List.filterMap_nil, List.eraseDups_append, hunseen,
    List.eraseDups_cons, List.filter_nil, List.eraseDups_nil, keysOf]

theorem keysOf_concat_mem (h : key item = some k) (hmem : k ∈ keysOf key items) :
    keysOf key (items ++ [item]) = keysOf key items := by
  refine keysOf_append_of_subset fun other hother k' hk' => ?_
  rw [List.mem_singleton.mp hother, h] at hk'
  exact Option.some.inj hk' ▸ hmem

theorem nodup_keysOf (key : α → Option κ) (items : List α) : (keysOf key items).Nodup := by
  induction items using List.reverseRecOn with
  | nil => exact List.nodup_nil
  | append_singleton items item ih =>
    cases hkey : key item with
    | none => rwa [keysOf_concat_none hkey]
    | some k =>
      by_cases hmem : k ∈ keysOf key items
      · rwa [keysOf_concat_mem hkey hmem]
      · rw [keysOf_concat_new hkey hmem]
        refine List.nodup_append.mpr ⟨ih, by simp, fun other hother added hadded heq => hmem ?_⟩
        rwa [← List.mem_singleton.mp hadded, ← heq]

theorem withKey_concat_same (h : key item = some k) : withKey key (items ++ [item]) k = withKey key items k ++ [item] := by
  rw [withKey_append, withKey, withKey, List.filter_cons_of_pos (by simp [h]), List.filter_nil]

theorem withKey_concat_other (h : key item ≠ some k) : withKey key (items ++ [item]) k = withKey key items k := by
  rw [withKey_append, withKey, withKey, List.filter_cons_of_neg (by simpa using h), List.filter_nil, List.append_nil]

theorem withKey_eq_nil (h : k ∉ keysOf key items) : withKey key items k = [] := by
  refine List.filter_eq_nil_iff.mpr fun item hitem => ?_
  simpa using fun hkey => h (mem_keysOf.mpr ⟨item, hitem, hkey⟩)

theorem withKey_ne_nil (h : k ∈ keysOf key items) : withKey key items k ≠ [] := by
  obtain ⟨item, hitem, hkey⟩ := mem_keysOf.mp h
  exact List.ne_nil_of_mem (List.mem_filter.mpr ⟨hitem, by simp [hkey]⟩)

end

namespace Partial

/-! ### Opening records by key -/

/-- Adds the record that a row holds; a row without a key holds none. -/
def enterBy (key : List Cell → Option String) (s : Shape) (set : PartialSet) (row : List Cell) : PartialSet :=
  match key row with
  | none => set
  | some k => update k (start row s) (merge row s) set

/-- The record of a group of rows, the first of which opens it. -/
def ofGroup (s : Shape) (rows : List (List Cell)) : Partial :=
  rows.foldl (fun p row => merge row s p) (start (rows.headD []) s)

theorem ofGroup_concat {s : Shape} {rows : List (List Cell)} (h : rows ≠ []) (row : List Cell) :
    ofGroup s (rows ++ [row]) = merge row s (ofGroup s rows) := by
  cases rows with
  | nil => exact absurd rfl h
  | cons first rest => rw [ofGroup, List.foldl_concat, ofGroup, List.cons_append, List.headD_cons, List.headD_cons]

theorem update_map {fresh : Partial} {change : Partial → Partial} {k : String} (f : String → Partial) :
    ∀ keys : List String, k ∈ keys → keys.Nodup →
      update k fresh change (keys.map fun k => (k, f k)) =
        keys.map fun other => (other, if other = k then change (f k) else f other)
  | [], hmem, _ => absurd hmem List.not_mem_nil
  | other :: rest, hmem, hnodup => by
    obtain ⟨hother, hrest⟩ := List.nodup_cons.mp hnodup
    rw [List.map_cons, List.map_cons, update]
    by_cases heq : other = k
    · subst heq
      have hkept : (rest.map fun k => (k, if k = other then change (f other) else f k)) = rest.map fun k => (k, f k) :=
        List.map_congr_left fun k hk => by rw [if_neg fun h : k = other => hother (h ▸ hk)]
      rw [hkept, if_pos (by simp), if_pos rfl]
    · have hmem' : k ∈ rest := (List.mem_cons.mp hmem).resolve_left fun h => heq h.symm
      rw [if_neg (by simp [heq]), if_neg heq, update_map f rest hmem' hrest]

/-- Rows taken one by one open a record for each group. -/
theorem foldl_enterBy (key : List Cell → Option String) (s : Shape) (rows : List (List Cell)) :
    rows.foldl (enterBy key s) [] = (keysOf key rows).map fun k => (k, ofGroup s (withKey key rows k)) := by
  -- from the end of the rows: the last one opens its group or is the last of it
  induction rows using List.reverseRecOn with
  | nil => rfl
  | append_singleton rows row ih =>
    rw [List.foldl_concat, ih, enterBy]
    cases hkey : key row with
    | none =>
      rw [keysOf_concat_none hkey]
      exact List.map_congr_left fun k _ => by rw [withKey_concat_other (by simp [hkey])]
    | some k =>
      by_cases hmem : k ∈ keysOf key rows
      · rw [keysOf_concat_mem hkey hmem]
        refine (update_map _ _ hmem (nodup_keysOf key rows)).trans (List.map_congr_left fun other _ => ?_)
        split
        · rename_i hsame
          rw [hsame, withKey_concat_same hkey, ofGroup_concat (withKey_ne_nil hmem)]
        · rename_i hother
          rw [withKey_concat_other fun h => hother (Option.some.inj (h.symm.trans hkey))]
      · have hnew : k ∉ ((keysOf key rows).map fun k => (k, ofGroup s (withKey key rows k))).map (·.1) := by
          rw [List.map_map]
          simpa using hmem
        have hold : ∀ other ∈ keysOf key rows, withKey key (rows ++ [row]) other = withKey key rows other :=
          fun other hother => withKey_concat_other fun h => hmem (Option.some.inj (hkey.symm.trans h) ▸ hother)
        have hopened := @update_append k (start row s) (merge row s) _ hnew []
        rw [List.append_nil] at hopened
        dsimp only
        rw [hopened, update, keysOf_concat_new hkey hmem, List.map_append, List.map_singleton,
          withKey_concat_same hkey, withKey_eq_nil hmem]
        congr 1
        exact List.map_congr_left fun other hother => by rw [hold other hother]

/-! ### Objects of groups -/

/-- What a row has as key of a record of the root: nothing, if it is too short. -/
def rootKey (s : Shape) (row : List Cell) : Option String :=
  (row[s.keySlot]?).map (·.identity)

/-- What a row has as key of a related record: nothing, if the cell is null or missing. -/
def relatedKey (s : Shape) (row : List Cell) : Option String :=
  let cell := cellAt row s.keySlot
  if cell.isNull then none else some cell.identity

mutual

/-- The object of a group of rows: its fields from the first row, its relations from all of them. A relation stands in
place of a field of its name. -/
def objectOf (columns : List SelectColumn) : Shape → List (List Cell) → Entries
  | ⟨_, _, slots, relations⟩, rows =>
    Entries.putAll
      (slots.map fun f => (f.name, (cellAt (rows.headD []) f.slot).toJson ((columns[f.slot]?).map (·.type))))
      (relationsOf columns relations rows)

/-- The relations of the object of a group of rows. -/
def relationsOf (columns : List SelectColumn) : List (Branch Shape) → List (List Cell) → Entries
  | [], _ => []
  | b :: rest, rows => relationOf columns b rows :: relationsOf columns rest rows

/-- A relation of the object of a group of rows: the objects of the groups of these rows by the related key, or the
first of them or null. -/
def relationOf (columns : List SelectColumn) : Branch Shape → List (List Cell) → String × Json
  | ⟨name, many, shape⟩, rows =>
    let objects := (groupsBy (relatedKey shape) rows).map fun group => Json.obj (objectOf columns shape group)
    (name, if many then .arr objects else objects.head?.getD .null)

end

variable {columns : List SelectColumn}

theorem mergeBranch_eq_enterBy (row : List Cell) (b : Branch Shape) (set : PartialSet) :
    mergeBranch row b set = enterBy (relatedKey b.shape) b.shape set row := by
  rw [mergeBranch_eq, enterBy, relatedKey]
  split <;> rfl

theorem fields_start (columns : List SelectColumn) (slots : List FieldSlot) (row : List Cell) :
    fields columns slots (slots.map fun f => cellAt row f.slot) =
      slots.map fun f => (f.name, (cellAt row f.slot).toJson ((columns[f.slot]?).map (·.type))) := by
  rw [fields, ← List.map_prod_left_eq_zip, List.map_map]
  rfl

mutual

theorem record_ofGroup (columns : List SelectColumn) : ∀ (s : Shape) (rows : List (List Cell)),
    record columns s (ofGroup s rows) = objectOf columns s rows
  | ⟨_, _, slots, relations⟩, rows => by
    rw [ofGroup, start, foldl_merge, record, fields_start, recordAll_foldl columns relations rows, objectOf]

theorem recordAll_foldl (columns : List SelectColumn) : ∀ (relations : List (Branch Shape)) (rows : List (List Cell)),
    recordAll columns relations
      (rows.foldl (fun sets row => mergeAll row relations sets) (relations.map fun _ => [])) =
        relationsOf columns relations rows
  | [], _ => rfl
  | b :: rest, rows => by
    rw [List.map_cons, foldl_mergeAll, recordAll, List.headD_cons, List.tail_cons, recordBranch_foldl columns b rows,
      recordAll_foldl columns rest rows, relationsOf]

theorem recordBranch_foldl (columns : List SelectColumn) : ∀ (b : Branch Shape) (rows : List (List Cell)),
    recordBranch columns b (rows.foldl (fun set row => mergeBranch row b set) []) = relationOf columns b rows
  | ⟨name, many, shape⟩, rows => by
    have hopened : rows.foldl (fun set row => mergeBranch row ⟨name, many, shape⟩ set) [] =
        (keysOf (relatedKey shape) rows).map fun k => (k, ofGroup shape (withKey (relatedKey shape) rows k)) :=
      (List.foldl_ext _ _ _ fun set row _ => mergeBranch_eq_enterBy row _ set).trans (foldl_enterBy _ shape rows)
    have hobjects : ((keysOf (relatedKey shape) rows).map fun k =>
          (k, ofGroup shape (withKey (relatedKey shape) rows k))).map (fun p => Json.obj (record columns shape p.2)) =
        (groupsBy (relatedKey shape) rows).map fun group => .obj (objectOf columns shape group) := by
      rw [groupsBy, List.map_map, List.map_map]
      exact List.map_congr_left fun k _ => congrArg Json.obj (record_ofGroup columns shape _)
    rw [hopened, recordBranch, hobjects, relationOf]

end

/-! ### Rows that are there already -/

mutual

theorem objectOf_append (columns : List SelectColumn) : ∀ (s : Shape) {rows more : List (List Cell)}, more ⊆ rows →
    objectOf columns s (rows ++ more) = objectOf columns s rows
  | ⟨_, _, slots, relations⟩, rows, more, h => by
    have hfirst : (rows ++ more).headD [] = rows.headD [] := by
      cases rows with
      | nil => rw [List.eq_nil_of_subset_nil h, List.append_nil]
      | cons first rest => rfl
    rw [objectOf, objectOf, hfirst, relationsOf_append columns relations h]

theorem relationsOf_append (columns : List SelectColumn) : ∀ (relations : List (Branch Shape))
    {rows more : List (List Cell)}, more ⊆ rows →
      relationsOf columns relations (rows ++ more) = relationsOf columns relations rows
  | [], _, _, _ => rfl
  | b :: rest, rows, more, h => by
    rw [relationsOf, relationsOf, relationOf_append columns b h, relationsOf_append columns rest h]

theorem relationOf_append (columns : List SelectColumn) : ∀ (b : Branch Shape) {rows more : List (List Cell)},
    more ⊆ rows → relationOf columns b (rows ++ more) = relationOf columns b rows
  | ⟨name, many, shape⟩, rows, more, h => by
    have hgroups : (groupsBy (relatedKey shape) (rows ++ more)).map (fun group => Json.obj (objectOf columns shape group)) =
        (groupsBy (relatedKey shape) rows).map fun group => .obj (objectOf columns shape group) := by
      rw [groupsBy, groupsBy, keysOf_append_of_subset fun row hrow k hk => mem_keysOf.mpr ⟨row, h hrow, hk⟩,
        List.map_map, List.map_map]
      refine List.map_congr_left fun k _ => congrArg Json.obj ?_
      rw [withKey_append]
      exact objectOf_append columns shape (List.filter_subset _ h)
    rw [relationOf, relationOf, hgroups]

end

end Partial

namespace Projection
open Partial

theorem openAll_eq_enterBy (s : Shape) : ∀ (rows : List (List Cell)) (set : PartialSet),
    openAll s rows set = rows.foldl (enterBy (rootKey s) s) set
  | [], _ => rfl
  | row :: rest, set => by
    rw [openAll, List.foldl_cons, enterBy, rootKey]
    cases row[s.keySlot]? with
    | none => exact openAll_eq_enterBy s rest set
    | some key => exact openAll_eq_enterBy s rest _

theorem hydrate_eq (p : Projection) (rows : List (List Cell)) :
    p.hydrate rows = (groupsBy (rootKey p.shape) rows).map (objectOf p.columns p.shape) := by
  rw [hydrate, openAll_eq_enterBy, foldl_enterBy, groupsBy, List.map_map, List.map_map]
  exact List.map_congr_left fun k _ => record_ofGroup p.columns p.shape _

/-- Hydration makes one record of each group of rows with the same key of the root, in the order of their first rows,
and copies of rows that are there change nothing. -/
theorem hydrate_groups (p : Projection) (rows : List (List Cell)) :
    p.hydrate rows = (groupsBy (rootKey p.shape) rows).map (objectOf p.columns p.shape) ∧
      ∀ more, more ⊆ rows → p.hydrate (rows ++ more) = p.hydrate rows := by
  refine ⟨hydrate_eq p rows, fun more h => ?_⟩
  rw [hydrate_eq, hydrate_eq, groupsBy, groupsBy,
    keysOf_append_of_subset fun row hrow k hk => mem_keysOf.mpr ⟨row, h hrow, hk⟩, List.map_map, List.map_map]
  refine List.map_congr_left fun k _ => ?_
  show objectOf _ _ _ = objectOf _ _ _
  rw [withKey_append]
  exact objectOf_append p.columns p.shape (List.filter_subset _ h)

/-- The row of a post that is there, a shorter row of another post with a row that differs from it, rows without a key
of the author, of the tags or of the root, and copies. -/
theorem hydrate_groups_posts :
    let rows : List (List Cell) :=
      [[.int 2, .text "b", .int 7, .int 3, .text "c", .int 1], [.int 1, .text "a"], [],
        [.int 1, .text "z", .null, .int 3, .text "y", .int 2], [.int 2, .text "x", .int 8, .int 3, .text "w", .int 1],
        [.int 2, .text "b", .int 7, .null, .null, .int 2]]
    let more : List (List Cell) := [[.int 1, .text "a"], [.int 2, .text "b", .int 7, .int 3, .text "c", .int 1], []]
    more ⊆ rows ∧
      Projection.posts.hydrate rows =
        [[("id", .int 2), ("title", .str "b"),
            ("author", .obj [("id", .int 7), ("posts", .arr [.obj [("id", .int 3), ("title", .str "c")]])]),
            ("tags", .arr [.obj [("id", .int 1)], .obj [("id", .int 2)]])],
          [("id", .int 1), ("title", .str "a"), ("author", .null), ("tags", .arr [.obj [("id", .int 2)]])]] ∧
      Projection.posts.hydrate (rows ++ more) = Projection.posts.hydrate rows := by
  intro rows more
  have hmore : more ⊆ rows := by decide
  exact ⟨hmore, (hydrate_groups Projection.posts rows).1.trans rfl, (hydrate_groups Projection.posts rows).2 more hmore⟩

end Projection
end RecordService
