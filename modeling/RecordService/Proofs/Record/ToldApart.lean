import RecordService.Proofs.Record.Grouping
import RecordService.Proofs.Sql.Identities
import RecordService.Record.Deferred
import RecordService.Repository.Links

/-! # Keys told apart

Records, links and ids are compared by the text of their identities and not by their cells. This makes no difference
(`identities_tell_apart`): each comparison gives what a comparison of the keys themselves would give, so that no two
records are merged, no link is lost and no id is dropped because of the texts. -/

namespace RecordService

/-! ### Groups by another key -/

section
variable {α κ τ : Type} [BEq κ] [LawfulBEq κ] [BEq τ] [LawfulBEq τ]
variable {key : α → Option κ} {written : α → Option τ} {text : κ → τ}

/-- The texts of keys are written each once, in the order of the keys, if they are different texts. -/
theorem keysOf_written (hwritten : ∀ x, written x = (key x).map text)
    (htext : ∀ x y k l, key x = some k → key y = some l → text k = text l → k = l) (items : List α) :
    keysOf written items = (keysOf key items).map text := by
  induction items using List.reverseRecOn with
  | nil => rfl
  | append_singleton items item ih =>
    cases hkey : key item with
    | none => rw [keysOf_concat_none hkey, keysOf_concat_none (by rw [hwritten, hkey, Option.map_none]), ih]
    | some k =>
      have hitem : written item = some (text k) := by rw [hwritten, hkey, Option.map_some]
      by_cases hmem : k ∈ keysOf key items
      · rw [keysOf_concat_mem hkey hmem, keysOf_concat_mem hitem (ih ▸ List.mem_map_of_mem hmem), ih]
      · have hnew : text k ∉ keysOf written items := by
          rw [ih, List.mem_map]
          rintro ⟨l, hl, htl⟩
          obtain ⟨other, -, hother⟩ := mem_keysOf.mp hl
          exact hmem (htext other item l k hother hkey htl ▸ hl)
        rw [keysOf_concat_new hkey hmem, keysOf_concat_new hitem hnew, ih, List.map_append, List.map_singleton]

/-- Items are in one group by the texts of their keys just if they are in one by the keys. -/
theorem groupsBy_written (hwritten : ∀ x, written x = (key x).map text)
    (htext : ∀ x y k l, key x = some k → key y = some l → text k = text l → k = l) (items : List α) :
    groupsBy written items = groupsBy key items := by
  rw [groupsBy, groupsBy, keysOf_written hwritten htext, List.map_map]
  refine List.map_congr_left fun k hk => List.filter_congr fun x _ => ?_
  obtain ⟨y, -, hy⟩ := mem_keysOf.mp hk
  rw [Bool.eq_iff_iff, beq_iff_eq, beq_iff_eq, hwritten, Option.map_eq_some_iff]
  constructor
  · rintro ⟨l, hl, hlk⟩
    rw [hl, htext x y l k hl hy hlk]
  · exact fun hx => ⟨k, hx, rfl⟩

end

/-! ### Records -/

namespace Partial

/-- The key of a record of the root that a row holds. -/
def rootCell (s : Shape) (row : List Cell) : Option Cell :=
  (row[s.keySlot]?).map (·.key)

/-- The key of a related record that a row holds. -/
def relatedCell (s : Shape) (row : List Cell) : Option Cell :=
  let cell := cellAt row s.keySlot
  if cell.isNull then none else some cell.key

theorem rootKey_eq (s : Shape) (row : List Cell) : rootKey s row = (rootCell s row).map (·.identity) := by
  simp [rootKey, rootCell, Function.comp_def, Cell.identity_key]

theorem relatedKey_eq (s : Shape) (row : List Cell) : relatedKey s row = (relatedCell s row).map (·.identity) := by
  simp only [relatedKey, relatedCell]
  split
  · rfl
  · rw [Option.map_some, Cell.identity_key]

theorem key_of_rootCell {s : Shape} {row : List Cell} {k : Cell} (h : rootCell s row = some k) : k.key = k := by
  obtain ⟨c, -, rfl⟩ := Option.map_eq_some_iff.mp h
  exact c.key_key

theorem key_of_relatedCell {s : Shape} {row : List Cell} {k : Cell} (h : relatedCell s row = some k) :
    k.key = k := by
  simp only [relatedCell] at h
  split at h
  · cases h
  · exact Option.some.inj h ▸ Cell.key_key _

theorem groupsBy_rootKey (s : Shape) (rows : List (List Cell)) :
    groupsBy (rootKey s) rows = groupsBy (rootCell s) rows := by
  refine groupsBy_written (rootKey_eq s) (fun x y k l hk hl h => ?_) rows
  rw [← key_of_rootCell hk, ← key_of_rootCell hl, Cell.key_eq_of_identity h]

theorem groupsBy_relatedKey (s : Shape) (rows : List (List Cell)) :
    groupsBy (relatedKey s) rows = groupsBy (relatedCell s) rows := by
  refine groupsBy_written (relatedKey_eq s) (fun x y k l hk hl h => ?_) rows
  rw [← key_of_relatedCell hk, ← key_of_relatedCell hl, Cell.key_eq_of_identity h]

end Partial

/-! ### Links and ids -/

namespace DeferredLink

/-- Whether a link row has the key of a parent. -/
def isOwn (l : DeferredLink) (parent : Entries) (row : List Cell) : Bool :=
  row.head?.map (·.key) == some (l.parentKey parent).key

theorem identity_of_related? {l : DeferredLink} {row : List Cell} {id : String} {d : Json}
    (h : l.related? row = some (id, d)) : ∃ c, row.head? = some c ∧ c.identity = id := by
  unfold related? at h
  split at h
  · rename_i c target rest
    split at h
    · cases h
    · exact ⟨c, rfl, (Prod.mk.inj (Option.some.inj h)).1⟩
  · cases h

/-- A parent gets the related records of the rows that have its key. -/
theorem attach_rows (l : DeferredLink) (rows : List (List Cell)) (parent : Entries) :
    l.attach (rows.filterMap l.related?) parent =
      Entries.put parent l.name
        (.arr ((rows.filter (l.isOwn parent)).filterMap fun row => (l.related? row).map (·.2))) := by
  rw [attach, List.filter_filterMap, List.map_filterMap, List.filterMap_filter]
  congr 2
  refine List.filterMap_congr fun row _ => ?_
  cases hrow : l.related? row with
  | none => simp
  | some related =>
    obtain ⟨c, hc, hid⟩ := identity_of_related? hrow
    have hown : l.isOwn parent row = (related.1 == (l.parentKey parent).identity) := by
      rw [isOwn, hc, ← hid, Bool.eq_iff_iff, beq_iff_eq, beq_iff_eq, Cell.identity_eq_iff, Option.map_some,
        Option.some.injEq]
    rw [hown, Option.filter_some, apply_ite (Option.map _), Option.map_none]

end DeferredLink

/-- The ids of a list have its keys, each once, in the order in which they are first seen. -/
theorem Operand.map_key_distinct (seen : List String) (cells : List Cell) :
    (distinct seen cells).map (·.key) =
      ((cells.map (·.key)).filter fun k => !seen.contains k.identity).eraseDups := by
  induction cells generalizing seen with
  | nil => rfl
  | cons c rest ih =>
    rw [distinct, List.map_cons, List.filter_cons, Cell.identity_key]
    split
    · rename_i hseen
      rw [ih, hseen, Bool.not_true, if_neg Bool.false_ne_true]
    · rename_i hnew
      rw [Bool.not_eq_true] at hnew
      rw [List.map_cons, ih, hnew, Bool.not_false, if_pos rfl, List.eraseDups_cons, List.filter_filter]
      congr 2
      refine List.filter_congr fun k hk => ?_
      obtain ⟨d, -, rfl⟩ := List.mem_map.mp hk
      have hsame : (d.key.identity == c.identity) = (d.key == c.key) := by
        rw [Cell.identity_key, Bool.eq_iff_iff, beq_iff_eq, beq_iff_eq, Cell.identity_eq_iff]
      rw [List.contains_cons, hsame, Bool.not_or]

theorem Operand.map_key_distinct_nil (cells : List Cell) :
    (distinct [] cells).map (·.key) = (cells.map (·.key)).eraseDups :=
  (map_key_distinct [] cells).trans (congrArg List.eraseDups (List.filter_eq_self.mpr fun _ _ => rfl))

/-- The cells whose keys are not among others. -/
theorem Cell.without_eq (cells others : List Cell) :
    without cells others = cells.filter fun c => c.key ∉ others.map (·.key) := by
  refine List.filter_congr fun c _ => ?_
  have hmem : c.identity ∈ others.map (·.identity) ↔ c.key ∈ others.map (·.key) := by
    simp only [List.mem_map, identity_eq_iff]
  rw [Bool.eq_iff_iff, Bool.not_eq_true', List.contains_eq_mem, decide_eq_false_iff_not, hmem, decide_eq_true_eq]

/-! ### Identities -/

open Partial

/-- Cells that are printed apart, as all doubles but NaN are, have one identity just if they are one cell, or a truth
value and the integer that it is stored as; cells of two kinds never have one. So every comparison by identity is one
of keys. Rows are in one record just if they have one key of the root, and in one related record just if they have one
key of it. The keys of parents are asked for each once, and a parent gets the related records of the rows of its key. A
test of a set binds the keys of its list each once. Links are kept, attached and detached by their keys. -/
theorem identities_tell_apart :
    (∀ a b : Cell, a.PrintedApart b → (a.identity = b.identity ↔ a = b ∨ a.StoredAs b ∨ b.StoredAs a)) ∧
      (∀ a b : Cell, a.PrintedApart b ∨ ∃ x y, a = .float x ∧ b = .float y ∧ x.isNaN = true ∧ y.isNaN = true) ∧
      (∀ a b : Cell, a.identity = b.identity → a.kind = b.kind) ∧
      (∀ a b : Cell, a.identity = b.identity ↔ a.key = b.key) ∧
      (∀ (p : Projection) (rows : List (List Cell)),
        p.hydrate rows = (groupsBy (rootCell p.shape) rows).map (objectOf p.columns p.shape)) ∧
      (∀ (columns : List SelectColumn) (b : Branch Shape) (rows : List (List Cell)),
        let objects := (groupsBy (relatedCell b.shape) rows).map fun group => Json.obj (objectOf columns b.shape group)
        relationOf columns b rows = (b.name, if b.many then .arr objects else objects.head?.getD .null)) ∧
      (∀ (l : DeferredLink) (parents : List Entries), (l.parentKeys parents).map (·.key) =
        (((parents.map l.parentKey).filter (!·.isNull)).map (·.key)).eraseDups) ∧
      (∀ (l : DeferredLink) (rows : List (List Cell)) (parent : Entries),
        l.attach (rows.filterMap l.related?) parent = Entries.put parent l.name
          (.arr ((rows.filter (l.isOwn parent)).filterMap fun row => (l.related? row).map (·.2)))) ∧
      (∀ (p : Predicate) (type : ScalarType) (links : LinkTable) (scratch : String) (parent : Sql.ColumnRef)
          (cells : List Cell), Operand.list? p.operand type = some cells →
        ∃ ids, p.setTest type links scratch parent = .ok (.setEq links scratch parent ids) ∧
          ids.map (·.key) = (cells.map (·.key)).eraseDups) ∧
      ∀ cells others : List Cell, Cell.without cells others = cells.filter fun c => c.key ∉ others.map (·.key) := by
  refine ⟨fun a b hprinted => ?_, Cell.printedApart_or_isNaN, fun a b => Cell.kind_eq_of_identity,
    fun a b => Cell.identity_eq_iff, fun p rows => ?_, fun columns b rows => ?_, fun l parents => ?_,
    DeferredLink.attach_rows, fun p type links scratch parent cells hlist => ?_, Cell.without_eq⟩
  · rw [Cell.identity_eq_iff, Cell.key_eq_iff hprinted]
  · rw [Projection.hydrate_eq, groupsBy_rootKey]
  · rw [relationOf, groupsBy_relatedKey]
  · exact Operand.map_key_distinct_nil _
  · exact ⟨Operand.distinct [] cells, by rw [Predicate.setTest, hlist], Operand.map_key_distinct_nil cells⟩

/-- True and 1, the two zeros, lists of bytes with the same digits, a text that reads like one, and a list with a key
named twice. -/
theorem identities_tell_apart_cells :
    (Cell.bool true).identity = (Cell.int 1).identity ∧
      (Cell.float ⟨0⟩).PrintedApart (.float ⟨0x8000000000000000⟩) ∧
      (Cell.float ⟨0⟩).identity ≠ (Cell.float ⟨0x8000000000000000⟩).identity ∧
      (Cell.bytes [1, 2]).identity ≠ (Cell.bytes [12]).identity ∧
      (Cell.bytes [1, 2]).identity ≠ (Cell.text "[1, 2]").identity ∧
      Operand.list? (.arr [.int 1, .bool true, .int 2]) .int = some [.int 1, .bool true, .int 2] ∧
      ∃ ids, Predicate.setTest ⟨⟨["tags"]⟩, .eqSet, .arr [.int 1, .bool true, .int 2]⟩ .int
          ⟨"posts_tags", "postId", "tagId"⟩ "s0" ⟨"t0", "id"⟩ =
            .ok (.setEq ⟨"posts_tags", "postId", "tagId"⟩ "s0" ⟨"t0", "id"⟩ ids) ∧
        ids.map (·.key) = [.int 1, .int 2] := by
  obtain ⟨hsame, -, hkind, -, -, -, -, -, hset, -⟩ := identities_tell_apart
  have hzeros : (Cell.float ⟨0⟩).PrintedApart (.float ⟨0x8000000000000000⟩) := by
    rintro x y ⟨⟩ ⟨⟩ hwrite
    exact absurd hwrite (by decide)
  have hlist : Operand.list? (.arr [.int 1, .bool true, .int 2]) .int = some [.int 1, .bool true, .int 2] := rfl
  refine ⟨(hsame (.bool true) (.int 1) nofun).mpr (Or.inr (Or.inl ⟨true, rfl, rfl⟩)), hzeros, fun h => ?_, fun h => ?_,
    fun h => ?_, hlist, ?_⟩
  · rcases (hsame _ _ hzeros).mp h with heq | ⟨v, heq, -⟩ | ⟨v, heq, -⟩ <;> cases heq
  · rcases (hsame (.bytes [1, 2]) (.bytes [12]) nofun).mp h with heq | ⟨v, heq, -⟩ | ⟨v, heq, -⟩ <;> cases heq
  · cases hkind _ _ h
  · obtain ⟨ids, htest, hids⟩ := hset ⟨⟨["tags"]⟩, .eqSet, .arr [.int 1, .bool true, .int 2]⟩ .int
      ⟨"posts_tags", "postId", "tagId"⟩ "s0" ⟨"t0", "id"⟩ _ hlist
    exact ⟨ids, htest, hids.trans (by decide)⟩

end RecordService
