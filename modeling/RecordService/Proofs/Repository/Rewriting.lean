import RecordService.Proofs.Record.Loading
import RecordService.Proofs.Repository.Replay

/-! # Links that are rewritten

The changes of a link set are the difference between the links that the store reports for a parent and those of the set.
Replayed on a store that tells keys apart as the service does, they leave the parent linked to exactly the records of
the set (`LinkSet.Rewritten`), and take from other parents only the targets that they claim. For that the two columns of
the link table have to differ: where a target is linked by its own primary key, the changes rewrite that key. -/

namespace RecordService

namespace Cell

theorem mem_without {c : Cell} {cells others : List Cell} :
    c ∈ Cell.without cells others ↔ c ∈ cells ∧ c.identity ∉ others.map Cell.identity := by
  simp [without]

theorem mem_identity_without {identity : String} {cells others : List Cell} :
    identity ∈ (Cell.without cells others).map Cell.identity ↔
      identity ∈ cells.map Cell.identity ∧ identity ∉ others.map Cell.identity := by
  simp only [List.mem_map, mem_without]
  constructor
  · rintro ⟨c, ⟨hc, hother⟩, rfl⟩
    exact ⟨⟨c, hc, rfl⟩, hother⟩
  · rintro ⟨⟨c, hc, rfl⟩, hother⟩
    exact ⟨c, ⟨hc, hother⟩, rfl⟩

end Cell

/-! ### Links in a database -/

/-- Whether the store takes the cells for equal if they have one identity, and are not null. -/
def Database.Discerns (db : Database) (cells : List Cell) : Prop :=
  ∀ a ∈ cells, ∀ b ∈ cells, db.equal a b = true ↔ a.identity = b.identity ∧ b.isNull = false

instance (db : Database) (cells : List Cell) : Decidable (db.Discerns cells) := by
  unfold Database.Discerns
  infer_instance

namespace LinkTable

variable (links : LinkTable) (db : Database) (parent : Cell)

/-- What the rows have in the two columns. -/
def pairs : List (Cell × Cell) :=
  (db.rows links.table).map fun row => (row links.parentKey, row links.targetKey)

/-- The cells of the two columns. -/
def cells : List Cell :=
  (db.rows links.table).flatMap fun row => [row links.parentKey, row links.targetKey]

/-- The targets that the store reports for a parent. -/
def reported : List Cell :=
  (((db.rows links.table).filter fun row => db.equal (row links.parentKey) parent).map (· links.targetKey)).filter
    (!·.isNull)

/-- The targets that are linked to a parent by its identity. -/
def targets : List Cell :=
  ((db.rows links.table).filter fun row => (row links.parentKey).identity == parent.identity).map (· links.targetKey)

variable {links db parent}

theorem cells_eq : links.cells db = (links.pairs db).flatMap fun pair => [pair.1, pair.2] := by
  simp [cells, pairs, List.flatMap_map]

theorem reported_eq : links.reported db parent =
    (((links.pairs db).filter fun pair => db.equal pair.1 parent).map (·.2)).filter (!·.isNull) := by
  simp [reported, pairs, List.filter_map, Function.comp_def]

theorem targets_eq : links.targets db parent =
    ((links.pairs db).filter fun pair => pair.1.identity == parent.identity).map (·.2) := by
  simp [targets, pairs, List.filter_map, Function.comp_def]

theorem mem_targets {target : Cell} :
    target ∈ links.targets db parent ↔
      ∃ row ∈ db.rows links.table, (row links.parentKey).identity = parent.identity ∧ row links.targetKey = target := by
  simp [targets, and_assoc]

theorem mem_identity_targets {identity : String} :
    identity ∈ (links.targets db parent).map Cell.identity ↔ ∃ row ∈ db.rows links.table,
      (row links.parentKey).identity = parent.identity ∧ (row links.targetKey).identity = identity := by
  simp [targets, and_assoc]

end LinkTable

/-! ### What the changes of a link set make of the rows -/

namespace Database

variable {db db' : Database} {links : LinkTable} {parent : Cell}

theorem After.unlink {keys : List Cell} (h : db.After (.unlink links parent keys) db') :
    db'.rows links.table = (db.rows links.table).filter fun row =>
      !(db.equal (row links.parentKey) parent && keys.any (db.equal (row links.targetKey))) := by
  obtain ⟨added, hadded, hrows⟩ := h.written
  cases hadded
  simpa [Change.table, without, Change.deletes, Change.edit] using hrows

theorem After.link {key : Cell} (h : db.After (.link links parent key) db') :
    ∃ row : TableRow, row.Has [(links.parentKey, parent), (links.targetKey, key)] ∧
      db'.rows links.table = db.rows links.table ++ [row] := by
  obtain ⟨added, hadded, hrows⟩ := h.written
  obtain ⟨row, _, hrow, hnil, rfl⟩ := List.forall₂_cons_right_iff.mp hadded
  cases hnil
  exact ⟨row, hrow, by simpa [Change.table, without, Change.deletes, Change.edit] using hrows⟩

theorem After.edits {c : Change} (h : db.After c db') (hadded : c.added? = none)
    (hdeletes : ∀ name row, c.deletes db.equal name row = false) :
    db'.rows c.table = (db.rows c.table).map (c.edit db.equal ·) := by
  obtain ⟨added, hnone, hrows⟩ := h.written
  rw [hadded] at hnone
  cases hnone
  simpa [without, hdeletes] using hrows

end Database

namespace LinkSet

variable {l : LinkSet} {db db' : Database} {parent : Cell} {detached attached : List Cell}

/-- New rows link a parent to some keys, and to no others. -/
structure Adds (l : LinkSet) (parent : Cell) (keys : List Cell) (added : List TableRow) : Prop where
  linked : ∀ row ∈ added, ∃ key ∈ keys, row.Has [(l.table.parentKey, parent), (l.table.targetKey, key)]
  all : ∀ key ∈ keys, ∃ row ∈ added, row.Has [(l.table.parentKey, parent), (l.table.targetKey, key)]

theorem has_cells (hcolumns : l.table.parentKey ≠ l.table.targetKey) {row : TableRow} {key : Cell}
    (hhas : row.Has [(l.table.parentKey, parent), (l.table.targetKey, key)]) :
    row l.table.parentKey = parent ∧ row l.table.targetKey = key := by
  have hne : (l.table.targetKey == l.table.parentKey) = false := beq_eq_false_iff_ne.mpr hcolumns.symm
  exact ⟨hhas l.table.parentKey parent (by simp), hhas l.table.targetKey key (by simp [List.lookup_cons, hne])⟩

theorem Adds.mem_identity {keys : List Cell} {added : List TableRow} (h : l.Adds parent keys added)
    (hcolumns : l.table.parentKey ≠ l.table.targetKey) {identity : String} :
    (∃ row ∈ added, (row l.table.parentKey).identity = parent.identity ∧
      (row l.table.targetKey).identity = identity) ↔ identity ∈ keys.map Cell.identity := by
  constructor
  · rintro ⟨row, hrow, -, rfl⟩
    obtain ⟨key, hkey, hhas⟩ := h.linked row hrow
    rw [(has_cells hcolumns hhas).2]
    exact List.mem_map_of_mem hkey
  · intro hidentity
    obtain ⟨key, hkey, rfl⟩ := List.mem_map.mp hidentity
    obtain ⟨row, hrow, hhas⟩ := h.all key hkey
    obtain ⟨hof, htarget⟩ := has_cells hcolumns hhas
    exact ⟨row, hrow, by rw [hof], by rw [htarget]⟩

theorem replays_link : ∀ {keys : List Cell} {db db' : Database},
    db.Replays (keys.map (.link l.table parent)) db' →
      ∃ added, l.Adds parent keys added ∧ db'.rows l.table.table = db.rows l.table.table ++ added
  | [], _, _, .nil _ => ⟨[], ⟨nofun, nofun⟩, by simp⟩
  | key :: rest, db, db', .cons hfirst hrest => by
    obtain ⟨row, hrow, hrows⟩ := hfirst.link
    obtain ⟨added, hadded, hmore⟩ := replays_link hrest
    refine ⟨row :: added, ⟨?_, ?_⟩, by rw [hmore, hrows, List.append_assoc]; rfl⟩
    · exact List.forall_mem_cons.mpr ⟨⟨key, List.mem_cons_self, hrow⟩, fun other hother =>
        (hadded.linked other hother).imp fun _ => And.imp_left (List.mem_cons_of_mem _)⟩
    · exact List.forall_mem_cons.mpr ⟨⟨row, List.mem_cons_self, hrow⟩, fun other hother =>
        (hadded.all other hother).imp fun _ => And.imp_left (List.mem_cons_of_mem _)⟩

/-- Through a junction, the rows of the parent that have a detached key go, and one comes for each attached key. -/
theorem replays_junction {j : Junction} (hj : l.relation.junction = some j)
    (h : db.Replays (l.changes parent detached attached) db') :
    ∃ added, l.Adds parent attached added ∧
      db'.rows l.table.table = ((db.rows l.table.table).filter fun row =>
        !(db.equal (row l.table.parentKey) parent && detached.any (db.equal (row l.table.targetKey)))) ++ added := by
  simp only [changes, hj] at h
  obtain ⟨between, hdetach, hattach⟩ := h.of_append
  obtain ⟨added, hadded, hrows⟩ := replays_link hattach
  refine ⟨added, hadded, ?_⟩
  rw [hrows]
  congr 1
  cases detached with
  | nil =>
    cases hdetach
    simp
  | cons key keys =>
    cases hdetach with
    | cons hfirst hnil =>
      cases hnil
      exact hfirst.unlink

/-- What becomes of the row of a target that holds its parent itself. -/
def moved (l : LinkSet) (equal : Cell → Cell → Bool) (parent : Cell) (detached attached : List Cell) (row : TableRow) :
    TableRow :=
  (Change.claim l.table parent attached).edit equal ((Change.release l.table detached).edit equal row)

theorem moved_cells (hcolumns : l.table.parentKey ≠ l.table.targetKey) (equal : Cell → Cell → Bool) (row : TableRow) :
    l.moved equal parent detached attached row l.table.targetKey = row l.table.targetKey ∧
      l.moved equal parent detached attached row l.table.parentKey =
        if attached.any (equal (row l.table.targetKey)) then parent
        else if detached.any (equal (row l.table.targetKey)) then .null
        else row l.table.parentKey := by
  have hset (keys : List Cell) (value : Cell) (row : TableRow) :
      let row' := if keys.any (equal (row l.table.targetKey)) then row.assign [(l.table.parentKey, value)] else row
      row' l.table.targetKey = row l.table.targetKey ∧
        row' l.table.parentKey = if keys.any (equal (row l.table.targetKey)) then value else row l.table.parentKey := by
    split
    · simp [TableRow.assign, hcolumns.symm]
    · exact ⟨rfl, rfl⟩
  have hkey : (Change.release l.table detached).edit equal row l.table.targetKey = row l.table.targetKey :=
    (hset detached .null row).1
  have hparent : (Change.release l.table detached).edit equal row l.table.parentKey =
      if detached.any (equal (row l.table.targetKey)) then .null else row l.table.parentKey :=
    (hset detached .null row).2
  obtain ⟨hkey', hparent'⟩ := hset attached parent ((Change.release l.table detached).edit equal row)
  exact ⟨hkey'.trans hkey, hparent'.trans (by rw [hkey, hparent])⟩

/-- Without a junction, detached targets lose their parent, and then attached ones get the new one. -/
theorem replays_direct (hj : l.relation.junction = none)
    (h : db.Replays (l.changes parent detached attached) db') :
    db'.rows l.table.table = (db.rows l.table.table).map (l.moved db.equal parent detached attached) := by
  simp only [changes, hj] at h
  obtain ⟨between, hdetach, hattach⟩ := h.of_append
  have hreleased : between.equal = db.equal ∧ between.rows l.table.table =
      (db.rows l.table.table).map ((Change.release l.table detached).edit db.equal ·) := by
    -- where nothing is detached or attached, nothing is written, and the edit leaves every row
    cases detached with
    | nil =>
      cases hdetach
      simp [Change.edit]
    | cons key keys =>
      cases hdetach with
      | cons hfirst hnil =>
        cases hnil
        exact ⟨hfirst.equal, hfirst.edits rfl fun _ _ => rfl⟩
  have hclaimed : db'.rows l.table.table =
      (between.rows l.table.table).map ((Change.claim l.table parent attached).edit between.equal ·) := by
    cases attached with
    | nil =>
      cases hattach
      simp [Change.edit]
    | cons key keys =>
      cases hattach with
      | cons hfirst hnil =>
        cases hnil
        exact hfirst.edits rfl fun _ _ => rfl
  rw [hclaimed, hreleased.1, hreleased.2, List.map_map]
  rfl

/-! ### The links that there are in the end -/

/-- A store whose links for a parent are reported by some keys: it tells the keys of the set, the parent and all that
the link table holds apart by their identities, and targets that hold their parent themselves by their primary key. -/
structure Stored (l : LinkSet) (db : Database) (parent : Cell) (keys : List Cell) : Prop where
  columns : l.table.parentKey ≠ l.table.targetKey
  reported : keys.Perm (l.table.reported db parent)
  discerns : db.Discerns (parent :: l.ids ++ l.table.cells db)
  keyed : l.relation.junction = none →
    ((db.rows l.table.table).map fun row => (row l.table.targetKey).identity).Nodup

/-- A parent is linked to exactly the records of the set; without a junction, to those of them that there were. -/
def Links (l : LinkSet) (parent : Cell) (db db' : Database) : Prop :=
  ∀ identity, identity ≠ Cell.null.identity →
    (identity ∈ (l.table.targets db' parent).map Cell.identity ↔ identity ∈ l.ids.map Cell.identity ∧
      (l.relation.junction = none → ∃ row ∈ db.rows l.table.table, (row l.table.targetKey).identity = identity))

/-- It takes only the two columns of the link table to know it. -/
theorem Links.of_pairs_eq {first last : Database} (h : l.Links parent db db')
    (hfirst : l.table.pairs db = l.table.pairs first) (hlast : l.table.pairs db' = l.table.pairs last) :
    l.Links parent first last := by
  have hrow (db : Database) (identity : String) :
      (∃ row ∈ db.rows l.table.table, (row l.table.targetKey).identity = identity) ↔
        ∃ pair ∈ l.table.pairs db, pair.2.identity = identity := by
    simp [LinkTable.pairs]
  unfold Links at *
  simp only [LinkTable.targets_eq, hrow] at *
  rwa [← hlast, ← hfirst]

theorem Stored.of_pairs_eq {keys : List Cell} (h : l.Stored db parent keys) (hequal : db'.equal = db.equal)
    (hpairs : l.table.pairs db' = l.table.pairs db) : l.Stored db' parent keys := by
  obtain ⟨hcolumns, hreported, hdiscerns, hkeyed⟩ := h
  have hkeys (db : Database) : (db.rows l.table.table).map (fun row => (row l.table.targetKey).identity) =
      (l.table.pairs db).map (·.2.identity) := by
    simp [LinkTable.pairs]
  refine ⟨hcolumns, ?_, ?_, ?_⟩
  · rwa [LinkTable.reported_eq, hequal, hpairs, ← LinkTable.reported_eq]
  · rwa [Database.Discerns, LinkTable.cells_eq, hequal, hpairs, ← LinkTable.cells_eq]
  · rwa [hkeys, hpairs, ← hkeys]

/-- The parent is linked to exactly the records of the set. Other parents keep their links unless one of their targets
is in the set and can have one parent only, and no other table changes. -/
structure Rewritten (l : LinkSet) (parent : Cell) (db db' : Database) : Prop where
  linked : l.Links parent db db'
  others : ∀ other : Cell, other.isNull = false → other.identity ≠ parent.identity →
    (l.relation.junction = none → ∀ target ∈ l.table.targets db other, target.identity ∉ l.ids.map Cell.identity) →
    l.table.targets db' other = l.table.targets db other
  tables : ∀ name, l.table.table ≠ name → db'.rows name = db.rows name

namespace Stored

theorem mem_cells {row : TableRow} (hrow : row ∈ db.rows l.table.table) :
    row l.table.parentKey ∈ l.table.cells db ∧ row l.table.targetKey ∈ l.table.cells db := by
  constructor
  · exact List.mem_flatMap.mpr ⟨row, hrow, List.mem_cons_self⟩
  · exact List.mem_flatMap.mpr ⟨row, hrow, List.mem_cons_of_mem _ (List.mem_singleton_self _)⟩

variable {keys : List Cell} (h : l.Stored db parent keys) (hparent : parent.isNull = false)
  (hids : ∀ id ∈ l.ids, id.isNull = false)
include h hparent

theorem equal_parent {row : TableRow} (hrow : row ∈ db.rows l.table.table) :
    db.equal (row l.table.parentKey) parent = true ↔ (row l.table.parentKey).identity = parent.identity := by
  rw [h.discerns _ (List.mem_append_right _ (mem_cells hrow).1) _ List.mem_cons_self, hparent]
  exact and_iff_left rfl

/-- The keys that are reported are those of the parent's targets, nulls apart. -/
theorem mem_keys {c : Cell} : c ∈ keys ↔ c ∈ l.table.targets db parent ∧ c.isNull = false := by
  rw [h.reported.mem_iff, LinkTable.mem_targets]
  simp only [LinkTable.reported, List.mem_filter, List.mem_map, Bool.not_eq_true']
  refine and_congr_left fun _ => exists_congr fun row => ?_
  rw [and_assoc]
  exact and_congr_right fun hrow => and_congr_left fun _ => h.equal_parent hparent hrow

theorem mem_identity_keys {identity : String} (hnull : identity ≠ Cell.null.identity) :
    identity ∈ keys.map Cell.identity ↔ identity ∈ (l.table.targets db parent).map Cell.identity := by
  simp only [List.mem_map, h.mem_keys hparent]
  refine exists_congr fun c => and_congr_left fun hc => and_iff_left_of_imp fun _ => ?_
  rw [← hc, Ne, Cell.identity_eq_null] at hnull
  exact Bool.eq_false_iff.mpr hnull

/-- A row of the parent has a key that is reported, a null apart. -/
theorem mem_keys_of_row {row : TableRow} (hrow : row ∈ db.rows l.table.table)
    (hof : (row l.table.parentKey).identity = parent.identity)
    (hnull : (row l.table.targetKey).identity ≠ Cell.null.identity) :
    (row l.table.targetKey).identity ∈ keys.map Cell.identity :=
  (h.mem_identity_keys hparent hnull).mpr (LinkTable.mem_identity_targets.mpr ⟨row, hrow, hof, rfl⟩)

/-- The only row that has the key of one of the parent's targets is the parent's. -/
theorem of_mem_keys (hj : l.relation.junction = none) {row : TableRow} (hrow : row ∈ db.rows l.table.table)
    (hkey : (row l.table.targetKey).identity ∈ keys.map Cell.identity) :
    (row l.table.parentKey).identity = parent.identity := by
  obtain ⟨key, hkey, hidentity⟩ := List.mem_map.mp hkey
  obtain ⟨row', hrow', hof, rfl⟩ := LinkTable.mem_targets.mp ((h.mem_keys hparent).mp hkey).1
  obtain rfl := List.inj_on_of_nodup_map (h.keyed hj) hrow' hrow hidentity
  exact hof

theorem others_junction {j : Junction} (hj : l.relation.junction = some j)
    (hreplays : db.Replays (l.changes parent (Cell.without keys l.ids) (Cell.without l.ids keys)) db') {other : Cell}
    (hother : other.identity ≠ parent.identity) : l.table.targets db' other = l.table.targets db other := by
  obtain ⟨added, hadded, hrows⟩ := replays_junction hj hreplays
  have hnone : added.filter (fun row => (row l.table.parentKey).identity == other.identity) = [] := by
    refine List.filter_eq_nil_iff.mpr fun row hrow => ?_
    obtain ⟨key, -, hhas⟩ := hadded.linked row hrow
    rw [(has_cells h.columns hhas).1]
    simpa using hother.symm
  unfold LinkTable.targets
  rw [hrows, List.filter_append, hnone, List.append_nil, List.filter_filter]
  refine congrArg (List.map _) (List.filter_congr fun row hrow => ?_)
  by_cases hof : (row l.table.parentKey).identity = other.identity
  · have hkept := mt (h.equal_parent hparent hrow).mp (hof ▸ hother)
    simp [hof, hkept]
  · simp [hof]

include hids

/-- A target has one of some keys, of the set or reported, if their identities are the same. -/
theorem any_equal {row : TableRow} (hrow : row ∈ db.rows l.table.table) {cells : List Cell}
    (hcells : ∀ c ∈ cells, c ∈ l.ids ∨ c ∈ keys) :
    cells.any (db.equal (row l.table.targetKey)) = true ↔
      (row l.table.targetKey).identity ∈ cells.map Cell.identity := by
  rw [List.any_eq_true, List.mem_map]
  refine exists_congr fun c => and_congr_right fun hc => ?_
  have hknown : c ∈ parent :: l.ids ++ l.table.cells db ∧ c.isNull = false := by
    rcases hcells c hc with hid | hkey
    · exact ⟨List.mem_append_left _ (List.mem_cons_of_mem _ hid), hids c hid⟩
    · obtain ⟨htarget, hnull⟩ := (h.mem_keys hparent).mp hkey
      obtain ⟨row', hrow', -, rfl⟩ := LinkTable.mem_targets.mp htarget
      exact ⟨List.mem_append_right _ (mem_cells hrow').2, hnull⟩
  rw [h.discerns _ (List.mem_append_right _ (mem_cells hrow).2) c hknown.1, hknown.2, eq_comm]
  exact and_iff_left rfl

theorem any_detached {row : TableRow} (hrow : row ∈ db.rows l.table.table) :
    (Cell.without keys l.ids).any (db.equal (row l.table.targetKey)) = true ↔
      (row l.table.targetKey).identity ∈ keys.map Cell.identity ∧
        (row l.table.targetKey).identity ∉ l.ids.map Cell.identity := by
  rw [h.any_equal hparent hids hrow fun c hc => Or.inr (Cell.mem_without.mp hc).1, Cell.mem_identity_without]

theorem any_attached {row : TableRow} (hrow : row ∈ db.rows l.table.table) :
    (Cell.without l.ids keys).any (db.equal (row l.table.targetKey)) = true ↔
      (row l.table.targetKey).identity ∈ l.ids.map Cell.identity ∧
        (row l.table.targetKey).identity ∉ keys.map Cell.identity := by
  rw [h.any_equal hparent hids hrow fun c hc => Or.inl (Cell.mem_without.mp hc).1, Cell.mem_identity_without]

/-- A row of the parent is spared if its target is in the set. -/
theorem spared_iff {row : TableRow} (hrow : row ∈ db.rows l.table.table)
    (hof : (row l.table.parentKey).identity = parent.identity)
    (hnull : (row l.table.targetKey).identity ≠ Cell.null.identity) :
    (!(db.equal (row l.table.parentKey) parent &&
        (Cell.without keys l.ids).any (db.equal (row l.table.targetKey)))) = true ↔
      (row l.table.targetKey).identity ∈ l.ids.map Cell.identity := by
  have hkey := h.mem_keys_of_row hparent hrow hof hnull
  rw [(h.equal_parent hparent hrow).mpr hof, Bool.true_and, Bool.not_eq_true', ← Bool.not_eq_true,
    h.any_detached hparent hids hrow, and_iff_right hkey, not_not]

theorem links_junction {j : Junction} (hj : l.relation.junction = some j)
    (hreplays : db.Replays (l.changes parent (Cell.without keys l.ids) (Cell.without l.ids keys)) db') :
    l.Links parent db db' := by
  obtain ⟨added, hadded, hrows⟩ := replays_junction hj hreplays
  intro identity hnull
  have hspared : (∃ row ∈ (db.rows l.table.table).filter fun row => !(db.equal (row l.table.parentKey) parent &&
        (Cell.without keys l.ids).any (db.equal (row l.table.targetKey))),
      (row l.table.parentKey).identity = parent.identity ∧ (row l.table.targetKey).identity = identity) ↔
      identity ∈ keys.map Cell.identity ∧ identity ∈ l.ids.map Cell.identity := by
    constructor
    · rintro ⟨row, hrow, hof, rfl⟩
      obtain ⟨hrow, hkept⟩ := List.mem_filter.mp hrow
      exact ⟨h.mem_keys_of_row hparent hrow hof hnull, (h.spared_iff hparent hids hrow hof hnull).mp hkept⟩
    · rintro ⟨hkey, hid⟩
      obtain ⟨row, hrow, hof, rfl⟩ := LinkTable.mem_identity_targets.mp ((h.mem_identity_keys hparent hnull).mp hkey)
      exact ⟨row, List.mem_filter.mpr ⟨hrow, (h.spared_iff hparent hids hrow hof hnull).mpr hid⟩, hof, rfl⟩
  -- a record of the set had its row already, or has got one
  rw [LinkTable.mem_identity_targets, hrows]
  simp only [List.mem_append, or_and_right, exists_or]
  rw [hspared, hadded.mem_identity h.columns, Cell.mem_identity_without, hj]
  by_cases hkey : identity ∈ keys.map Cell.identity <;> simp [hkey]

/-- In the end a row is the parent's if its target is in the set. -/
theorem moved_of_parent_iff (hj : l.relation.junction = none) {row : TableRow} (hrow : row ∈ db.rows l.table.table)
    (hnull : (row l.table.targetKey).identity ≠ Cell.null.identity) :
    (l.moved db.equal parent (Cell.without keys l.ids) (Cell.without l.ids keys) row l.table.parentKey).identity =
        parent.identity ↔
      (row l.table.targetKey).identity ∈ l.ids.map Cell.identity := by
  rw [(moved_cells h.columns db.equal row).2]
  split
  case isTrue hattached => exact iff_of_true rfl ((h.any_attached hparent hids hrow).mp hattached).1
  case isFalse hattached =>
    split
    case isTrue hdetached =>
      refine iff_of_false ?_ ((h.any_detached hparent hids hrow).mp hdetached).2
      rw [eq_comm, Cell.identity_eq_null, hparent]
      exact Bool.false_ne_true
    case isFalse hdetached =>
      rw [h.any_attached hparent hids hrow, not_and_not_right] at hattached
      rw [h.any_detached hparent hids hrow, not_and_not_right] at hdetached
      exact ⟨fun hof => hdetached (h.mem_keys_of_row hparent hrow hof hnull),
        fun hid => h.of_mem_keys hparent hj hrow (hattached hid)⟩

/-- A row stays with another parent, or away from it, unless its target is claimed. -/
theorem moved_of_other_iff (hj : l.relation.junction = none) {row : TableRow} (hrow : row ∈ db.rows l.table.table)
    {other : Cell} (hother : other.isNull = false) (hne : other.identity ≠ parent.identity)
    (hkept : (row l.table.parentKey).identity = other.identity →
      (row l.table.targetKey).identity ∉ l.ids.map Cell.identity) :
    (l.moved db.equal parent (Cell.without keys l.ids) (Cell.without l.ids keys) row l.table.parentKey).identity =
        other.identity ↔
      (row l.table.parentKey).identity = other.identity := by
  rw [(moved_cells h.columns db.equal row).2]
  split
  case isTrue hattached =>
    have hid := ((h.any_attached hparent hids hrow).mp hattached).1
    exact iff_of_false hne.symm fun hof => hkept hof hid
  case isFalse =>
    split
    case isTrue hdetached =>
      have hof := h.of_mem_keys hparent hj hrow ((h.any_detached hparent hids hrow).mp hdetached).1
      refine iff_of_false ?_ (hof ▸ hne.symm)
      rw [eq_comm, Cell.identity_eq_null, hother]
      exact Bool.false_ne_true
    case isFalse => rfl

theorem links_direct (hj : l.relation.junction = none)
    (hreplays : db.Replays (l.changes parent (Cell.without keys l.ids) (Cell.without l.ids keys)) db') :
    l.Links parent db db' := by
  intro identity hnull
  have hmem : identity ∈ (l.table.targets db' parent).map Cell.identity ↔ ∃ row ∈ db.rows l.table.table,
      (l.moved db.equal parent (Cell.without keys l.ids) (Cell.without l.ids keys) row l.table.parentKey).identity =
        parent.identity ∧ (row l.table.targetKey).identity = identity := by
    rw [LinkTable.mem_identity_targets, replays_direct hj hreplays]
    simp only [List.mem_map, exists_exists_and_eq_and, (moved_cells h.columns db.equal _).1]
  rw [hmem]
  constructor
  · rintro ⟨row, hrow, hof, rfl⟩
    exact ⟨(h.moved_of_parent_iff hparent hids hj hrow hnull).mp hof, fun _ => ⟨row, hrow, rfl⟩⟩
  · rintro ⟨hid, hexists⟩
    obtain ⟨row, hrow, rfl⟩ := hexists hj
    exact ⟨row, hrow, (h.moved_of_parent_iff hparent hids hj hrow hnull).mpr hid, rfl⟩

theorem others_direct (hj : l.relation.junction = none)
    (hreplays : db.Replays (l.changes parent (Cell.without keys l.ids) (Cell.without l.ids keys)) db') {other : Cell}
    (hother : other.isNull = false) (hne : other.identity ≠ parent.identity)
    (hkept : ∀ target ∈ l.table.targets db other, target.identity ∉ l.ids.map Cell.identity) :
    l.table.targets db' other = l.table.targets db other := by
  unfold LinkTable.targets
  rw [replays_direct hj hreplays, List.filter_map, List.map_map]
  have hsame : ∀ row ∈ db.rows l.table.table,
      ((l.moved db.equal parent (Cell.without keys l.ids) (Cell.without l.ids keys) row l.table.parentKey).identity ==
        other.identity) = ((row l.table.parentKey).identity == other.identity) := by
    intro row hrow
    rw [Bool.eq_iff_iff, beq_iff_eq, beq_iff_eq]
    exact h.moved_of_other_iff hparent hids hj hrow hother hne fun hof =>
      hkept _ (LinkTable.mem_targets.mpr ⟨row, hrow, hof, rfl⟩)
  refine (congrArg _ (List.filter_congr hsame)).trans (List.map_congr_left fun row _ => ?_)
  exact (moved_cells h.columns db.equal row).1

/-- However the links are stored, the difference of what is reported and the set makes it the set. -/
theorem rewritten (hreplays : db.Replays (l.changes parent (Cell.without keys l.ids) (Cell.without l.ids keys)) db') :
    l.Rewritten parent db db' where
  linked := by
    cases hj : l.relation.junction with
    | none => exact h.links_direct hparent hids hj hreplays
    | some j => exact h.links_junction hparent hids hj hreplays
  others other hother hne hkept := by
    cases hj : l.relation.junction with
    | none => exact h.others_direct hparent hids hj hreplays hother hne (hkept hj)
    | some j => exact h.others_junction hparent hj hreplays hne
  tables name hname := by
    refine hreplays.rows_eq fun c hc => ?_
    rwa [Change.table_of_linkTable? (linkTable?_of_mem_changes hc)]

end Stored

end LinkSet

/-! ### What is attached and detached -/

namespace Change

/-- The keys of the records that a change links to a parent. -/
def attached : Change → List Cell
  | link _ _ target => [target]
  | claim _ _ targets => targets
  | insert _ _ | update _ _ _ _ | delete _ _ _ | unlink _ _ _ | release _ _ => []

/-- The keys of the records that a change takes from a parent. -/
def detached : Change → List Cell
  | unlink _ _ targets | release _ targets => targets
  | insert _ _ | update _ _ _ _ | delete _ _ _ | link _ _ _ | claim _ _ _ => []

end Change

theorem relatedIds_eq_ok {field : String} {target : Table} {document : Json} {ids : List Cell}
    (h : relatedIds field target document = .ok ids) :
    (ids.map Cell.identity).Nodup ∧ ∀ id ∈ ids, id.isNull = false := by
  obtain ⟨cells, -, hids⟩ := bind_eq_ok.mp h
  obtain rfl := pure_eq_ok.mp hids
  refine ⟨Operand.nodup_distinct [] _, fun id hid => ?_⟩
  simpa using (List.mem_filter.mp ((Operand.distinct_sublist [] _).subset hid)).2

namespace LinkSet

open Operation

variable {l : LinkSet} {owner : Table} {row : Row} {events : List Event}

theorem attached_changes (parent : Cell) (detached attached : List Cell) :
    (l.changes parent detached attached).flatMap Change.attached = attached ∧
      (l.changes parent detached attached).flatMap Change.detached = detached := by
  have hlinks (f : Change → List Cell) : (attached.map (Change.link l.table parent)).flatMap f =
      attached.flatMap fun key => f (.link l.table parent key) := List.flatMap_map ..
  unfold changes
  cases l.relation.junction with
  | none => cases detached <;> cases attached <;> simp [Change.attached, Change.detached]
  | some _ => cases detached <;> simp [Change.attached, Change.detached, hlinks]

/-- Nothing is changed before all that is detached or attached has been looked for among the system records. -/
theorem apply_runs_change {result : Except Error Unit} (h : (l.apply owner row).Runs events result) {c : Change}
    {reply : Except Error Outcome} (hchange : ⟨.change c, reply⟩ ∈ events) :
    ∃ (rows : Rows) (looks performed : List Event),
      events = ⟨.query (.links l.table (row.cell l.relation.joinKey)), .ok rows⟩ :: looks ++ performed ∧
      Event.FindNothing (l.target.looks l.checkedColumn (Cell.without rows.keys l.ids) ++
        l.target.looks l.checkedColumn (Cell.without l.ids rows.keys)) looks ∧
      (perform (l.changes (row.cell l.relation.joinKey) (Cell.without rows.keys l.ids)
        (Cell.without l.ids rows.keys))).Runs performed result := by
  have hthrow (e : Error) : (throw e : Operation PUnit).OnlyAsks (∀ c, · ≠ .change c) := .throw e
  have hchecks (column relation : String) (action : LinkAction) (ids : List Cell) :
      (l.target.checkLinks column relation action ids).OnlyAsks (∀ c, · ≠ .change c) :=
    Table.checkLinks_asks (fun _ _ => nofun) ..
  unfold apply at h
  dsimp only at h
  split at h
  · obtain ⟨_, _, _, habsurd, -⟩ := runs_bind_of_change (hthrow _) h hchange
    cases (runs_throw.mp habsurd).2
  have hcurrent : (l.current (row.cell l.relation.joinKey)).OnlyAsks (∀ c, · ≠ .change c) :=
    .bind (.query fun _ => nofun) fun _ => .pure _
  obtain ⟨_, current, _, hfound, hmore, hlater, rfl⟩ := runs_bind_of_change hcurrent h hchange
  obtain ⟨rows, rfl, rfl⟩ := current_runs_ok hfound
  split at hmore
  · obtain ⟨rfl, -⟩ := runs_pure.mp hmore
    cases hlater
  split at hmore
  · obtain ⟨_, _, _, habsurd, -⟩ := runs_bind_of_change (hthrow _) hmore hlater
    cases (runs_throw.mp habsurd).2
  obtain ⟨_, _, _, hold, hrest, hlast, rfl⟩ := runs_bind_of_change (hchecks ..) hmore hlater
  obtain ⟨_, _, performed, hnew, hperform, -, rfl⟩ := runs_bind_of_change (hchecks ..) hrest hlast
  exact ⟨rows, _, performed, by simp, List.rel_append (Table.checkLinks_runs_ok hold) (Table.checkLinks_runs_ok hnew),
    hperform⟩

/-- What a successful run changes is the difference of the links that are reported and the set. -/
theorem Applied.changes (h : l.Applied owner row events) :
    ∃ (rows : Rows) (rest : List Event),
      events = ⟨.query (.links l.table (row.cell l.relation.joinKey)), .ok rows⟩ :: rest ∧
      (row.cell l.relation.joinKey).isNull = false ∧
      events.filterMap Event.change? = l.changes (row.cell l.relation.joinKey) (Cell.without rows.keys l.ids)
        (Cell.without l.ids rows.keys) ∧
      (Cell.SameKeys rows.keys l.ids → rest = []) := by
  cases h with
  | @kept rows hparent hattached hdetached =>
    refine ⟨rows, [], rfl, hparent, ?_, fun _ => rfl⟩
    rw [hattached, hdetached]
    unfold LinkSet.changes
    cases l.relation.junction <;> rfl
  | @moved rows looks performed detached attached hparent hdetached hattached hdiffer _ hlooks hchanges =>
    subst hdetached hattached
    refine ⟨rows, _, by rw [List.cons_append], hparent, ?_, fun hsame => ?_⟩
    · have hnone : looks.filterMap Event.change? = [] := hlooks.filterMap_eq_nil fun _ _ => rfl
      rw [List.cons_append, List.filterMap_cons, List.filterMap_append, hnone]
      exact hchanges.filterMap_change?
    · obtain ⟨hdetached, hattached⟩ := Cell.sameKeys_iff.mp hsame
      exact absurd ⟨hattached, hdetached⟩ hdiffer

/-- A run that links the record of a row to exactly the records of a set, as a payload lists them, changes nothing
before all that it detaches and attaches has been looked for among the system records. If it succeeds, it has asked for
the links of the parent, and for nothing else if they are those of the set; it attaches each record of the set once that
is not linked, and detaches those that are not in the set; and this makes the links those of the set, in every store for
which the links are as reported. -/
theorem links_rewritten {field : String} {document : Json} {result : Except Error Unit}
    (hids : relatedIds field l.target document = .ok l.ids) (h : (l.apply owner row).Runs events result) :
    (∀ c reply, ⟨.change c, reply⟩ ∈ events → ∃ (rows : Rows) (looks performed : List Event),
      events = ⟨.query (.links l.table (row.cell l.relation.joinKey)), .ok rows⟩ :: looks ++ performed ∧
      Event.FindNothing (l.target.looks l.checkedColumn (Cell.without rows.keys l.ids) ++
        l.target.looks l.checkedColumn (Cell.without l.ids rows.keys)) looks ∧
      ∀ event ∈ performed, ∃ c, event.step = .change c) ∧
    (result = .ok () → ∃ (rows : Rows) (rest : List Event),
      events = ⟨.query (.links l.table (row.cell l.relation.joinKey)), .ok rows⟩ :: rest ∧
      (Cell.SameKeys rows.keys l.ids → rest = []) ∧
      let changes := events.filterMap Event.change?
      ((changes.flatMap Change.attached).map Cell.identity).Nodup ∧
      (∀ identity, identity ∈ (changes.flatMap Change.attached).map Cell.identity ↔
        identity ∈ l.ids.map Cell.identity ∧ identity ∉ rows.keys.map Cell.identity) ∧
      (∀ identity, identity ∈ (changes.flatMap Change.detached).map Cell.identity ↔
        identity ∈ rows.keys.map Cell.identity ∧ identity ∉ l.ids.map Cell.identity) ∧
      ∀ db db' : Database, l.Stored db (row.cell l.relation.joinKey) rows.keys → db.Replays changes db' →
        l.Rewritten (row.cell l.relation.joinKey) db db') := by
  obtain ⟨hnodup, hnulls⟩ := relatedIds_eq_ok hids
  constructor
  · intro c reply hchange
    obtain ⟨rows, looks, performed, hevents, hlooks, hperform⟩ := apply_runs_change h hchange
    have hchanges : (perform (l.changes (row.cell l.relation.joinKey) (Cell.without rows.keys l.ids)
        (Cell.without l.ids rows.keys))).OnlyAsks (∃ c, · = .change c) := perform_asks fun c _ => ⟨c, rfl⟩
    exact ⟨rows, looks, performed, hevents, hlooks, hchanges.steps _ _ hperform⟩
  · rintro rfl
    obtain ⟨rows, rest, hevents, hparent, hchanges, hsame⟩ := (apply_runs_ok h).changes
    refine ⟨rows, rest, hevents, hsame, ?_⟩
    dsimp only
    rw [hchanges, (attached_changes ..).1, (attached_changes ..).2]
    have hsublist : (Cell.without l.ids rows.keys).Sublist l.ids := List.filter_sublist
    exact ⟨hnodup.sublist (hsublist.map _), fun _ => Cell.mem_identity_without, fun _ => Cell.mem_identity_without,
      fun db db' hstored hreplays => hstored.rewritten hparent hnulls hreplays⟩

end LinkSet

/-! ### The tags of a post -/

namespace LinkSet

/-- A post is to have the second tag and the third. -/
def retagged : LinkSet :=
  ⟨.through "tags" "tags" "posts_tags" "postId" "tagId", .tags, [.int 2, .int 3]⟩

theorem replays_retagged :
    (Database.taggings [.tagging 1 1, .tagging 1 2, .tagging 2 1]).Replays
      (retagged.changes (.int 1) [.int 1] [.int 3]) (.taggings [.tagging 1 2, .tagging 2 1, .tagging 1 3]) := by
  have hother {links links' : List TableRow} (name : String) (hname : "posts_tags" ≠ name) :
      (Database.taggings links').rows name = (Database.taggings links).rows name := by
    simp [Database.taggings, hname.symm]
  have hunlink : (Database.taggings [.tagging 1 1, .tagging 1 2, .tagging 2 1]).After
      (.unlink retagged.table (.int 1) [.int 1]) (.taggings [.tagging 1 2, .tagging 2 1]) :=
    ⟨rfl, hother, [], .nil, rfl⟩
  have hrow : (TableRow.tagging 1 3).Has [("postId", .int 1), ("tagId", .int 3)] := by
    intro column value hvalue
    by_cases hpost : column = "postId"
    · subst hpost
      exact Option.some.inj hvalue
    · rw [List.lookup_cons, beq_eq_false_iff_ne.mpr hpost] at hvalue
      by_cases htag : column = "tagId"
      · subst htag
        exact Option.some.inj hvalue
      · rw [List.lookup_cons, beq_eq_false_iff_ne.mpr htag] at hvalue
        cases hvalue
  have hlink : (Database.taggings [.tagging 1 2, .tagging 2 1]).After (.link retagged.table (.int 1) (.int 3))
      (.taggings [.tagging 1 2, .tagging 2 1, .tagging 1 3]) :=
    ⟨rfl, hother, [.tagging 1 3], .cons hrow .nil, rfl⟩
  exact .cons hunlink (.cons hlink (.nil _))

/-- It has the first two, and loses the first for the third. The other post keeps its tag. -/
theorem links_rewritten_tagged :
    let session := Session.start .tagged .standard [.success ⟨["tagId"], [[.int 1], [.int 2]]⟩ ⟨1, none⟩]
    let posts := { Table.start "posts" with relations := [retagged.relation] }
    let events := (retagged.apply posts [("id", .int 1)]).events Session.answer session
    let db := Database.taggings [.tagging 1 1, .tagging 1 2, .tagging 2 1]
    let db' := Database.taggings [.tagging 1 2, .tagging 2 1, .tagging 1 3]
    db.Replays (events.filterMap Event.change?) db' ∧ retagged.Rewritten (.int 1) db db' := by
  intro session posts events db db'
  have hids : relatedIds "tags" retagged.target (.arr [.int 2, .int 3]) = .ok retagged.ids := by rfl
  have hruns := Operation.runs_result Session.answer (retagged.apply posts [("id", .int 1)]) session
  have hresult : (retagged.apply posts [("id", .int 1)]).result Session.answer session = .ok () := by rfl
  obtain ⟨-, hrewritten⟩ := links_rewritten hids hruns
  obtain ⟨rows, rest, hevents, -, -, -, -, hstore⟩ := hrewritten hresult
  have hchanges : events.filterMap Event.change? = retagged.changes (.int 1) [.int 1] [.int 3] := by decide +kernel
  have hkeys : rows.keys = [.int 1, .int 2] := by
    have hlinks : events.filterMap Event.links? = [(retagged.table, .int 1, [.int 1, .int 2])] := by decide +kernel
    rw [show events = _ from hevents] at hlinks
    exact (Prod.mk.inj (Prod.mk.inj (List.cons.inj hlinks).1).2).2
  have hstored : retagged.Stored db (.int 1) rows.keys := by
    rw [hkeys]
    exact ⟨by decide, .of_eq rfl, by decide +kernel, nofun⟩
  have hreplays := hchanges ▸ replays_retagged
  exact ⟨hreplays, hstore db db' hstored hreplays⟩

end LinkSet

/-! ### Profiles that share the keys of users -/

/-- Users, each of which has the profile with its own key. -/
def Catalog.profiled : Catalog where
  tables :=
    [{ Table.start "users" with relations := [.direct "profile" .one "profiles" "id" "id"] }, .start "profiles"]
  sound := by decide +kernel

def Database.profiles (rows : List TableRow) : Database where
  rows name := if name = "profiles" then rows else []
  equal a b := a == b

/-- A user is to have the profile that belongs to another key. This profile gets the key of the user: it is not the one
that was asked for any more, which there is none of then. -/
theorem profile_rekeyed :
    let session := Session.start .profiled .standard [.success ⟨["id"], [[.int 1]]⟩ ⟨1, none⟩]
    let payload := .obj [("profile", .arr [.int 2])]
    let events := ((Repository.standard "users").update (.int 1) payload).events Session.answer session
    let links : LinkTable := ⟨"profiles", "id", "id"⟩
    let profile : TableRow := fun column => if column = "id" then .int 2 else .null
    let db := Database.profiles [profile]
    let db' := Database.profiles [profile.assign [("id", .int 1)]]
    ⟨.commit, .ok ()⟩ ∈ events ∧ events.filterMap Event.change? = [.claim links (.int 1) [.int 2]] ∧
    db.Replays [.claim links (.int 1) [.int 2]] db' ∧ links.targets db' (.int 1) = [.int 1] ∧
    links.targets db' (.int 2) = [] := by
  intro session payload events links profile db db'
  have hother (name : String) (hname : "profiles" ≠ name) : db'.rows name = db.rows name := by
    simp [db, db', Database.profiles, hname.symm]
  have hclaim : db.After (.claim links (.int 1) [.int 2]) db' := ⟨rfl, hother, [], .nil, rfl⟩
  exact ⟨Event.commit_mem_iff.mpr (by decide +kernel), by decide +kernel, .cons hclaim (.nil _), by decide +kernel,
    by decide +kernel⟩

end RecordService
