import RecordService.Proofs.Repository.Assignments
import RecordService.Proofs.Repository.Rewriting

/-! # The keys that links are bound to

The links of a record are asked for and changed by the value that its join key has in the row that was loaded
(`Changes.Binds`). A creation loads the row after it has been inserted, but an update loads it first and assigns columns
last, and the value of a join key that it assigns is another one then (`Changes.final`). So a relation is linked to the
records of its set through the key that the record ends up with if the payload does not assign its join key; it never
assigns the primary key. -/

namespace RecordService

/-! ### Rows that are left or assigned -/

theorem Row.lookup_reverse_eq_none {values : Row} {column : String} (h : ∀ v ∈ values, v.1 ≠ column) :
    values.reverse.lookup column = none :=
  List.lookup_eq_none_iff.mpr fun v hv => bne_iff_ne.mpr (h v (List.mem_reverse.mp hv)).symm

theorem TableRow.assign_eq (row : TableRow) (values : Row) (column : String) :
    row.assign values column = (values.reverse.lookup column).getD (row column) := by
  induction values using List.reverseRecOn with
  | nil => rfl
  | append_singleton values v ih =>
    rw [List.reverse_append, List.reverse_singleton, List.singleton_append, List.lookup_cons]
    rw [assign, List.foldl_append, List.foldl_cons, List.foldl_nil]
    by_cases hv : column = v.1
    · subst hv
      simp
    · rw [Function.update_of_ne hv, beq_eq_false_iff_ne.mpr hv]
      exact ih

theorem TableRow.assign_of_not_mem {row : TableRow} {values : Row} {column : String}
    (h : ∀ v ∈ values, v.1 ≠ column) : row.assign values column = row column := by
  rw [assign_eq, Row.lookup_reverse_eq_none h]
  rfl

namespace Change

/-- The rows of its table stay, with what they have in a column. -/
def Leaves (column : String) : Change → Prop
  | insert _ _ | link _ _ _ => True
  | update _ values _ _ => ∀ v ∈ values, v.1 ≠ column
  | claim links _ _ | release links _ => links.parentKey ≠ column
  | delete _ _ _ | unlink _ _ _ => False

/-- The rows of a table stay, with what they have in a column. -/
def Spares (c : Change) (name column : String) : Prop :=
  c.table = name → c.Leaves column

/-- What the rows of a link table have in its two columns stays, and no rows come. -/
def SparesLinks (c : Change) (links : LinkTable) : Prop :=
  c.table = links.table → c.added? = none ∧ c.Leaves links.parentKey ∧ c.Leaves links.targetKey

theorem deletes_of_leaves {c : Change} {column : String} (h : c.Leaves column) (equal : Cell → Cell → Bool)
    (name : String) (row : TableRow) : c.deletes equal name row = false := by
  cases c with
  | delete | unlink => exact h.elim
  | insert | update | link | claim | release => rfl

theorem edit_of_leaves {c : Change} {column : String} (h : c.Leaves column) (equal : Cell → Cell → Bool)
    (row : TableRow) : c.edit equal row column = row column := by
  cases c with
  | insert | delete | link | unlink => rfl
  | update table values primaryKey key =>
    simp only [edit]
    split
    · exact TableRow.assign_of_not_mem h
    · rfl
  | claim links | release links =>
    simp only [edit]
    split
    · exact TableRow.assign_of_not_mem (List.forall_mem_singleton.mpr h)
    · rfl

end Change

namespace Database

variable {db db' : Database} {c : Change} {name : String} {record : TableRow} {links : LinkTable}

theorem After.spares (h : db.After c db') (hrecord : record ∈ db.rows name) {columns : List String}
    (hspares : ∀ column ∈ columns, c.Spares name column) (hcolumns : columns ≠ []) :
    ∃ record' ∈ db'.rows name, ∀ column ∈ columns, record' column = record column := by
  by_cases hname : c.table = name
  · subst hname
    obtain ⟨first, hfirst⟩ := List.exists_mem_of_ne_nil columns hcolumns
    have hkept : c.deletes db.equal c.table record = false := Change.deletes_of_leaves (hspares first hfirst rfl) ..
    obtain ⟨added, -, hrows⟩ := h.written
    refine ⟨c.edit db.equal record, ?_, fun column hcolumn => Change.edit_of_leaves (hspares column hcolumn rfl) ..⟩
    rw [hrows]
    exact List.mem_append_left _ (List.mem_map_of_mem (mem_without.mpr ⟨hrecord, hkept⟩))
  · exact ⟨record, h.other name hname ▸ hrecord, fun _ _ => rfl⟩

theorem Replays.spares {changes : List Change} (h : db.Replays changes db') (hrecord : record ∈ db.rows name)
    {columns : List String} (hspares : ∀ c ∈ changes, ∀ column ∈ columns, c.Spares name column)
    (hcolumns : columns ≠ []) : ∃ record' ∈ db'.rows name, ∀ column ∈ columns, record' column = record column := by
  induction h generalizing record with
  | nil => exact ⟨record, hrecord, fun _ _ => rfl⟩
  | cons hfirst _ ih =>
    obtain ⟨hc, hrest⟩ := List.forall_mem_cons.mp hspares
    obtain ⟨record₁, hrecord₁, hsame₁⟩ := hfirst.spares hrecord hc hcolumns
    obtain ⟨record₂, hrecord₂, hsame₂⟩ := ih hrecord₁ hrest
    exact ⟨record₂, hrecord₂, fun column hcolumn => (hsame₂ column hcolumn).trans (hsame₁ column hcolumn)⟩

theorem After.pairs_eq (h : db.After c db') (hspares : c.SparesLinks links) : links.pairs db' = links.pairs db := by
  unfold LinkTable.pairs
  by_cases hname : c.table = links.table
  · obtain ⟨hadded, hparent, htarget⟩ := hspares hname
    rw [← hname, h.edits hadded (Change.deletes_of_leaves hparent db.equal), List.map_map]
    refine List.map_congr_left fun row _ => ?_
    rw [Function.comp_apply, Change.edit_of_leaves hparent, Change.edit_of_leaves htarget]
  · rw [h.other _ hname]

/-- Links stay if all changes leave the two columns of their table alone. -/
theorem Replays.pairs_eq {changes : List Change} (h : db.Replays changes db')
    (hspares : ∀ c ∈ changes, c.SparesLinks links) : links.pairs db' = links.pairs db := by
  induction h with
  | nil => rfl
  | cons hfirst _ ih =>
    obtain ⟨hc, hrest⟩ := List.forall_mem_cons.mp hspares
    exact (ih hrest).trans (hfirst.pairs_eq hc)

theorem After.update {table primaryKey : String} {values : Row} {key : Cell}
    (h : db.After (.update table values primaryKey key) db') (hrecord : record ∈ db.rows table)
    (hkey : db.equal (record primaryKey) key = true) : record.assign values ∈ db'.rows table := by
  have hrows := h.edits rfl fun _ _ => rfl
  refine hrows ▸ List.mem_map.mpr ⟨record, hrecord, ?_⟩
  exact if_pos hkey

end Database

/-! ### Bound keys -/

/-- The place of the links and the key of the parent that a change of links binds. -/
def Change.bound? : Change → Option (LinkTable × Cell)
  | .link links parent _ | .unlink links parent _ | .claim links parent _ => some (links, parent)
  | .insert _ _ | .update _ _ _ _ | .delete _ _ _ | .release _ _ => none

/-- The place of the links and the key of the parent that a question for links, or a change of them, binds. -/
def Event.bound? : Event → Option (LinkTable × Cell)
  | ⟨.query (.links links parent), _⟩ => some (links, parent)
  | ⟨.change c, _⟩ => c.bound?
  | _ => none

namespace LinkSet

variable {l : LinkSet} {owner : Table} {row : Row} {events : List Event}

theorem bound?_of_mem_changes {parent : Cell} {detached attached : List Cell} {c : Change}
    (hc : c ∈ l.changes parent detached attached) : ∀ bound ∈ c.bound?, bound = (l.table, parent) := by
  obtain ⟨-, rfl | ⟨_, -, rfl⟩⟩ | ⟨-, rfl | rfl⟩ := mem_changes hc
  all_goals simp [Change.bound?]

/-- All that is asked or changed for a link set binds the join key of the row. -/
theorem Applied.bound (h : l.Applied owner row events) :
    ∀ event ∈ events, ∀ bound ∈ event.bound?, bound = (l.table, row.cell l.relation.joinKey) := by
  cases h with
  | kept => simp [Event.bound?]
  | @moved rows looks changes detached attached _ _ _ _ _ hlooks hchanges =>
    have hlook : looks.filterMap Event.bound? = [] := hlooks.filterMap_eq_nil fun _ _ => rfl
    rw [List.cons_append]
    refine List.forall_mem_cons.mpr ⟨by simp [Event.bound?], List.forall_mem_append.mpr ⟨fun event hevent => ?_, ?_⟩⟩
    · rw [List.filterMap_eq_nil_iff.mp hlook event hevent]
      exact nofun
    · intro event hevent
      obtain ⟨c, hc, outcome, rfl⟩ := hchanges.change_of_mem hevent
      exact bound?_of_mem_changes hc

/-- The changes of a link set leave a column of a table: it is not the one that they assign, and no rows are deleted. -/
def Spares (l : LinkSet) (name column : String) : Prop :=
  l.table.table = name → l.relation.junction = none ∧ l.table.parentKey ≠ column

theorem Spares.changes {name column : String} (h : l.Spares name column) {parent : Cell} {detached attached : List Cell}
    {c : Change} (hc : c ∈ l.changes parent detached attached) : c.Spares name column := by
  intro hname
  have hplace := Change.table_of_linkTable? (linkTable?_of_mem_changes hc)
  obtain ⟨hjunction, hcolumn⟩ := h (hplace.symm.trans hname)
  obtain ⟨hsome, -⟩ | ⟨-, rfl | rfl⟩ := mem_changes hc
  · rw [hjunction] at hsome
    cases hsome
  · exact hcolumn
  · exact hcolumn

/-- The changes of a link set leave the links of a table: it assigns neither of the two columns. -/
def SparesLinks (l : LinkSet) (links : LinkTable) : Prop :=
  l.Spares links.table links.parentKey ∧ l.Spares links.table links.targetKey

theorem SparesLinks.changes {links : LinkTable} (h : l.SparesLinks links) {parent : Cell}
    {detached attached : List Cell} {c : Change} (hc : c ∈ l.changes parent detached attached) : c.SparesLinks links := by
  intro hname
  refine ⟨?_, h.1.changes hc hname, h.2.changes hc hname⟩
  have hplace := Change.table_of_linkTable? (linkTable?_of_mem_changes hc)
  obtain ⟨hsome, -⟩ | ⟨-, rfl | rfl⟩ := mem_changes hc
  · rw [(h.1 (hplace.symm.trans hname)).1] at hsome
    cases hsome
  · rfl
  · rfl

end LinkSet

namespace Changes

variable (c : Changes) (row : Row)

/-- The value of a column of a record after an update: the one that is assigned last, or that of the stored row. -/
def final (column : String) : Cell :=
  (c.assignments.reverse.lookup column).getD (row.cell column)

/-- An update of a record assigns neither of the two columns of a link table. -/
def SparesLinks (table : Table) (links : LinkTable) : Prop :=
  table.name = links.table → ∀ v ∈ c.assignments, v.1 ≠ links.parentKey ∧ v.1 ≠ links.targetKey

/-- For each link set the links of the record are asked for by the join key that a row has, and each question for links
and each change of them binds the join key of a link set. -/
structure Binds (events : List Event) : Prop where
  asked : List.Forall₂ (fun (l : LinkSet) (found : LinkTable × Cell × List Cell) =>
    ∃ keys, found = (l.table, row.cell l.relation.joinKey, keys)) c.links (events.filterMap Event.links?)
  bound : ∀ event ∈ events, ∀ bound ∈ event.bound?, ∃ l ∈ c.links, bound = (l.table, row.cell l.relation.joinKey)

variable {c row}

theorem final_of_not_assigned {column : String} (h : ∀ v ∈ c.assignments, v.1 ≠ column) :
    c.final row column = row.cell column := by
  rw [final, Row.lookup_reverse_eq_none h]
  rfl

end Changes

namespace Repository

variable {table : Table} {changes : Changes} {key : Cell} {row : Row} {events : List Event}

theorem binds_of_applied (h : Event.Each (·.Applied table row) changes.links events) : changes.Binds row events := by
  constructor
  · refine h.forall₂_filterMap fun l part hpart => ?_
    obtain ⟨keys, hkeys, -⟩ := hpart.links
    exact ⟨_, hkeys, keys, rfl⟩
  · intro event hevent bound hbound
    obtain ⟨l, hl, part, hpart, hmem⟩ := h.item_of_mem hevent
    exact ⟨l, hl, hpart.bound event hmem bound hbound⟩

/-- The events by which links are applied are those of an update that bind keys and change links. -/
theorem Amends.applied (h : Amends table changes key row events) :
    ∃ applied, Event.Each (·.Applied table row) changes.links applied ∧
      events.filterMap Event.links? = applied.filterMap Event.links? ∧
      (∀ event ∈ events, ∀ bound ∈ event.bound?, event ∈ applied) ∧
      events.filterMap Event.change? = applied.filterMap Event.change? ++
        if changes.assignments.isEmpty then [] else [.update table.name changes.assignments table.primaryKey key] := by
  obtain ⟨load, checks, applied, written, rfl, hload, hchecks, happlied, hwritten⟩ := h.parts
  refine ⟨applied, happlied, ?_, ?_, ?_⟩
  · have hl := hload.filterMap_eq_nil fun _ => (rfl : Event.links? _ = none)
    have hc := hchecks.filterMap_eq_nil fun _ _ => (rfl : Event.links? _ = none)
    have hw := hwritten.filterMap_eq_nil fun _ _ _ => (rfl : Event.links? _ = none)
    simp only [List.filterMap_append, hl, hc, hw, List.nil_append, List.append_nil]
  · intro event hevent bound hbound
    -- a key is bound neither where the row is loaded, nor where keys are checked, nor by the update
    have hnone {part : List Event} (hpart : part.filterMap Event.bound? = []) (hmem : event ∈ part) : False := by
      rw [List.filterMap_eq_nil_iff.mp hpart event hmem] at hbound
      cases hbound
    have hupdate : written.filterMap Event.bound? = [] := by
      refine hwritten.filterMap_eq_nil fun c hc reply => ?_
      split at hc
      · cases hc
      · obtain rfl := List.mem_singleton.mp hc
        rfl
    simp only [List.mem_append] at hevent
    obtain ((hevent | hevent) | hevent) | hevent := hevent
    · exact (hnone (hload.filterMap_eq_nil fun _ => rfl) hevent).elim
    · exact (hnone (hchecks.filterMap_eq_nil fun _ _ => rfl) hevent).elim
    · exact hevent
    · exact (hnone hupdate hevent).elim
  · have hl := hload.filterMap_eq_nil fun _ => (rfl : Event.change? _ = none)
    have hc := hchecks.filterMap_eq_nil fun _ _ => (rfl : Event.change? _ = none)
    simp only [List.filterMap_append, hl, hc, hwritten.filterMap_change?, List.nil_append]

theorem Amends.binds (h : Amends table changes key row events) : changes.Binds row events := by
  obtain ⟨applied, happlied, hlinks, hbound, -⟩ := h.applied
  obtain ⟨hasked, hbinds⟩ := binds_of_applied happlied
  exact ⟨hlinks ▸ hasked, fun event hevent bound hmem => hbinds event (hbound event hevent bound hmem) bound hmem⟩

/-! ### Records and links after an update -/

/-- Each change is one of a link set. -/
theorem change_of_applied {links : List LinkSet} (h : Event.Each (·.Applied table row) links events) {c : Change}
    (hc : c ∈ events.filterMap Event.change?) :
    ∃ l ∈ links, ∃ parent detached attached, c ∈ l.changes parent detached attached := by
  obtain ⟨event, hevent, hchange⟩ := List.mem_filterMap.mp hc
  obtain ⟨l, hl, part, hpart, hmem⟩ := h.item_of_mem hevent
  obtain ⟨rows, -, -, -, hchanges, -⟩ := hpart.changes
  exact ⟨l, hl, _, _, _, hchanges ▸ List.mem_filterMap.mpr ⟨event, hmem, hchange⟩⟩

/-- Links that no link set changes are left alone. -/
theorem pairs_of_applied {sets : List LinkSet} {db db' : Database} {links : LinkTable}
    (h : Event.Each (·.Applied table row) sets events) (hreplays : db.Replays (events.filterMap Event.change?) db')
    (hspares : ∀ l ∈ sets, l.SparesLinks links) : links.pairs db' = links.pairs db := by
  refine hreplays.pairs_eq fun c hc => ?_
  obtain ⟨l, hl, _, _, _, hc⟩ := change_of_applied h hc
  exact (hspares l hl).changes hc

/-- After an update the record is there, with what was assigned last in a column that no link set changes. -/
theorem Amends.final {db db' : Database} {record : TableRow} {column : String}
    (h : Amends table changes key row events) (hkeyed : ∀ v ∈ changes.assignments, v.1 ≠ table.primaryKey)
    (hspares : ∀ l ∈ changes.links, l.Spares table.name column ∧ l.Spares table.name table.primaryKey)
    (hreplays : db.Replays (events.filterMap Event.change?) db') (hrecord : record ∈ db.rows table.name)
    (hkey : db.equal (record table.primaryKey) key = true) (hstored : record column = row.cell column) :
    ∃ record' ∈ db'.rows table.name, record' table.primaryKey = record table.primaryKey ∧
      record' column = changes.final row column := by
  obtain ⟨applied, happlied, -, -, hchanges⟩ := h.applied
  rw [hchanges] at hreplays
  obtain ⟨between, hlinks, hupdate⟩ := hreplays.of_append
  -- the link changes, which come first, spare the column and the key; the update finds the record by it
  have hleft : ∀ c ∈ applied.filterMap Event.change?,
      ∀ name ∈ [column, table.primaryKey], c.Spares table.name name := by
    intro c hc
    obtain ⟨l, hl, _, _, _, hc⟩ := change_of_applied happlied hc
    simpa using ⟨(hspares l hl).1.changes hc, (hspares l hl).2.changes hc⟩
  obtain ⟨record₁, hrecord₁, hsame⟩ := hlinks.spares hrecord hleft (List.cons_ne_nil _ _)
  obtain ⟨hcolumn, hprimary⟩ : record₁ column = record column ∧ record₁ table.primaryKey = record table.primaryKey := by
    simpa using hsame
  cases hempty : changes.assignments.isEmpty with
  | true =>
    rw [hempty] at hupdate
    cases hupdate
    have hnone : changes.assignments = [] := List.isEmpty_iff.mp hempty
    refine ⟨record₁, hrecord₁, hprimary, ?_⟩
    rw [Changes.final_of_not_assigned (by simp [hnone]), hcolumn, hstored]
  | false =>
    rw [hempty] at hupdate
    cases hupdate with
    | cons hfirst hnil =>
      cases hnil
      refine ⟨_, hfirst.update hrecord₁ ?_, ?_, ?_⟩
      · rwa [hlinks.equal, hprimary]
      · rw [TableRow.assign_of_not_mem hkeyed, hprimary]
      · rw [TableRow.assign_eq, hcolumn, hstored]
        rfl

/-- Links that only one link set changes are those of the set in the end, for the key that was bound. -/
theorem Amends.linked {catalog : Catalog} {entries : Entries} {before after : List LinkSet} {l : LinkSet}
    (h : Amends table changes key row events) (hdeclared : changes.Declared catalog table entries)
    (hlinks : changes.links = before ++ l :: after) (hothers : ∀ other ∈ before ++ after, other.SparesLinks l.table)
    (hassigned : changes.SparesLinks table l.table) :
    ∃ keys, (l.table, row.cell l.relation.joinKey, keys) ∈ events.filterMap Event.links? ∧
      ∀ db db' : Database, l.Stored db (row.cell l.relation.joinKey) keys →
        db.Replays (events.filterMap Event.change?) db' → l.Links (row.cell l.relation.joinKey) db db' := by
  obtain ⟨applied, happlied, hasked, -, hchanges⟩ := h.applied
  rw [hlinks] at happlied
  obtain ⟨first, part, last, rfl, hfirst, hpart, hlast⟩ := happlied.split
  obtain ⟨-, -, -, document, -, hids⟩ := hdeclared.links l (hlinks ▸ List.mem_append_right _ List.mem_cons_self)
  obtain ⟨rows, rest, rfl, hparent, hpartial, -⟩ := hpart.changes
  refine ⟨rows.keys, ?_, fun db db' hstored hreplays => ?_⟩
  · rw [hasked, List.filterMap_append, List.filterMap_append]
    exact List.mem_append_left _ (List.mem_append_right _ List.mem_cons_self)
  rw [hchanges, List.filterMap_append, List.filterMap_append, hpartial] at hreplays
  obtain ⟨db₃, happlies, hupdate⟩ := hreplays.of_append
  obtain ⟨db₂, hbefore, hafter⟩ := happlies.of_append
  obtain ⟨db₁, hstart, hown⟩ := hbefore.of_append
  -- the links are changed by their own link set only, not before it and not after it
  have hpairs₁ : l.table.pairs db₁ = l.table.pairs db :=
    pairs_of_applied hfirst hstart fun other hother => hothers other (List.mem_append_left _ hother)
  have hpairs₃ : l.table.pairs db₃ = l.table.pairs db₂ :=
    pairs_of_applied hlast hafter fun other hother => hothers other (List.mem_append_right _ hother)
  have hpairs' : l.table.pairs db' = l.table.pairs db₃ := by
    refine hupdate.pairs_eq fun c hc hname => ?_
    split at hc
    · cases hc
    · obtain rfl := List.mem_singleton.mp hc
      exact ⟨rfl, fun v hv => (hassigned hname v hv).1, fun v hv => (hassigned hname v hv).2⟩
  have hrewritten := (hstored.of_pairs_eq hstart.equal hpairs₁).rewritten hparent (relatedIds_eq_ok hids).2 hown
  exact hrewritten.linked.of_pairs_eq hpairs₁ (hpairs'.trans hpairs₃).symm

/-- What an update leaves of a relation that it links to the records of a set: the value of the join key in the record,
and the links that are found through it. -/
structure Lasts (table : Table) (changes : Changes) (key : Cell) (row : Row) (events : List Event) (l : LinkSet) :
    Prop where
  /-- The record has what was assigned last, unless it is a target of the payload itself. -/
  value : (∀ other ∈ changes.links, other.Spares table.name l.relation.joinKey ∧
      other.Spares table.name table.primaryKey) →
    ∀ (db db' : Database) (record : TableRow), db.Replays (events.filterMap Event.change?) db' →
      record ∈ db.rows table.name → db.equal (record table.primaryKey) key = true →
      record l.relation.joinKey = row.cell l.relation.joinKey →
      ∃ record' ∈ db'.rows table.name, record' table.primaryKey = record table.primaryKey ∧
        record' l.relation.joinKey = changes.final row l.relation.joinKey
  /-- If this is the value that was bound, and nothing else changes the links, the record is linked to the set. -/
  links : changes.final row l.relation.joinKey = row.cell l.relation.joinKey → changes.SparesLinks table l.table →
    ∀ before after, changes.links = before ++ l :: after → (∀ other ∈ before ++ after, other.SparesLinks l.table) →
      ∃ keys, (l.table, row.cell l.relation.joinKey, keys) ∈ events.filterMap Event.links? ∧
        ∀ db db' : Database, l.Stored db (row.cell l.relation.joinKey) keys →
          db.Replays (events.filterMap Event.change?) db' → l.Links (changes.final row l.relation.joinKey) db db'

variable (r : Repository) {σ : Type}

/-- Whatever answers its steps, a creation that commits binds the join keys of the row that it loads after the record is
inserted, and an update that commits those of the row that it loads first. What the record has in a column after the
update is what was assigned to it last: for the primary key, and for every column that the payload does not assign, the
value that was loaded. So a relation whose join key keeps its value is linked to its set through the record. -/
theorem link_keys_bound (answer : (step : Step) → σ → step.Answer × σ) (state : σ) (id payload : Json) :
    (⟨.commit, .ok ()⟩ ∈ (r.create payload).events answer state →
      ∃ catalog table changes key body after,
        r.Commits catalog table body after ((r.create payload).events answer state) ∧
        Changes.ofPayload catalog table r.options.pathPolicy true payload = .ok changes ∧
        (changes.links ≠ [] → ∃ checks outcome load applied row,
          body = checks ++ ⟨.change (.insert table.name changes.assignments), .ok outcome⟩ :: load ++ applied ∧
          table.Loads key row load ∧ changes.Binds row applied)) ∧
    (⟨.commit, .ok ()⟩ ∈ (r.update id payload).events answer state →
      ∃ catalog table changes row body after,
        r.Commits catalog table body after ((r.update id payload).events answer state) ∧
        Changes.ofPayload catalog table r.options.pathPolicy false payload = .ok changes ∧
        body.filterMap Event.loaded? = [row] ∧ changes.Binds row body ∧
        (∀ column, column = table.primaryKey ∨ (∀ v ∈ changes.assignments, v.1 ≠ column) →
          changes.final row column = row.cell column) ∧
        ∀ l ∈ changes.links, Lasts table changes (.coerce id table.primaryType) row body l) := by
  constructor
  · intro hcommit
    obtain ⟨catalog, table, changes, key, body, after, hcommits, hchanges, hinserts, -⟩ :=
      create_commits (Operation.runs_result answer (r.create payload) state) hcommit
    refine ⟨catalog, table, changes, key, body, after, hcommits, hchanges, fun hlinks => ?_⟩
    obtain ⟨checks, outcome, linked, rfl, -, -, hlinked⟩ := hinserts.parts
    obtain ⟨hnone, -⟩ | ⟨row, load, applied, rfl, hload, happlied⟩ := hlinked
    · exact absurd hnone hlinks
    · exact ⟨checks, outcome, load, applied, row, by simp, hload, binds_of_applied happlied⟩
  · intro hcommit
    obtain ⟨catalog, table, changes, row, body, after, hcommits, hchanges, hamends, -⟩ :=
      update_commits (Operation.runs_result answer (r.update id payload) state) hcommit
    obtain ⟨entries, -, hdeclared⟩ := Changes.Declared.of_payload hchanges
    obtain ⟨_, -, hassigns⟩ := Changes.ofPayload_assigns (Catalog.mem_of_table? hcommits.found) hchanges
    have hkeyed := hassigns.keyed rfl
    refine ⟨catalog, table, changes, row, body, after, hcommits, hchanges, hamends.loaded, hamends.binds, ?_, ?_⟩
    · rintro column (rfl | hcolumn)
      · exact Changes.final_of_not_assigned hkeyed
      · exact Changes.final_of_not_assigned hcolumn
    · intro l _
      constructor
      · intro hspares db db' record hreplays hrecord hkey hstored
        exact hamends.final hkeyed hspares hreplays hrecord hkey hstored
      · intro hfinal hspares before after hlinks hothers
        rw [hfinal]
        exact hamends.linked hdeclared hlinks hothers hspares

end Repository

/-! ### Teams and their members -/

/-- People, each of whom may have the code of a team. -/
def Table.people : Table :=
  (Table.start "people").addColumn "teamCode" .int true

/-- Teams, which are linked to their members by a code of theirs. -/
def Table.teams : Table :=
  let table := (Table.start "teams").addColumn "name" .text false |>.addColumn "code" .int false
  { table with relations := [.direct "members" .many "people" "code" "teamCode"] }

def Catalog.teams : Catalog where
  tables := [.teams, .people]
  sound := by decide +kernel

/-- A team whose code is 4. -/
def TableRow.team : TableRow :=
  fun column => if column = "id" then .int 1 else if column = "code" then .int 4 else .text "A"

/-- A person without a team. -/
def TableRow.person : TableRow :=
  fun column => if column = "id" then .int 1 else .null

def LinkTable.members : LinkTable :=
  ⟨"people", "teamCode", "id"⟩

def Database.teams (teams people : List TableRow) : Database where
  rows name := if name = "teams" then teams else if name = "people" then people else []
  equal a b := a == b && !b.isNull

/-- A session in which the team is loaded, which has no members. -/
def Session.team : Session :=
  .start .teams .standard [.success ⟨["id", "name", "code"], [[.int 1, .text "A", .int 4]]⟩ ⟨1, none⟩]

/-- The person becomes a member by the code 4, and then the team gets some values. -/
theorem replays_teams (values : Row) :
    (Database.teams [.team] [.person]).Replays
      [.claim .members (.int 4) [.int 1], .update "teams" values "id" (.int 1)]
      (.teams [TableRow.team.assign values] [TableRow.person.assign [("teamCode", .int 4)]]) := by
  have hclaim : (Database.teams [.team] [.person]).After (.claim .members (.int 4) [.int 1])
      (.teams [.team] [TableRow.person.assign [("teamCode", .int 4)]]) := by
    refine ⟨rfl, fun name hname => ?_, [], .nil, rfl⟩
    have hpeople : name ≠ "people" := Ne.symm hname
    simp [Database.teams, hpeople]
  have hupdate : (Database.teams [.team] [TableRow.person.assign [("teamCode", .int 4)]]).After
      (.update "teams" values "id" (.int 1))
      (.teams [TableRow.team.assign values] [TableRow.person.assign [("teamCode", .int 4)]]) := by
    refine ⟨rfl, fun name hname => ?_, [], .nil, rfl⟩
    have hteams : name ≠ "teams" := Ne.symm hname
    simp [Database.teams, hteams]
  exact .cons hclaim (.cons hupdate (.nil _))

namespace Repository

/-- A team gets another name and a member, which is linked by the code that the team keeps. -/
theorem link_keys_bound_teams :
    let payload := .obj [("name", .str "B"), ("members", .arr [.int 1])]
    let events := ((standard "teams").update (.int 1) payload).events Session.answer .team
    let row := [("id", .int 1), ("name", .text "A"), ("code", .int 4)]
    let members : LinkSet := ⟨.direct "members" .many "people" "code" "teamCode", .people, [.int 1]⟩
    let changes : Changes := ⟨[("name", .text "B")], [], [members]⟩
    let db := Database.teams [.team] [.person]
    let db' := Database.teams [TableRow.team.assign changes.assignments] [TableRow.person.assign [("teamCode", .int 4)]]
    (∃ body after, (standard "teams").Commits .teams .teams body after events ∧ changes.Binds row body) ∧
    db.Replays (events.filterMap Event.change?) db' ∧ members.Links (changes.final row "code") db db' := by
  intro payload events row members changes db db'
  have hcommit : events.any Event.isCommit = true := by decide +kernel
  have hteams : Catalog.teams.table? "teams" = some .teams := by decide +kernel
  have hloaded : events.filterMap Event.loaded? = [row] := by decide +kernel
  have hasked : events.filterMap Event.links? = [(.members, .int 4, [])] := by decide +kernel
  have hchanges : events.filterMap Event.change? =
      [.claim .members (.int 4) [.int 1], .update "teams" changes.assignments "id" (.int 1)] := by
    decide +kernel
  have hpayload :
      Changes.ofPayload .teams .teams (standard "teams").options.pathPolicy false payload = .ok changes := by
    rfl
  obtain ⟨catalog, table, found, stored, body, after, hcommits, hfound, hstored, hbinds, -, hlasts⟩ :=
    ((standard "teams").link_keys_bound Session.answer .team (.int 1) payload).2 (Event.commit_mem_iff.mpr hcommit)
  obtain rfl := Program.catalog_of_mem _ _ _ hcommits.mem_catalog
  obtain rfl := Option.some.inj (hteams.symm.trans hcommits.found)
  obtain rfl := Except.ok.inj (hpayload.symm.trans hfound)
  have hrow := hcommits.mem_filterMap (hstored ▸ List.mem_singleton_self stored)
  rw [hloaded, List.mem_singleton] at hrow
  subst hrow
  have hreplays : db.Replays (events.filterMap Event.change?) db' := hchanges ▸ replays_teams changes.assignments
  have hspares : changes.SparesLinks .teams members.table := fun habsurd => absurd habsurd (by decide)
  obtain ⟨keys, hkeys, hlinked⟩ :=
    (hlasts members (List.mem_singleton_self members)).links (by decide +kernel) hspares [] [] rfl nofun
  have hnone := hcommits.mem_filterMap hkeys
  rw [hasked, List.mem_singleton] at hnone
  obtain rfl : keys = [] := (Prod.mk.inj (Prod.mk.inj hnone).2).2
  -- the person has no team before
  have hempty : members.Stored db (.int 4) [] :=
    ⟨by decide, .of_eq (by decide +kernel), by decide +kernel, fun _ => by decide +kernel⟩
  exact ⟨⟨body, after, hcommits, hbinds⟩, hreplays, hlinked db db' hempty (hcommits.filterMap_change? ▸ hreplays)⟩

/-- A team gets another code and a member. The member is linked by the code that the team had, and is not found by the
code that it has then. -/
theorem link_key_reassigned_teams :
    let payload := .obj [("code", .int 5), ("members", .arr [.int 1])]
    let events := ((standard "teams").update (.int 1) payload).events Session.answer .team
    let db := Database.teams [.team] [.person]
    let db' := Database.teams [TableRow.team.assign [("code", .int 5)]]
      [TableRow.person.assign [("teamCode", .int 4)]]
    ⟨.commit, .ok ()⟩ ∈ events ∧ events.filterMap Event.bound? = [(.members, .int 4), (.members, .int 4)] ∧
    db.Replays (events.filterMap Event.change?) db' ∧ (db'.rows "teams").map (· "code") = [.int 5] ∧
    LinkTable.members.targets db' (.int 4) = [.int 1] ∧ LinkTable.members.targets db' (.int 5) = [] := by
  intro payload events db db'
  have hchanges : events.filterMap Event.change? =
      [.claim .members (.int 4) [.int 1], .update "teams" [("code", .int 5)] "id" (.int 1)] := by
    decide +kernel
  exact ⟨Event.commit_mem_iff.mpr (by decide +kernel), by decide +kernel, hchanges ▸ replays_teams _, by decide +kernel,
    by decide +kernel, by decide +kernel⟩

end Repository
end RecordService
