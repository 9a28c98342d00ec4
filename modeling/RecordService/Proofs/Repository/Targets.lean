import RecordService.Proofs.Repository.Attachments
import RecordService.Proofs.Repository.WriteBack
import RecordService.Proofs.Sql.Joined

/-! # How a payload names related records

A payload may name a related record by an object with its columns. What is written for it, and looked for among the
system records, is the cell of the record's primary key, whereas a join compares with the column by which the relation
joins its target (`Relation.reaches_iff`). The record that is named is the one that is reached where that column is the
primary key. -/

namespace RecordService

/-! ### Objects that show a row -/

/-- The object has the columns of a row, as they are read. -/
def Table.Shows (t : Table) (row : TableRow) (d : Entries) : Prop :=
  ∀ c ∈ t.columns, Entries.get? d c.name = some ((row c.name).toJson (some c.type))

/-- The cell for which such an object stands in a payload: that of the primary key, read again. -/
def Table.named (t : Table) (row : TableRow) : Cell :=
  .coerce ((row t.primaryKey).toJson (some t.primaryType)) t.primaryType

/-- The document is the object, or a list with the object in it. -/
def Json.Lists (d : Entries) (value : Json) : Prop :=
  value = .obj d ∨ ∃ items, value = .arr items ∧ .obj d ∈ items

namespace Table.Shows

variable {t : Table} {row : TableRow} {d : Entries}

theorem relatedId {catalog : Catalog} (h : t.Shows row d) (htable : t ∈ catalog.tables) (field : String) :
    relatedId field t (.obj d) = .ok (t.named row) := by
  obtain ⟨column, hcolumn⟩ := Option.isSome_iff_exists.mp (Catalog.primaryKey_declared htable)
  have hshown := h column (List.mem_of_find?_eq_some hcolumn)
  have htype : t.primaryType = column.type := by rw [primaryType, hcolumn]; rfl
  rw [Catalog.name_of_column? hcolumn, ← htype] at hshown
  simp only [RecordService.relatedId, hshown, named]

/-- The named record is among the related ones, by the identity of its key. -/
theorem mem_relatedIds {catalog : Catalog} (h : t.Shows row d) (htable : t ∈ catalog.tables) {field : String}
    {value : Json} {ids : List Cell} (hids : relatedIds field t value = .ok ids) (hlists : value.Lists d)
    (hnull : (t.named row).isNull = false) : ∃ id ∈ ids, id.identity = (t.named row).identity := by
  obtain ⟨items, all, hitem, hall, rfl⟩ : ∃ (items : List Json) (all : List Cell), Json.obj d ∈ items ∧
      items.mapM (RecordService.relatedId field t) = .ok all ∧
      ids = Operand.distinct [] (all.filter (!·.isNull)) := by
    obtain ⟨all, hall, hids⟩ := bind_eq_ok.mp hids
    obtain rfl := pure_eq_ok.mp hids
    rcases hlists with rfl | ⟨items, rfl, hitem⟩
    · exact ⟨[.obj d], all, List.mem_singleton_self _, hall, rfl⟩
    · exact ⟨items, all, hitem, hall, rfl⟩
  have hnamed : t.named row ∈ all := mem_of_mapM_eq_ok hall hitem (h.relatedId htable field)
  have hkept : (t.named row).identity ∈ (all.filter (!·.isNull)).map Cell.identity :=
    List.mem_map_of_mem (List.mem_filter.mpr ⟨hnamed, by rw [hnull]; rfl⟩)
  exact List.mem_map.mp ((Operand.mem_identity_distinct [] _).mpr ⟨hkept, List.not_mem_nil⟩)

end Table.Shows

/-! ### What joins compare with -/

/-- The join of a relation finds a row of the target for a value: of the junction's target key where there is a
junction, and else of the parent's join key. -/
def Relation.Reaches (r : Relation) (target : Table) (db : Database) (value : Cell) (row : TableRow) : Prop :=
  ∀ place path parentAlias usage,
    ∃ clause ∈ (JoinPlan.newJoin place path parentAlias r target usage).clauses.getLast?,
      clause.left.column = (r.junction.map (·.targetKey)).getD r.joinKey ∧ row ∈ clause.matching db value

theorem Relation.reaches_iff {r : Relation} {target : Table} {db : Database} {value : Cell} {row : TableRow} :
    r.Reaches target db value row ↔
      row ∈ db.rows target.name ∧ db.equal (row r.inverseJoinKey) value = true := by
  have hmatching (clause : LeftJoin) (htable : clause.table = target.name) (hkey : clause.key = r.inverseJoinKey) :
      row ∈ clause.matching db value ↔ row ∈ db.rows target.name ∧ db.equal (row r.inverseJoinKey) value = true := by
    rw [LeftJoin.matching, List.mem_filter, htable, hkey]
  constructor
  · intro h
    obtain ⟨clause, hlast, -, hrow⟩ := h 0 "" "" ⟨false, false, false, false⟩
    unfold JoinPlan.newJoin Join.clauses at hlast
    cases hjunction : r.junction with
    | none =>
      simp only [hjunction, Option.map_none, List.getLast?_singleton, Option.mem_some_iff] at hlast
      exact (hmatching clause (hlast ▸ rfl) (hlast ▸ rfl)).mp hrow
    | some j =>
      simp only [hjunction, Option.map_some, List.getLast?_cons_cons, List.getLast?_singleton,
        Option.mem_some_iff] at hlast
      exact (hmatching clause (hlast ▸ rfl) (hlast ▸ rfl)).mp hrow
  · intro h place path parentAlias usage
    unfold JoinPlan.newJoin Join.clauses
    cases r.junction with
    | none => exact ⟨_, rfl, rfl, (hmatching _ rfl rfl).mpr h⟩
    | some j => exact ⟨_, rfl, rfl, (hmatching _ rfl rfl).mpr h⟩

/-! ### What is written -/

/-- What a change assigns to a record. -/
def Change.values : Change → Row
  | .insert _ values | .update _ values _ _ => values
  | .delete _ _ _ | .link _ _ _ | .unlink _ _ _ | .claim _ _ _ | .release _ _ => []

/-- A change of a record is made that assigns it a foreign key, which has been vetted. -/
structure ForeignKey.Written (fk : ForeignKey) (stored : Option Row) (c : Change) (events : List Event) : Prop where
  made : ∃ outcome, ⟨.change c, .ok outcome⟩ ∈ events
  assigned : (fk.relation.joinKey, fk.value) ∈ c.values
  vetted : fk.Vetted stored events

/-- A parent is found to be linked to a target with some key through the junction of a relation, or is linked to it
after the key was looked for among the system records. -/
inductive Relation.Linked (r : Relation) (j : Junction) (target : Table) (parent key : Cell) (events : List Event) :
    Prop
  | found {rows : Rows} (hasked : ⟨.query (.links ⟨j.table, j.sourceKey, j.targetKey⟩ parent), .ok rows⟩ ∈ events)
      (hkey : key.identity ∈ rows.keys.map Cell.identity)
  | made {id : Cell} {outcome : Outcome} (hid : id.identity = key.identity)
      (hchange : ⟨.change (.link ⟨j.table, j.sourceKey, j.targetKey⟩ parent id), .ok outcome⟩ ∈ events)
      (hlook : ∀ flag, target.systemFlag = some flag → ∃ ids columns, id ∈ ids ∧
        ⟨.query (.flagged target.name r.inverseJoinKey flag ids), .ok ⟨columns, []⟩⟩ ∈ events)

theorem LinkSet.Applied.linked {l : LinkSet} {owner : Table} {row : Row} {part events : List Event} {j : Junction}
    {id key : Cell} (h : l.Applied owner row part) (hpart : part ⊆ events) (hj : l.relation.junction = some j)
    (hid : id ∈ l.ids) (hkey : id.identity = key.identity) :
    l.relation.Linked j l.target (row.cell l.relation.joinKey) key events := by
  have htable : l.table = ⟨j.table, j.sourceKey, j.targetKey⟩ := by simp [table, Relation.links, hj]
  cases h with
  | @kept rows _ hattached _ =>
    have hknown := Cell.without_eq_nil.mp hattached _ (List.mem_map_of_mem hid)
    exact .found (hpart (htable ▸ List.mem_cons_self)) (hkey ▸ hknown)
  | @moved rows looks changes detached attached _ _ hattached _ _ hlooks hchanges =>
    -- the key was found among the links, or it was not and is attached
    by_cases hknown : id.identity ∈ rows.keys.map Cell.identity
    · exact .found (hpart (htable ▸ List.mem_cons_self)) (hkey ▸ hknown)
    have hnew : id ∈ attached := by
      rw [hattached, Cell.without, List.mem_filter]
      exact ⟨hid, by simpa using hknown⟩
    have hlink : .link l.table (row.cell l.relation.joinKey) id ∈
        l.changes (row.cell l.relation.joinKey) detached attached := by
      simp only [LinkSet.changes, hj]
      exact List.mem_append_right _ (List.mem_map_of_mem hnew)
    obtain ⟨outcome, hmade⟩ := hchanges.mem hlink
    refine .made hkey (htable ▸ hpart (List.mem_append_right _ hmade)) fun flag hflag => ?_
    have hcolumn : l.checkedColumn = l.relation.inverseJoinKey := by simp [checkedColumn, hj]
    obtain ⟨columns, hlooked⟩ := hlooks.mem (List.mem_append_right _ (Table.mem_looks_of_mem hflag hnew))
    refine ⟨attached, columns, hnew, hcolumn ▸ hpart ?_⟩
    exact List.mem_append_left _ (List.mem_cons_of_mem _ hlooked)

/-- Each record that the entries name by an object is written, or linked, by the cell of its primary key, after that was
looked for in the column by which the relation joins. -/
structure Catalog.Names (catalog : Catalog) (table : Table) (entries : Entries) (stored : Option Row) (c : Change)
    (body : List Event) : Prop where
  owning : ∀ {r target row d}, table.relation? r.name = some r → catalog.target? r = some target →
    target.Shows row d → r.isOwning table = true → (r.name, .obj d) ∈ entries →
    ForeignKey.Written ⟨r, target, target.named row⟩ stored c body
  linked : ∀ {r target row d j value}, table.relation? r.name = some r → catalog.target? r = some target →
    target.Shows row d → r.junction = some j → (r.name, value) ∈ entries → value.Lists d →
    (target.named row).isNull = false →
    ∃ record ∈ body.filterMap Event.loaded?, r.Linked j target (record.cell r.joinKey) (target.named row) body

theorem Catalog.names_of_payload {catalog : Catalog} {table : Table} {policy : PathPolicy} {creating : Bool}
    {changes : Changes} {entries : Entries} {stored : Option Row} {c : Change} {body : List Event}
    (hchanges : Changes.ofPayload catalog table policy creating (.obj entries) = .ok changes)
    (htable : table ∈ catalog.tables) (hvalues : c.values = changes.assignments)
    (hmade : changes.assignments ≠ [] → ∃ outcome, ⟨.change c, .ok outcome⟩ ∈ body)
    (hvetted : ∀ fk ∈ changes.foreignKeys, fk.Vetted stored body)
    (hlinks : ∀ l ∈ changes.links, ∃ record ∈ body.filterMap Event.loaded?, ∃ part, l.Applied table record part ∧
      part ⊆ body) :
    catalog.Names table entries stored c body := by
  constructor
  · intro r target row d hr htarget hshows howning hentry
    obtain ⟨id, hid, hmem⟩ := Changes.foreignKey_of_mem hchanges htable hr htarget howning hentry
    obtain rfl := Except.ok.inj ((hshows.relatedId (mem_of_target? htarget) r.name).symm.trans hid)
    have hassigned : (r.joinKey, target.named row) ∈ changes.assignments :=
      List.mem_append_right _ (List.mem_map.mpr ⟨_, hmem, rfl⟩)
    exact ⟨hmade (List.ne_nil_of_mem hassigned), hvalues ▸ hassigned, hvetted _ hmem⟩
  · intro r target row d j value hr htarget hshows hj hentry hlists hnull
    have howning : r.isOwning table = false := by simp [Relation.isOwning, hj]
    obtain ⟨ids, hids, hmem⟩ := Changes.links_of_mem hchanges htable hr htarget howning hentry
    obtain ⟨id, hid, hkey⟩ := hshows.mem_relatedIds (mem_of_target? htarget) hids hlists hnull
    obtain ⟨record, hrecord, part, happlied, hpart⟩ := hlinks _ hmem
    exact ⟨record, hrecord, happlied.linked hpart hj hid hkey⟩

namespace Repository

variable {catalog : Catalog} {table : Table} {changes : Changes} {key : Cell} {row : Row} {entries : Entries}
  {policy : PathPolicy} {events : List Event}

theorem Inserts.names (h : Inserts table changes key events)
    (hchanges : Changes.ofPayload catalog table policy true (.obj entries) = .ok changes)
    (htable : table ∈ catalog.tables) :
    catalog.Names table entries none (.insert table.name changes.assignments) events := by
  obtain ⟨checks, outcome, after, rfl, hchecks, -, hafter⟩ := h.parts
  refine Catalog.names_of_payload hchanges htable rfl (fun _ => ⟨outcome, by simp⟩) (fun fk hfk => ?_) fun l hl => ?_
  · have hvetted : fk.Vetted none checks :=
      ForeignKey.vetted_of_findNothing hchecks fun _ hlook => List.mem_flatMap.mpr ⟨fk, hfk, hlook⟩
    exact hvetted.mono (List.subset_append_left _ _)
  · obtain ⟨hnone, -⟩ | ⟨row, load, applied, rfl, hload, happlied⟩ := hafter
    · rw [hnone] at hl
      cases hl
    · obtain ⟨part, hpart, hsubset⟩ := happlied.part_of_mem hl
      obtain ⟨event, hevent, hread⟩ := List.mem_filterMap.mp (hload.loaded ▸ List.mem_singleton_self row)
      refine ⟨row, List.mem_filterMap.mpr ⟨event, by simp [hevent], hread⟩, part, hpart, fun event hevent => ?_⟩
      simp [hsubset hevent]

theorem Amends.names (h : Amends table changes key row events)
    (hchanges : Changes.ofPayload catalog table policy false (.obj entries) = .ok changes)
    (htable : table ∈ catalog.tables) :
    catalog.Names table entries (some row) (.update table.name changes.assignments table.primaryKey key) events := by
  have hloaded := h.loaded
  obtain ⟨load, checks, applied, written, rfl, hload, hchecks, happlied, hwritten⟩ := h.parts
  refine Catalog.names_of_payload hchanges htable rfl (fun hassigned => ?_) (fun fk hfk => ?_) fun l hl => ?_
  · rw [if_neg (by simpa using hassigned)] at hwritten
    obtain ⟨outcome, hmade⟩ := hwritten.mem (List.mem_singleton_self _)
    exact ⟨outcome, List.mem_append_right _ hmade⟩
  · have hvetted : fk.Vetted (some row) checks :=
      ForeignKey.vetted_of_findNothing hchecks fun _ hlook => List.mem_flatMap.mpr ⟨fk, hfk, hlook⟩
    exact hvetted.mono fun event hevent => by simp [hevent]
  · obtain ⟨part, hpart, hsubset⟩ := happlied.part_of_mem hl
    exact ⟨row, hloaded ▸ List.mem_singleton_self row, part, hpart, fun event hevent => by simp [hsubset hevent]⟩

variable (r : Repository) {σ : Type}

/-- Whatever answers its steps, a creation or an update that commits writes for a record that its payload names by its
columns the cell of the primary key, and has looked for that in the column by which the relation joins. A join reaches
the record by it exactly if the store takes it for equal to the record's cell in that column, as it is if the column is
the primary key. -/
theorem targets_named_by_primary_key (answer : (step : Step) → σ → step.Answer × σ) (state : σ) (id : Json)
    (entries : Entries) :
    (⟨.commit, .ok ()⟩ ∈ (r.create (.obj entries)).events answer state →
      ∃ catalog table changes body after,
        r.Commits catalog table body after ((r.create (.obj entries)).events answer state) ∧
        Changes.ofPayload catalog table r.options.pathPolicy true (.obj entries) = .ok changes ∧
        catalog.Names table entries none (.insert table.name changes.assignments) body) ∧
    (⟨.commit, .ok ()⟩ ∈ (r.update id (.obj entries)).events answer state →
      ∃ catalog table changes stored body after,
        r.Commits catalog table body after ((r.update id (.obj entries)).events answer state) ∧
        Changes.ofPayload catalog table r.options.pathPolicy false (.obj entries) = .ok changes ∧
        catalog.Names table entries (some stored)
          (.update table.name changes.assignments table.primaryKey (Cell.coerce id table.primaryType)) body) ∧
    (∀ (relation : Relation) (target : Table) (db : Database), ∀ row ∈ db.rows target.name,
      relation.Reaches target db (target.named row) row ↔
        db.equal (row relation.inverseJoinKey) (target.named row) = true) ∧
    ∀ (relation : Relation) (target : Table) (row : TableRow), relation.inverseJoinKey = target.primaryKey →
      (row relation.inverseJoinKey).Conforms target.primaryType →
      (target.named row).identity = (row relation.inverseJoinKey).identity := by
  refine ⟨fun hcommit => ?_, fun hcommit => ?_, fun relation target db row hrow => ?_,
    fun relation target row hkey hconforms => ?_⟩
  · obtain ⟨catalog, table, changes, key, body, after, hcommits, hchanges, hinserts, -⟩ :=
      create_commits (Operation.runs_result answer (r.create (.obj entries)) state) hcommit
    have htable := Catalog.mem_of_table? hcommits.found
    exact ⟨catalog, table, changes, body, after, hcommits, hchanges, hinserts.names hchanges htable⟩
  · obtain ⟨catalog, table, changes, stored, body, after, hcommits, hchanges, hamends, -⟩ :=
      update_commits (Operation.runs_result answer (r.update id (.obj entries)) state) hcommit
    have htable := Catalog.mem_of_table? hcommits.found
    exact ⟨catalog, table, changes, stored, body, after, hcommits, hchanges, hamends.names hchanges htable⟩
  · rw [Relation.reaches_iff]
    exact and_iff_right hrow
  · rw [hkey] at hconforms ⊢
    exact hconforms.identity_coerce

end Repository

/-! ### Clerks and their ranks -/

def Table.ranks : Table :=
  { Table.start "ranks" with
    columns := [⟨"id", .int, false⟩, ⟨"code", .int, false⟩, ⟨"isSystem", .bool, false⟩]
    systemFlag := some "isSystem" }

/-- The rank that clerks have, joined by a column of the ranks. -/
def Relation.rank (column : String) : Relation :=
  .direct "rank" .one "ranks" "rankKey" column

/-- The ranks that they had, joined by the same column. -/
def Relation.past (column : String) : Relation :=
  ⟨"past", .many, "ranks", "id", column, some ⟨"past_ranks", "clerkId", "rankKey"⟩⟩

def Table.clerks (column : String) : Table :=
  { Table.start "clerks" with
    columns := [⟨"id", .int, false⟩, ⟨"rankKey", .int, true⟩]
    relations := [.rank column, .past column] }

def Catalog.ranksById : Catalog where
  tables := [.clerks "id", .ranks]
  sound := by decide +kernel

def Catalog.ranksByCode : Catalog where
  tables := [.clerks "code", .ranks]
  sound := by decide +kernel

/-- A rank that is no system record. -/
def TableRow.rank (id code : Int) : TableRow :=
  fun column => if column = "id" then .int id else if column = "code" then .int code else .int 0

/-- The rank with the key 2 and the code 7, as an object. -/
def Table.rankEntries : Entries :=
  [("id", .int 2), ("code", .int 7), ("isSystem", .bool false)]

/-- It becomes the rank of a clerk and is noted as a past one. -/
def Table.clerkEntries : Entries :=
  [("rank", .obj rankEntries), ("past", .arr [.obj rankEntries])]

theorem Table.shows_rank : Table.ranks.Shows (.rank 2 7) Table.rankEntries := by
  simp only [Shows, ranks, List.forall_mem_cons]
  exact ⟨rfl, rfl, rfl, nofun⟩

namespace Repository

/-- Where ranks are joined by their keys, a clerk gets the rank. -/
theorem targets_named_by_primary_key_ranks :
    let session := Session.start .ranksById .standard [.success ⟨["id", "rankKey"], [[.int 1, .int 4]]⟩ ⟨1, none⟩]
    let op := (standard "clerks").update (.int 1) (.obj Table.clerkEntries)
    ⟨.commit, .ok ()⟩ ∈ op.events Session.answer session ∧ Table.ranks.Shows (.rank 2 7) Table.rankEntries ∧
    (Table.ranks.named (.rank 2 7)).identity = (TableRow.rank 2 7 "id").identity ∧
    ∃ (changes : Changes) (stored record : Row) (body after : List Event),
      (standard "clerks").Commits .ranksById (.clerks "id") body after (op.events Session.answer session) ∧
      ForeignKey.Written ⟨.rank "id", .ranks, .int 2⟩ (some stored)
        (.update "clerks" changes.assignments "id" (.int 1)) body ∧
      (Relation.past "id").Linked ⟨"past_ranks", "clerkId", "rankKey"⟩ .ranks (record.cell "id") (.int 2) body := by
  intro session op
  have hcommit : (op.events Session.answer session).any Event.isCommit = true := by decide +kernel
  obtain ⟨-, hupdate, -, hsame⟩ := (standard "clerks").targets_named_by_primary_key Session.answer session (.int 1)
    Table.clerkEntries
  obtain ⟨catalog, table, changes, stored, body, after, hcommits, -, hnames⟩ :=
    hupdate (Event.commit_mem_iff.mpr hcommit)
  have hclerks : Catalog.ranksById.table? "clerks" = some (.clerks "id") := by decide +kernel
  obtain rfl := Program.catalog_of_mem _ _ _ hcommits.mem_catalog
  obtain rfl := Option.some.inj (hclerks.symm.trans hcommits.found)
  have hwritten := hnames.owning (r := .rank "id") (by decide +kernel) (by decide +kernel) Table.shows_rank
    (by decide +kernel) List.mem_cons_self
  obtain ⟨record, -, hlinked⟩ := hnames.linked (r := .past "id") (by decide +kernel) (by decide +kernel)
    Table.shows_rank rfl (List.mem_cons_of_mem _ List.mem_cons_self) (.inr ⟨_, rfl, List.mem_cons_self⟩) rfl
  exact ⟨Event.commit_mem_iff.mpr hcommit, Table.shows_rank,
    hsame (.rank "id") .ranks (.rank 2 7) rfl (.int rfl rfl),
    changes, stored, record, body, after, hcommits, hwritten, hlinked⟩

/-- Where ranks are joined by their codes, a clerk that gets the rank with the code 7 gets its key 2 for it instead, and
so the rank with the code 2, which is also the one that is looked for. -/
theorem other_rank_reached :
    let session := Session.start .ranksByCode .standard [.success ⟨["id", "rankKey"], [[.int 1, .int 4]]⟩ ⟨1, none⟩]
    let op := (standard "clerks").update (.int 1) (.obj Table.clerkEntries)
    let db : Database := ⟨fun _ => [.rank 2 7, .rank 9 2], fun a b => a == b⟩
    (Relation.rank "code").isOwning (.clerks "code") = true ∧ Table.ranks.Shows (.rank 2 7) Table.rankEntries ∧
    ⟨.commit, .ok ()⟩ ∈ op.events Session.answer session ∧
    (op.events Session.answer session).filterMap Event.change? =
      [.link ⟨"past_ranks", "clerkId", "rankKey"⟩ (.int 1) (.int 2),
        .update "clerks" [("rankKey", .int 2)] "id" (.int 1)] ∧
    (op.events Session.answer session).filterMap Event.look? =
      [⟨"ranks", "code", "isSystem", [.int 4]⟩, ⟨"ranks", "code", "isSystem", [.int 2]⟩,
        ⟨"ranks", "code", "isSystem", [.int 2]⟩] ∧
    TableRow.rank 2 7 (Relation.rank "code").inverseJoinKey = .int 7 ∧
    ∀ r ∈ [Relation.rank "code", Relation.past "code"],
      ¬r.Reaches .ranks db (.int 2) (.rank 2 7) ∧ r.Reaches .ranks db (.int 2) (.rank 9 2) := by
  intro session op db
  refine ⟨by decide +kernel, Table.shows_rank, Event.commit_mem_iff.mpr (by decide +kernel), by decide +kernel,
    by decide +kernel, rfl, ?_⟩
  simp only [Relation.reaches_iff, List.forall_mem_cons]
  refine ⟨⟨?_, ?_⟩, ⟨?_, ?_⟩, nofun⟩
  · rintro ⟨-, hequal⟩
    exact absurd hequal (by decide)
  · exact ⟨List.mem_cons_of_mem _ List.mem_cons_self, rfl⟩
  · rintro ⟨-, hequal⟩
    exact absurd hequal (by decide)
  · exact ⟨List.mem_cons_of_mem _ List.mem_cons_self, rfl⟩

end Repository
end RecordService
