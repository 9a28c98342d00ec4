import RecordService.Proofs.Repository.Protected
import RecordService.Proofs.Sql.Mentions

/-! # Assignments

An entry of a payload assigns a column of the record, by its own name or as the foreign key of a relation, or none
(`Table.assignment?`). What is inserted or updated for a payload is what its entries assign, in some order
(`Table.Assigns`): so a column is named twice exactly if two entries assign it. -/

namespace RecordService

namespace Table

variable (t : Table) (creating : Bool)

/-- The column that is assigned for an entry with a key: that of its name, unless it is the key of a record that is
there already, or the foreign key of the relation of its name. -/
def assigned? (key : String) : Option String :=
  match t.column? key with
  | some column => if !creating && key == t.primaryKey then none else some column.name
  | none => ((t.relation? key).filter (·.isOwning t)).map (·.joinKey)

/-- What is assigned for an entry. -/
def assignment? (catalog : Catalog) (entry : String × Json) : Option (String × Cell) :=
  match t.column? entry.1 with
  | some column =>
    if !creating && entry.1 == t.primaryKey then none else some (column.name, .coerce entry.2 column.type)
  | none =>
    ((t.relation? entry.1).filter (·.isOwning t)).bind fun r =>
      (catalog.target? r).bind fun target => (relatedId r.name target entry.2).toOption.map fun id => (r.joinKey, id)

/-- The values are assigned for the entries of a payload. -/
structure Assigns (catalog : Catalog) (entries : Entries) (values : Row) : Prop where
  /-- Each entry assigns its column the value that it says. -/
  exact : values.Perm (entries.filterMap (t.assignment? creating catalog))
  declared : ∀ v ∈ values, (t.column? v.1).isSome = true
  /-- A record keeps its key. -/
  keyed : creating = false → ∀ v ∈ values, v.1 ≠ t.primaryKey
  /-- A column is assigned twice only if two entries assign it. -/
  once : (values.map (·.1)).Nodup ↔
    entries.Pairwise fun e e' => ∀ column ∈ t.assigned? creating e.1, column ∉ t.assigned? creating e'.1

/-- The key of a record that is there already is not assigned, neither by its name nor as a foreign key. -/
theorem ne_primaryKey_of_assigned? {t : Table} {key column : String} (h : t.assigned? false key = some column) :
    column ≠ t.primaryKey := by
  unfold assigned? at h
  split at h
  · rename_i declared hcolumn
    obtain rfl := Catalog.name_of_column? hcolumn
    split at h
    · cases h
    · rename_i hkey
      obtain rfl := Option.some.inj h
      simpa using hkey
  · obtain ⟨r, hr, rfl⟩ := Option.map_eq_some_iff.mp h
    obtain ⟨-, howning⟩ := Option.filter_eq_some_iff.mp hr
    simp only [Relation.isOwning, Bool.and_eq_true, bne_iff_ne] at howning
    exact howning.2

end Table

/-! ### Entries -/

namespace Changes

variable {catalog : Catalog} {table : Table} {policy : PathPolicy} {creating : Bool} {c c' : Changes}

/-- An entry assigns one column or none. -/
theorem Adds.assignment {entry : String × Json} (h : Adds catalog table policy creating c entry c')
    (htable : table ∈ catalog.tables) :
    c'.assignments.Perm (c.assignments ++ (table.assignment? creating catalog entry).toList) ∧
      (table.assignment? creating catalog entry).map (·.1) = table.assigned? creating entry.1 := by
  cases h with
  | kept value hold =>
    obtain ⟨column, hcolumn⟩ := Option.isSome_iff_exists.mp (Catalog.primaryKey_declared htable)
    simp [Table.assignment?, Table.assigned?, hcolumn, hold]
  | dropped value _ hcolumn hrelation => simp [Table.assignment?, Table.assigned?, hcolumn, hrelation]
  | @column column value hcolumn hkey =>
    have hassigned : ¬(creating = false ∧ column.name = table.primaryKey) := by
      rintro ⟨rfl, heq⟩
      exact hkey.elim Bool.false_ne_true (absurd heq)
    have hvalue : table.assignment? creating catalog (column.name, value) =
        some (column.name, .coerce value column.type) := by
      simp [Table.assignment?, hcolumn, hassigned]
    refine ⟨?_, by simp [hvalue, Table.assigned?, hcolumn, hassigned]⟩
    -- the column comes before the foreign keys that are there
    rw [hvalue, assignments, assignments, Option.toList_some, List.append_assoc, List.append_assoc]
    exact List.perm_append_comm.append_left _
  | @foreignKey r target value id hcolumn hrelation htarget howning hid =>
    have hvalue : table.assignment? creating catalog (r.name, value) = some (r.joinKey, id) := by
      simp [Table.assignment?, hcolumn, hrelation, Option.filter_some, howning, htarget, hid, Except.toOption]
    refine ⟨?_, by simp [hvalue, Table.assigned?, hcolumn, hrelation, Option.filter_some, howning]⟩
    simp [hvalue, assignments]
  | links hcolumn hrelation _ howning =>
    simp [Table.assignment?, Table.assigned?, assignments, hcolumn, hrelation, Option.filter_some, howning]

theorem assignments_foldlM (htable : table ∈ catalog.tables) : ∀ {entries : Entries} {c c' : Changes},
    entries.foldlM (addEntry catalog table policy creating) c = .ok c' →
      c'.assignments.Perm (c.assignments ++ entries.filterMap (table.assignment? creating catalog)) ∧
      ∀ entry ∈ entries, (table.assignment? creating catalog entry).map (·.1) = table.assigned? creating entry.1
  | [], c, c', h => by
    obtain rfl := Except.ok.inj h
    simp
  | entry :: rest, c, c', h => by
    rw [List.foldlM_cons] at h
    obtain ⟨c₁, hentry, hrest⟩ := bind_eq_ok.mp h
    obtain ⟨hfirst, hcolumn⟩ := (adds_of_addEntry hentry).assignment htable
    obtain ⟨hmore, hcolumns⟩ := assignments_foldlM htable hrest
    refine ⟨?_, List.forall_mem_cons.mpr ⟨hcolumn, hcolumns⟩⟩
    have hboth := hmore.trans (hfirst.append_right _)
    rw [List.append_assoc] at hboth
    cases hvalue : table.assignment? creating catalog entry with
    | none =>
      rw [hvalue] at hboth
      rwa [List.filterMap_cons_none hvalue]
    | some value =>
      rw [hvalue] at hboth
      rwa [List.filterMap_cons_some hvalue]

theorem ofPayload_assigns {payload : Json} (htable : table ∈ catalog.tables)
    (h : ofPayload catalog table policy creating payload = .ok c) :
    ∃ entries, payload = .obj entries ∧ table.Assigns creating catalog entries c.assignments := by
  obtain ⟨entries, rfl, hdeclared⟩ := Declared.of_payload h
  obtain ⟨hexact, hcolumns⟩ := assignments_foldlM htable h
  have hnames : (c.assignments.map (·.1)).Perm (entries.filterMap fun e => table.assigned? creating e.1) := by
    have hmapped := hexact.map (·.1)
    rwa [show empty.assignments = [] from rfl, List.nil_append, List.map_filterMap,
      List.filterMap_congr hcolumns] at hmapped
  refine ⟨entries, rfl, hexact, fun v hv => hdeclared.assignments htable hv, ?_, ?_⟩
  · rintro rfl v hv
    obtain ⟨entry, -, hassigned⟩ := List.mem_filterMap.mp (hnames.subset (List.mem_map_of_mem hv))
    exact Table.ne_primaryKey_of_assigned? hassigned
  · rw [hnames.nodup_iff, List.Nodup, List.pairwise_filterMap]
    exact ⟨fun h => h.imp fun hne column hcolumn hcolumn' => hne column hcolumn column hcolumn' rfl,
      fun h => h.imp fun hother column hcolumn column' hcolumn' heq => hother column hcolumn (by rwa [heq])⟩

end Changes

/-! ### Statements -/

namespace Repository

variable {table : Table} {changes : Changes} {key : Cell}

/-- The work of an insertion changes links and inserts what is assigned. -/
theorem insert_writes (table : Table) (changes : Changes) : (insert table changes).OnlyAsks fun step =>
    ∀ c, step = .change c → c.linkTable?.isSome = true ∨ c = .insert table.name changes.assignments := by
  refine insert_asks (fun _ _ => nofun) (fun c hc => ?_) fun l _ parent detached attached c hc c' hc' => ?_
  · obtain rfl := Step.change.inj hc
    exact Or.inr rfl
  · obtain rfl := Step.change.inj hc'
    rw [LinkSet.linkTable?_of_mem_changes hc]
    exact Or.inl rfl

/-- The work of an update changes links and updates what is assigned, if anything is. -/
theorem amend_writes (table : Table) (changes : Changes) (key : Cell) : (amend table changes key).OnlyAsks fun step =>
    ∀ c, step = .change c → c.linkTable?.isSome = true ∨
      changes.assignments ≠ [] ∧ c = .update table.name changes.assignments table.primaryKey key := by
  refine amend_asks (fun _ _ => nofun) (fun hsome c hc => ?_) fun l _ parent detached attached c hc c' hc' => ?_
  · obtain rfl := Step.change.inj hc
    exact Or.inr ⟨hsome, rfl⟩
  · obtain rfl := Step.change.inj hc'
    rw [LinkSet.linkTable?_of_mem_changes hc]
    exact Or.inl rfl

variable (r : Repository) {σ : Type}

/-- Whatever answers its steps, and whether it commits or not, a creation changes the store by link changes and by
insertions, an update by link changes and by updates, of what the entries of the payload assign. All columns that are
named are the table's, an update never names the primary key, and each column has its value at its place, with the key
of an update last. A column is named twice exactly if two entries of the payload assign it. -/
theorem writes_assigned (answer : (step : Step) → σ → step.Answer × σ) (state : σ) (id payload : Json) :
    (∀ c reply, ⟨.change c, reply⟩ ∈ (r.create payload).events answer state →
      c.linkTable?.isSome = true ∨ ∃ catalog table entries values,
        ⟨.catalog, catalog⟩ ∈ (r.create payload).events answer state ∧ catalog.table? r.table = some table ∧
        payload = .obj entries ∧ table.Assigns true catalog entries values ∧ c = .insert table.name values ∧
        Sql.mentions? c.statement.sql = some (.name table.name :: (values.map fun v => .name v.1) ++
          List.replicate values.length .placeholder) ∧
        c.statement.params = values.map (·.2)) ∧
    (∀ c reply, ⟨.change c, reply⟩ ∈ (r.update id payload).events answer state →
      c.linkTable?.isSome = true ∨ ∃ catalog table entries values,
        ⟨.catalog, catalog⟩ ∈ (r.update id payload).events answer state ∧ catalog.table? r.table = some table ∧
        payload = .obj entries ∧ table.Assigns false catalog entries values ∧ values ≠ [] ∧
        c = .update table.name values table.primaryKey (.coerce id table.primaryType) ∧
        Sql.mentions? c.statement.sql = some (.name table.name ::
          values.flatMap (fun v => [.name v.1, .placeholder]) ++ [.name table.primaryKey, .placeholder]) ∧
        c.statement.params = values.map (·.2) ++ [.coerce id table.primaryType]) := by
  constructor
  · intro c reply hchange
    obtain ⟨catalog, table, work, body, _, hcatalog, htable, hprepare, hwork, hbody⟩ :=
      (r.mutates_of_create (Operation.runs_result answer (r.create payload) state)).work_of_change hchange
    obtain ⟨changes, hchanges, rfl⟩ := r.insertion_eq_ok hprepare
    obtain ⟨entries, hentries, hassigns⟩ := Changes.ofPayload_assigns (Catalog.mem_of_table? htable) hchanges
    refine ((insert_writes table changes).steps _ _ hwork _ hbody c rfl).imp_right ?_
    rintro rfl
    have hstatement := Change.mentions_insert table.name changes.assignments
    exact ⟨catalog, table, entries, changes.assignments, hcatalog, htable, hentries, hassigns, rfl, hstatement⟩
  · intro c reply hchange
    obtain ⟨catalog, table, work, body, _, hcatalog, htable, hprepare, hwork, hbody⟩ :=
      (r.mutates_of_update (Operation.runs_result answer (r.update id payload) state)).work_of_change hchange
    obtain ⟨changes, hchanges, rfl⟩ := r.amendment_eq_ok hprepare
    obtain ⟨entries, hentries, hassigns⟩ := Changes.ofPayload_assigns (Catalog.mem_of_table? htable) hchanges
    refine ((amend_writes table changes _).steps _ _ hwork _ hbody c rfl).imp_right ?_
    rintro ⟨hsome, rfl⟩
    have hstatement := Change.mentions_update table.name table.primaryKey changes.assignments
      (.coerce id table.primaryType)
    exact ⟨catalog, table, entries, changes.assignments, hcatalog, htable, hentries, hassigns, hsome, rfl, hstatement⟩

/-- A user gets a name and a role, and keeps its key, though the payload has another one. -/
theorem writes_assigned_staff :
    let session := loading ["id", "name", "roleId"] [.int 1, .text "Ann", .int 2] []
    let entries := [("id", .int 7), ("name", .str "Bo"), ("role", .int 2)]
    let values := [("name", .text "Bo"), ("roleId", .int 2)]
    let events := ((standard "users").update (.int 1) (.obj entries)).events Session.answer session
    let change := .update "users" values "id" (.int 1)
    change ∈ events.filterMap Event.change? ∧ Table.users.Assigns false .staff entries values ∧
    (values.map (·.1)).Nodup ∧
    Sql.mentions? change.statement.sql =
      some [.name "users", .name "name", .placeholder, .name "roleId", .placeholder, .name "id", .placeholder] ∧
    change.statement.params = [.text "Bo", .int 2, .int 1] := by
  intro session entries values events change
  have hchanges : events.filterMap Event.change? = [change] := by decide +kernel
  have hchange : change ∈ events.filterMap Event.change? := hchanges ▸ List.mem_singleton_self change
  obtain ⟨reply, hmem⟩ := Event.change_mem_iff.mpr hchange
  have hwrites :=
    ((standard "users").writes_assigned Session.answer session (.int 1) (.obj entries)).2 change reply hmem
  obtain ⟨catalog, table, _, _, hcatalog, htable, hentries, hassigns, -, hupdate, hmentions, hparams⟩ :=
    hwrites.resolve_left Bool.false_ne_true
  have husers : Catalog.staff.table? "users" = some .users := by decide +kernel
  obtain rfl := Program.catalog_of_mem _ _ _ hcatalog
  obtain rfl := Option.some.inj (husers.symm.trans htable)
  obtain rfl := Json.obj.inj hentries
  obtain ⟨-, rfl, -, -⟩ := Change.update.inj hupdate
  exact ⟨hchange, hassigns, by decide +kernel, hmentions, hparams⟩

/-- A user's new role is given by its column and by its relation, and the column is assigned twice. -/
theorem column_assigned_twice_staff :
    let session := loading ["id", "name", "roleId"] [.int 1, .text "Ann", .int 1] []
    let payload := .obj [("roleId", .int 2), ("role", .int 2)]
    let events := ((standard "users").update (.int 1) payload).events Session.answer session
    let change := .update "users" [("roleId", .int 2), ("roleId", .int 2)] "id" (.int 1)
    change ∈ events.filterMap Event.change? ∧
    Sql.mentions? change.statement.sql =
      some [.name "users", .name "roleId", .placeholder, .name "roleId", .placeholder, .name "id", .placeholder] := by
  intro session payload events change
  exact ⟨by decide +kernel, (Change.mentions_update ..).1⟩

end Repository
end RecordService
