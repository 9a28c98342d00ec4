import RecordService.Proofs.Repository.Commits

/-! # System records keep what they have

A system record is not deleted, and a change of one commits only if it assigns every column that is not exempt the value
that it has, and every relation that is not exempt the links that it has. -/

namespace RecordService

open Operation

/-! ### Marks -/

/-- The row has the mark of a system record. -/
def Table.Marks (t : Table) (row : Row) : Prop :=
  ∃ flag value, t.systemFlag = some flag ∧ (flag, value) ∈ row ∧ value.isSet = true

theorem Table.isSystem_iff {t : Table} {row : Row} : t.isSystem row = true ↔ t.Marks row := by
  unfold isSystem Marks
  cases t.systemFlag with
  | none => simp
  | some flag => simp [List.any_eq_true]

/-! ### Columns -/

theorem Table.checkUpdate_eq_ok {t : Table} {id : String} {row values : Row} (h : t.checkUpdate id row values = .ok ())
    (hsystem : t.isSystem row = true) {column : String} {value : Cell} (hmem : (column, value) ∈ values) :
    t.isExempt column = true ∨ ∃ current, row.lookup column = some current ∧
      current.sameValue value (((t.column? column).map (·.type)).getD .text) = true := by
  unfold checkUpdate at h
  rw [if_pos hsystem] at h
  cases hfield : t.changedField? row values with
  | some field =>
    rw [hfield] at h
    cases h
  | none =>
    rw [changedField?, Option.map_eq_none_iff, List.find?_eq_none] at hfield
    have hkept := hfield _ hmem
    rw [Bool.and_eq_true, not_and_or, Bool.not_eq_true', Bool.not_eq_true', Bool.not_eq_false, Bool.not_eq_false,
      Option.any_eq_true] at hkept
    exact hkept

/-! ### Links -/

/-- The cells have the same identities. -/
def Cell.SameKeys (a b : List Cell) : Prop :=
  ∀ identity, identity ∈ a.map Cell.identity ↔ identity ∈ b.map Cell.identity

theorem Cell.without_eq_nil {cells others : List Cell} :
    Cell.without cells others = [] ↔ ∀ identity ∈ cells.map Cell.identity, identity ∈ others.map Cell.identity := by
  simp only [without, List.filter_eq_nil_iff, List.forall_mem_map, Bool.not_eq_true, Bool.not_eq_false',
    List.contains_iff_mem]

theorem Cell.sameKeys_iff {a b : List Cell} :
    Cell.SameKeys a b ↔ Cell.without a b = [] ∧ Cell.without b a = [] := by
  rw [without_eq_nil, without_eq_nil]
  constructor
  · intro h
    exact ⟨fun i => (h i).mp, fun i => (h i).mpr⟩
  · rintro ⟨hab, hba⟩ i
    exact ⟨hab i, hba i⟩

/-! ### What is kept -/

/-- The columns and links of a system record's row stay as they are, exempt fields apart: the columns that updates
assign, and the links that are found and are to be those of the changes. -/
structure Table.Keeps (t : Table) (changes : Changes) (row : Row) (events : List Event) : Prop where
  columns : ∀ values ∈ events.filterMap Event.assigned?, ∀ column value, (column, value) ∈ values →
    t.isExempt column = true ∨ ∃ declared current, t.column? column = some declared ∧
      row.lookup column = some current ∧ current.sameValue value declared.type = true
  links : List.Forall₂ (fun (l : LinkSet) (found : LinkTable × Cell × List Cell) =>
      ∃ keys, found = (l.table, row.cell l.relation.joinKey, keys) ∧
        (¬Cell.SameKeys keys l.ids → t.isExempt l.relation.name = true))
    changes.links (events.filterMap Event.links?)

namespace Repository

variable {table : Table} {key : Cell} {row : Row} {changes : Changes} {events : List Event}

theorem Amends.keeps {catalog : Catalog} {entries : Entries} (h : Amends table changes key row events)
    (htable : table ∈ catalog.tables) (hdeclared : changes.Declared catalog table entries)
    (hmarks : table.Marks row) : table.Keeps changes row events := by
  have hsystem := Table.isSystem_iff.mpr hmarks
  constructor
  · intro values hvalues column value hmem
    rw [h.assigned] at hvalues
    obtain rfl : values = changes.assignments := by
      split at hvalues
      · cases hvalues
      · exact List.mem_singleton.mp hvalues
    have hcolumn := hdeclared.assignments htable hmem
    obtain ⟨declared, hcolumn⟩ := Option.isSome_iff_exists.mp hcolumn
    refine (Table.checkUpdate_eq_ok h.allowed hsystem hmem).imp_right ?_
    rintro ⟨current, hcurrent, hsame⟩
    rw [hcolumn] at hsame
    exact ⟨declared, current, hcolumn, hcurrent, hsame⟩
  · refine h.links.imp fun l found hfound => ?_
    obtain ⟨keys, rfl, hkept⟩ := hfound
    refine ⟨keys, rfl, fun hdiffer => ?_⟩
    rcases hkept with ⟨hattached, hdetached⟩ | hallowed
    · exact absurd (Cell.sameKeys_iff.mpr ⟨hdetached, hattached⟩) hdiffer
    · exact hallowed hsystem

/-- Once the row of a system record is loaded, nothing is removed. -/
theorem remove_runs_of_system {result : Except Error Unit} (h : (remove table key).Runs events result)
    (hloaded : row ∈ events.filterMap Event.loaded?) (hmarks : table.Marks row) :
    (∀ c reply, ⟨.change c, reply⟩ ∉ events) ∧ result = .error (.protection (.delete table.name key.keyText)) := by
  unfold remove at h
  obtain ⟨e, hload, -⟩ | ⟨load, stored, rest, hload, hwork, rfl⟩ := runs_bind.mp h
  · rw [loadRow_runs_error hload] at hloaded
    cases hloaded
  have hload := loadRow_runs_ok hload
  cases hsystem : table.isSystem stored with
  | true =>
    rw [hsystem] at hwork
    obtain ⟨_, hthrow, rfl⟩ | ⟨_, _, _, hthrow, -⟩ := runs_bind.mp hwork
    · obtain ⟨rfl, he⟩ := runs_throw.mp hthrow
      obtain rfl := Except.error.inj he
      obtain ⟨rows, -, rfl⟩ := hload
      refine ⟨fun c reply hmem => ?_, rfl⟩
      cases List.mem_singleton.mp hmem
    · cases (runs_throw.mp hthrow).2
  | false =>
    rw [hsystem] at hwork
    -- the row is the one that was loaded first, since what follows only changes
    have hchanges : OnlyAsks (do
        deleteLinks stored table.relations
        let _ ← Operation.change (.delete table.name table.primaryKey key)) (∃ c, · = .change c) :=
      .bind (deleteLinks_asks (fun c => ⟨c, rfl⟩) ..) fun _ => .bind (.change ⟨_, rfl⟩) fun _ => .pure _
    have hrest : rest.filterMap Event.loaded? = [] := by
      rw [List.filterMap_eq_nil_iff]
      rintro ⟨step, reply⟩ hevent
      obtain ⟨c, rfl : step = _⟩ := hchanges.steps _ _ hwork _ hevent
      rfl
    rw [List.filterMap_append, hload.loaded, hrest, List.append_nil, List.mem_singleton] at hloaded
    subst hloaded
    rw [Table.isSystem_iff.mpr hmarks] at hsystem
    cases hsystem

variable (r : Repository) {id : Json}

theorem delete_runs_of_system {result : Except Error Unit} (h : (r.delete id).Runs events result) :
    ∃ catalog, ⟨.catalog, catalog⟩ ∈ events ∧ ∀ table row, catalog.table? r.table = some table →
      row ∈ events.filterMap Event.loaded? → table.Marks row → (∀ c reply, ⟨.change c, reply⟩ ∉ events) ∧
        result = .error (.protection (.delete table.name (Cell.coerce id table.primaryType).keyText)) := by
  cases r.mutates_of_delete h with
  | refused catalog e =>
    refine ⟨catalog, List.mem_singleton_self _, fun table row _ hloaded _ => ?_⟩
    cases hloaded
  | unopened =>
    refine ⟨_, List.mem_cons_self, fun table row _ hloaded _ => ?_⟩
    cases hloaded
  | @rolledBack catalog table work body e htable hprepare hwork _ =>
    refine ⟨catalog, List.mem_cons_self, fun table' row htable' hloaded hmarks => ?_⟩
    obtain rfl := Option.some.inj (htable.symm.trans htable')
    obtain rfl := Except.ok.inj hprepare
    have hbody : row ∈ body.filterMap Event.loaded? := by
      simpa [Event.loaded?] using hloaded
    obtain ⟨hchanges, hresult⟩ := remove_runs_of_system hwork hbody hmarks
    refine ⟨fun c reply hmem => ?_, by rw [Except.error.inj hresult]⟩
    simp only [List.cons_append, List.mem_cons, List.mem_append, List.not_mem_nil, or_false] at hmem
    rcases hmem with habsurd | habsurd | hmem | habsurd
    · cases habsurd
    · cases habsurd
    · exact hchanges c reply hmem
    · cases habsurd
  -- a deletion of a system record fails, so that its commit is not even tried
  | @uncommitted catalog table work body value e htable hprepare hwork _ =>
    refine ⟨catalog, List.mem_cons_self, fun table' row htable' hloaded hmarks => ?_⟩
    obtain rfl := Except.ok.inj hprepare
    obtain rfl := Option.some.inj (htable.symm.trans htable')
    have hbody : row ∈ body.filterMap Event.loaded? := by
      simpa [Event.loaded?] using hloaded
    cases (remove_runs_of_system hwork hbody hmarks).2
  | @committed catalog table work body value after result htable hprepare hwork _ hreread _ =>
    refine ⟨catalog, List.mem_cons_self, fun table' row htable' hloaded hmarks => ?_⟩
    obtain rfl := Except.ok.inj hprepare
    obtain ⟨rfl, -⟩ := runs_pure.mp hreread
    have hstale : (r.staleness table).filterMap Event.loaded? = [] := by
      rw [List.filterMap_eq_nil_iff, staleness, List.forall_mem_map]
      exact fun _ _ => rfl
    simp only [List.cons_append, List.append_nil, List.filterMap_cons, List.filterMap_append, hstale] at hloaded
    replace hloaded : row ∈ body.filterMap Event.loaded? := by simpa only [Event.loaded?, List.append_nil] using hloaded
    obtain rfl := Option.some.inj (htable.symm.trans htable')
    cases (remove_runs_of_system hwork hloaded hmarks).2

variable {σ : Type}

/-- Whatever answers its steps, a deletion that loads the row of a system record changes nothing and is refused, and an
update that loads the row of one commits only if all that it writes, exempt fields apart, is what is there already. -/
theorem system_records_kept (answer : (step : Step) → σ → step.Answer × σ) (state : σ) (id payload : Json) :
    (∃ catalog, ⟨.catalog, catalog⟩ ∈ (r.delete id).events answer state ∧
      ∀ table row, catalog.table? r.table = some table →
        row ∈ ((r.delete id).events answer state).filterMap Event.loaded? → table.Marks row →
        (∀ c reply, ⟨.change c, reply⟩ ∉ (r.delete id).events answer state) ∧
          (r.delete id).result answer state =
            .error (.protection (.delete table.name (Cell.coerce id table.primaryType).keyText))) ∧
    (⟨.commit, .ok ()⟩ ∈ (r.update id payload).events answer state →
      ∃ catalog table changes row body after,
        r.Commits catalog table body after ((r.update id payload).events answer state) ∧
        Changes.ofPayload catalog table r.options.pathPolicy false payload = .ok changes ∧
        body.filterMap Event.loaded? = [row] ∧ (table.Marks row → table.Keeps changes row body)) := by
  constructor
  · exact r.delete_runs_of_system (Operation.runs_result answer (r.delete id) state)
  · intro hcommit
    obtain ⟨catalog, table, changes, row, body, after, hcommits, hchanges, hamends, -⟩ :=
      update_commits (Operation.runs_result answer (r.update id payload) state) hcommit
    have htable := Catalog.mem_of_table? hcommits.found
    obtain ⟨_, -, hdeclared⟩ := Changes.Declared.of_payload hchanges
    exact ⟨catalog, table, changes, row, body, after, hcommits, hchanges, hamends.loaded,
      hamends.keeps htable hdeclared⟩

end Repository

/-! ### Users and their roles -/

def Table.users : Table where
  name := "users"
  primaryKey := "id"
  columns := [⟨"id", .int, false⟩, ⟨"name", .text, false⟩, ⟨"roleId", .int, true⟩]
  relations := [.direct "role" .one "roles" "roleId" "id"]
  systemFlag := none
  exemptFields := []
  cacheScope := some "people"

/-- Roles, which may be system records. Their users may change even then. -/
def Table.roles : Table where
  name := "roles"
  primaryKey := "id"
  columns := [⟨"id", .int, false⟩, ⟨"name", .text, false⟩, ⟨"isSystem", .bool, false⟩]
  relations := [.direct "users" .many "users" "id" "roleId"]
  systemFlag := some "isSystem"
  exemptFields := ["users"]
  cacheScope := some "access"

def Catalog.staff : Catalog where
  tables := [.users, .roles]
  sound := by decide +kernel

namespace Repository

/-- The records of a table, with the usual options and a cache. -/
def standard (table : String) : Repository :=
  ⟨table, .standard, true⟩

/-- A session in which a record is loaded first, and then keys are found. -/
def loading (columns : List String) (row : List Cell) (found : List Cell) : Session :=
  .start .staff .standard [.success ⟨columns, [row]⟩ ⟨1, none⟩, .success ⟨["id"], found.map fun key => [key]⟩ ⟨1, none⟩]

/-- An administrator's role is not deleted, but its users may change. -/
theorem system_records_kept_staff :
    let session := loading ["id", "name", "isSystem"] [.int 1, .text "Admin", .int 1] [.int 1]
    let payload := .obj [("name", .str "Admin"), ("isSystem", .bool true), ("users", .arr [.int 2])]
    let row := [("id", .int 1), ("name", .text "Admin"), ("isSystem", .int 1)]
    (∀ c reply, ⟨.change c, reply⟩ ∉ ((standard "roles").delete (.int 1)).events Session.answer session) ∧
    ((standard "roles").delete (.int 1)).result Session.answer session = .error (.protection (.delete "roles" "1")) ∧
    ∃ changes body after,
      (standard "roles").Commits .staff .roles body after
        (((standard "roles").update (.int 1) payload).events Session.answer session) ∧
      Table.roles.Marks row ∧ Table.roles.Keeps changes row body := by
  intro session payload row
  obtain ⟨⟨catalog, hcatalog, hdelete⟩, hupdate⟩ :=
    (standard "roles").system_records_kept Session.answer session (.int 1) payload
  obtain rfl := Program.catalog_of_mem _ _ _ hcatalog
  have hroles : Catalog.staff.table? "roles" = some .roles := by decide +kernel
  have hmarks : Table.roles.Marks row := Table.isSystem_iff.mp (by decide +kernel)
  have hdeleted :
      row ∈ (((standard "roles").delete (.int 1)).events Session.answer session).filterMap Event.loaded? := by
    decide +kernel
  obtain ⟨hchanges, hresult⟩ := hdelete .roles row hroles hdeleted hmarks
  have hcommit :
      (((standard "roles").update (.int 1) payload).events Session.answer session).any Event.isCommit = true := by
    decide +kernel
  have hloaded : (((standard "roles").update (.int 1) payload).events Session.answer session).filterMap Event.loaded? =
      [row] := by
    decide +kernel
  obtain ⟨catalog, table, changes, stored, body, after, hcommits, -, hstored, hkeeps⟩ :=
    hupdate (Event.commit_mem_iff.mpr hcommit)
  obtain rfl := Program.catalog_of_mem _ _ _ hcommits.mem_catalog
  obtain rfl := Option.some.inj (hroles.symm.trans hcommits.found)
  have hrow := hcommits.mem_filterMap (hstored ▸ List.mem_singleton_self stored)
  rw [hloaded, List.mem_singleton] at hrow
  rw [hrow] at hkeeps
  exact ⟨hchanges, hresult, changes, body, after, hcommits, hmarks, hkeeps hmarks⟩

end Repository
end RecordService
