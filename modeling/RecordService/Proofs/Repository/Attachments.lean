import RecordService.Proofs.Repository.Protected

/-! # Foreign keys of system records

Before a record is written, the keys that a payload gives its owning relations are looked for among the system records
of their targets, with the stored keys that they replace, and the record is written only if none is found there.
Columns that the payload names are written as they are: nothing is looked for when such a column is a foreign key. -/

namespace RecordService

open Operation

theorem Table.mem_looks {t : Table} {column flag : String} {value : Cell} (hflag : t.systemFlag = some flag)
    (hvalue : value.isNull = false) : ⟨t.name, column, flag, [value]⟩ ∈ t.looks column (Repository.nonNull value) := by
  have hvalues : Repository.nonNull value = [value] := by simp [Repository.nonNull, hvalue]
  rw [hvalues]
  exact mem_looks_of_mem hflag (List.mem_singleton_self value)

namespace ForeignKey

variable {fk : ForeignKey} {value : Cell} {row : Option Row} {all : List Look} {events events' : List Event}

/-- Where the target marks its system records, the value was looked for among them, and none was found. -/
def Cleared (fk : ForeignKey) (value : Cell) (events : List Event) : Prop :=
  ∀ flag, fk.target.systemFlag = some flag → value.isNull = false → ∃ columns,
    ⟨.query (.flagged fk.target.name fk.relation.inverseJoinKey flag [value]), .ok ⟨columns, []⟩⟩ ∈ events

theorem Cleared.mono (h : fk.Cleared value events) (hsubset : events ⊆ events') : fk.Cleared value events' := by
  intro flag hflag hvalue
  obtain ⟨columns, hmem⟩ := h flag hflag hvalue
  exact ⟨columns, hsubset hmem⟩

theorem cleared_of_findNothing (h : Event.FindNothing all events)
    (hlooks : fk.target.looks fk.relation.inverseJoinKey (Repository.nonNull value) ⊆ all) :
    fk.Cleared value events := by
  intro flag hflag hvalue
  exact h.mem (hlooks (Table.mem_looks hflag hvalue))

/-- The key is cleared, and so is the one that it replaces in the row, unless they are the same. A new record has no row
yet. -/
def Vetted (fk : ForeignKey) (row : Option Row) (events : List Event) : Prop :=
  match row with
  | none => fk.Cleared fk.value events
  | some row => (row.cell fk.relation.joinKey).sameValue fk.value fk.target.primaryType = false →
      fk.Cleared (row.cell fk.relation.joinKey) events ∧ fk.Cleared fk.value events

/-- The looks before the key is written. -/
def looks (fk : ForeignKey) : Option Row → List Look
  | none => fk.attaching
  | some row => fk.replacing row

theorem vetted_of_findNothing (h : Event.FindNothing all events) (hlooks : fk.looks row ⊆ all) :
    fk.Vetted row events := by
  cases row with
  | none => exact cleared_of_findNothing h hlooks
  | some row =>
    intro hdiffer
    rw [ForeignKey.looks, replacing, hdiffer, if_neg Bool.false_ne_true] at hlooks
    obtain ⟨hold, hnew⟩ := List.append_subset.mp hlooks
    exact ⟨cleared_of_findNothing h hold, cleared_of_findNothing h hnew⟩

theorem Vetted.mono (h : fk.Vetted row events) (hsubset : events ⊆ events') :
    fk.Vetted row events' := by
  cases row with
  | none => exact Cleared.mono h hsubset
  | some row => exact fun hdiffer => (h hdiffer).imp (·.mono hsubset) (·.mono hsubset)

end ForeignKey

namespace Repository

variable {catalog : Catalog} {table : Table} {changes : Changes} {key : Cell} {row : Row} {entries : Entries}
  {events : List Event}

/-- What leads to the writing of changes to a row, or to a new one: the foreign keys of the relations that the entries
name are vetted, and nothing else is looked for unless links are replaced. -/
structure Prepares (catalog : Catalog) (table : Table) (entries : Entries) (changes : Changes) (row : Option Row)
    (before : List Event) : Prop where
  assigned : ∀ column value, (column, value) ∈ changes.assignments → (∃ document, (column, document) ∈ entries) ∨
    ∃ fk ∈ changes.foreignKeys, fk.relation.joinKey = column ∧ fk.value = value
  owning : ∀ fk ∈ changes.foreignKeys, fk.relation ∈ table.relations ∧
    catalog.target? fk.relation = some fk.target ∧ fk.relation.isOwning table = true ∧
    ∃ document, (fk.relation.name, document) ∈ entries
  loaded : before.filterMap Event.loaded? = row.toList
  vetted : ∀ fk ∈ changes.foreignKeys, fk.Vetted row before
  looked : changes.links = [] → before.filterMap Event.look? = changes.foreignKeys.flatMap (·.looks row)

theorem prepares_of_findNothing {row : Option Row} (load : List Event) {checks : List Event} (rest : List Event)
    (hdeclared : changes.Declared catalog table entries) (hload : load.filterMap Event.loaded? = row.toList)
    (hlook : load.filterMap Event.look? = [])
    (hchecks : Event.FindNothing (changes.foreignKeys.flatMap (·.looks row)) checks)
    (hrest : rest.filterMap Event.loaded? = []) (hlinks : changes.links = [] → rest = []) :
    Prepares catalog table entries changes row (load ++ checks ++ rest) := by
  constructor
  · intro column value hmem
    rcases List.mem_append.mp hmem with hmem | hmem
    · obtain ⟨_, document, -, hentry, -⟩ := hdeclared.columns column value hmem
      exact Or.inl ⟨document, hentry⟩
    · obtain ⟨fk, hfk, heq⟩ := List.mem_map.mp hmem
      obtain ⟨rfl, rfl⟩ := Prod.mk.inj heq
      exact Or.inr ⟨fk, hfk, rfl, rfl⟩
  · intro fk hfk
    obtain ⟨hrelation, htarget, howning, document, hentry, -⟩ := hdeclared.foreignKeys fk hfk
    exact ⟨hrelation, htarget, howning, document, hentry⟩
  · have hc := hchecks.filterMap_eq_nil fun _ _ => (rfl : Event.loaded? _ = none)
    simp only [List.filterMap_append, hload, hc, hrest, List.append_nil]
  · intro fk hfk
    have hsubset : fk.looks row ⊆ changes.foreignKeys.flatMap (·.looks row) :=
      fun _ hlook => List.mem_flatMap.mpr ⟨fk, hfk, hlook⟩
    refine (ForeignKey.vetted_of_findNothing hchecks hsubset).mono fun event hevent => ?_
    simp [hevent]
  · intro hnone
    rw [hlinks hnone]
    simp only [List.filterMap_append, hlook, hchecks.filterMap_look?, List.nil_append, List.append_nil]

variable (r : Repository) {σ : Type}

/-- Whatever answers its steps, a creation or an update that commits has vetted every foreign key that its payload gives
to an owning relation before it is written. All else that it writes to the record is named by its column. -/
theorem foreign_keys_vetted (answer : (step : Step) → σ → step.Answer × σ) (state : σ) (id payload : Json) :
    (⟨.commit, .ok ()⟩ ∈ (r.create payload).events answer state →
      ∃ catalog table entries changes before outcome after,
        ⟨.catalog, catalog⟩ ∈ (r.create payload).events answer state ∧ catalog.table? r.table = some table ∧
        payload = .obj entries ∧ Changes.ofPayload catalog table r.options.pathPolicy true payload = .ok changes ∧
        (r.create payload).events answer state =
          before ++ ⟨.change (.insert table.name changes.assignments), .ok outcome⟩ :: after ∧
        Prepares catalog table entries changes none before) ∧
    (⟨.commit, .ok ()⟩ ∈ (r.update id payload).events answer state →
      ∃ catalog table entries changes,
        ⟨.catalog, catalog⟩ ∈ (r.update id payload).events answer state ∧ catalog.table? r.table = some table ∧
        payload = .obj entries ∧ Changes.ofPayload catalog table r.options.pathPolicy false payload = .ok changes ∧
        (changes.assignments ≠ [] → ∃ row before outcome after,
          (r.update id payload).events answer state =
            before ++ ⟨.change (.update table.name changes.assignments table.primaryKey
              (Cell.coerce id table.primaryType)), .ok outcome⟩ :: after ∧
          Prepares catalog table entries changes (some row) before)) := by
  constructor
  · intro hcommit
    obtain ⟨catalog, table, changes, key, body, after, hcommits, hchanges, hinserts, -⟩ :=
      create_commits (Operation.runs_result answer (r.create payload) state) hcommit
    obtain ⟨entries, rfl, hdeclared⟩ := Changes.Declared.of_payload hchanges
    obtain ⟨checks, outcome, linked, rfl, hchecks, -, -⟩ := hinserts.parts
    have hevents := hcommits.split
    simp only [List.cons_append, List.append_assoc] at hevents
    exact ⟨catalog, table, entries, changes, [⟨.catalog, catalog⟩, ⟨.begin, .ok ()⟩] ++ checks ++ [], outcome, _,
      hcommits.mem_catalog, hcommits.found, rfl, hchanges, by simpa using hevents,
      prepares_of_findNothing _ [] hdeclared rfl rfl hchecks rfl fun _ => rfl⟩
  · intro hcommit
    obtain ⟨catalog, table, changes, row, body, after, hcommits, hchanges, hamends, -⟩ :=
      update_commits (Operation.runs_result answer (r.update id payload) state) hcommit
    obtain ⟨entries, rfl, hdeclared⟩ := Changes.Declared.of_payload hchanges
    obtain ⟨load, checks, applied, written, rfl, hload, hchecks, happlied, hwritten⟩ := hamends.parts
    refine ⟨catalog, table, entries, changes, hcommits.mem_catalog, hcommits.found, rfl, hchanges, fun hassigned => ?_⟩
    rw [if_neg (by simpa using hassigned)] at hwritten
    obtain ⟨_, _, ⟨outcome, rfl⟩, hnil, rfl⟩ := List.forall₂_cons_left_iff.mp hwritten
    cases hnil
    have hevents := hcommits.split
    have hloaded : applied.filterMap Event.loaded? = [] :=
      (happlied.filterMap_eq fun _ _ _ hpart => hpart.loaded).trans (by simp)
    refine ⟨row, ⟨.catalog, catalog⟩ :: ⟨.begin, .ok ()⟩ :: load ++ checks ++ applied, outcome, _, by simpa using hevents,
      prepares_of_findNothing _ applied hdeclared ?_ ?_ hchecks hloaded fun hnone => ?_⟩
    · exact hload.loaded
    · exact hload.filterMap_eq_nil fun _ => rfl
    · rw [hnone] at happlied
      cases happlied
      rfl

/-- A user goes from one role to another, neither of which is a system record. -/
theorem foreign_keys_vetted_staff :
    let session := loading ["id", "name", "roleId"] [.int 1, .text "Ann", .int 2] []
    let entries := [("name", .str "Ann"), ("role", .int 1)]
    ∃ changes row before outcome after,
      ((standard "users").update (.int 1) (.obj entries)).events Session.answer session =
        before ++ ⟨.change (.update "users" changes.assignments "id" (.int 1)), .ok outcome⟩ :: after ∧
      Prepares .staff .users entries changes (some row) before ∧
      changes.assignments = [("name", .text "Ann"), ("roleId", .int 1)] := by
  intro session entries
  obtain ⟨-, hupdate⟩ := (standard "users").foreign_keys_vetted Session.answer session (.int 1) (.obj entries)
  have hcommit :
      (((standard "users").update (.int 1) (.obj entries)).events Session.answer session).any Event.isCommit = true := by
    decide +kernel
  obtain ⟨catalog, table, _, changes, hcatalog, htable, hentries, hchanges, hwrites⟩ :=
    hupdate (Event.commit_mem_iff.mpr hcommit)
  have husers : Catalog.staff.table? "users" = some .users := by decide +kernel
  obtain rfl := Program.catalog_of_mem _ _ _ hcatalog
  obtain rfl := Option.some.inj (husers.symm.trans htable)
  obtain rfl := Json.obj.inj hentries
  have hassigned : (Changes.ofPayload .staff .users .lenient false (.obj entries)).toOption.map (·.assignments) =
      some [("name", .text "Ann"), ("roleId", .int 1)] := by
    decide +kernel
  replace hchanges : Changes.ofPayload .staff .users .lenient false (.obj entries) = .ok changes := hchanges
  rw [hchanges] at hassigned
  replace hassigned : changes.assignments = [("name", .text "Ann"), ("roleId", .int 1)] := Option.some.inj hassigned
  obtain ⟨row, before, outcome, after, hevents, hprepares⟩ := hwrites (by simp [hassigned])
  exact ⟨changes, row, before, outcome, after, hevents, hprepares, hassigned⟩

/-- A user's role is changed by its column, and neither the old role nor the new one is looked for. -/
theorem not_foreign_keys_vetted_column :
    let session := loading ["id", "name", "roleId"] [.int 1, .text "Ann", .int 2] [.int 1]
    let row := [("id", .int 1), ("name", .text "Ann"), ("roleId", .int 2)]
    let events := ((standard "users").update (.int 1) (.obj [("roleId", .int 1)])).events Session.answer session
    let key : ForeignKey := ⟨.direct "role" .one "roles" "roleId" "id", .roles, .int 1⟩
    key.relation ∈ Table.users.relations ∧ key.relation.isOwning .users = true ∧
    Catalog.staff.target? key.relation = some key.target ∧ ⟨.commit, .ok ()⟩ ∈ events ∧
    events.filterMap Event.loaded? = [row] ∧ events.filterMap Event.assigned? = [[(key.relation.joinKey, key.value)]] ∧
    ¬key.Vetted (some row) events := by
  intro session row events key
  have hlooks : events.filterMap Event.look? = [] := by decide +kernel
  refine ⟨by decide +kernel, by decide +kernel, by decide +kernel, Event.commit_mem_iff.mpr (by decide +kernel),
    by decide +kernel, by decide +kernel, fun hvetted => ?_⟩
  have hcleared := (hvetted (by decide +kernel)).1
  obtain ⟨columns, hmem⟩ := hcleared "isSystem" rfl rfl
  rw [List.filterMap_eq_nil_iff] at hlooks
  cases hlooks _ hmem

end Repository
end RecordService
