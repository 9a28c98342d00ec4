import RecordService.Proofs.Plan.Parameters
import RecordService.Proofs.Repository.Assignments
import RecordService.Proofs.Repository.Rereads
import RecordService.Proofs.Repository.Settled

/-! # Keys that payloads give

A payload that gives the key of a new record has it inserted, and the record is read back by the same key: the key is
shown as a document for that, and the document becomes the key again (`Repository.create_rereads_given_key`). -/

namespace RecordService

/-! ### What a record is read by -/

namespace Setting

variable {s : Setting}

theorem typeAt?_primaryKey (hroot : s.root ∈ s.catalog.tables) :
    s.typeAt? (Path.root.child s.root.primaryKey) = some s.root.primaryType := by
  obtain ⟨column, hcolumn⟩ := Option.isSome_iff_exists.mp (Catalog.primaryKey_declared hroot)
  have hrelation : s.root.relation? s.root.primaryKey = none := by
    refine Option.eq_none_iff_forall_ne_some.mpr fun r hfound => ?_
    have hnone := Catalog.column?_relation hroot (Catalog.mem_of_relation? hfound)
    rw [Catalog.name_of_relation? hfound, hcolumn] at hnone
    cases hnone
  simp [typeAt?, Catalog.typeAt?, Path.child, Path.root, walk, hrelation, hcolumn, Table.primaryType, PathStep.type]

/-- The filter for a key binds the cell of the key. -/
theorem filterCells_key {id : Json} (hroot : s.root ∈ s.catalog.tables)
    (hkey : Filter.Key.ofText s.root.primaryKey = .field s.root.primaryKey) (hid : id ≠ .null) :
    s.filterCells (.obj [(s.root.primaryKey, .obj [("eq", id)])]) = [Cell.coerce id s.root.primaryType] := by
  have hnodes : Filter.ofJson (.obj [(s.root.primaryKey, .obj [("eq", id)])]) =
      .ok [.leaf ⟨Path.root.child s.root.primaryKey, .compare .eq, id⟩] := Filter.ofJson_key.mpr ⟨hkey, rfl⟩
  rw [filterCells, ← Filter.leavesOfAll_ofJson hnodes]
  cases id with
  | null => contradiction
  | _ => simp [Filter.leavesOfAll, Filter.leaves, cellsOf, typeAt?_primaryKey hroot, Operator.cells]

end Setting

namespace FindPlan

variable {catalog : Catalog} {table : Table} {options : CompileOptions} {id : Json}

/-- The rows of a record are asked for by its key, once or, for a page of keys, twice. -/
theorem params_keyRequest {name : String} {plan : FindPlan} (hfound : catalog.table? name = some table)
    (h : compile catalog name (Repository.keyRequest table id) options = .ok plan) (hid : id ≠ .null) :
    plan.data.statement.params ≠ [] ∧ ∀ c ∈ plan.data.statement.params, c = Cell.coerce id table.primaryType := by
  obtain ⟨-, hkey, -⟩ := (compile_keyRequest hfound).mp ⟨plan, h⟩
  obtain ⟨-, -, s, aggregates, hsetting, -, hbinds⟩ := statements_bind_placeholders h
  obtain ⟨-, root, hroot, rfl⟩ := setting_eq_ok.mp hsetting
  obtain rfl := Option.some.inj (hfound.symm.trans hroot)
  have hcells := Setting.filterCells_key (s := ⟨catalog, table, options⟩) (Catalog.mem_of_table? hfound) hkey hid
  have hdata := hbinds.data
  rw [show (Repository.keyRequest table id).filter = .obj [(table.primaryKey, .obj [("eq", id)])] from rfl, hcells]
    at hdata
  rw [hdata]
  split <;> simp

/-- A find asks for the rows of its own page, and for no other ones. -/
theorem run_asks_rows (p : FindPlan) : p.run.OnlyAsks fun step => ∀ q, step = .query (.rows q) → q = p.data := by
  refine p.run_asks (fun q hq => (Query.rows.inj (Step.query.inj hq)).symm) ?_ ?_ ?_ ?_
  · intro l keys q hq
    cases Step.query.inj hq
  · intro count q hq
    cases Step.query.inj hq
  · intro aggregate q hq
    cases Step.query.inj hq
  · intro phase q hq
    cases hq

theorem mem_rows_of_run (p : FindPlan) {events : List Event} {result : Except Error FindResult}
    (h : p.run.Runs events result) : ∃ reply, ⟨.query (.rows p.data), reply⟩ ∈ events := by
  obtain ⟨e, hquery, -⟩ | ⟨_, rows, _, hquery, -, rfl⟩ := Operation.runs_bind.mp h
  · exact ⟨_, (Operation.runs_query.mp hquery) ▸ List.mem_singleton_self _⟩
  · exact ⟨_, List.mem_append_left _ ((Operation.runs_query.mp hquery) ▸ List.mem_singleton_self _)⟩

end FindPlan

namespace Repository

open Operation

/-- The record is read by a key: its rows are asked for by the cell of the key, and they are asked for if the record can
be asked for at all. -/
structure ReadsBy (r : Repository) (later : Catalog) (id : Json) (events : List Event) : Prop where
  binds : ∀ table, later.table? r.table = some table → ∀ q reply, ⟨.query (.rows q), reply⟩ ∈ events →
    q.statement.params ≠ [] ∧ ∀ c ∈ q.statement.params, c = Cell.coerce id table.primaryType
  asks : later.Reads r.table r.options id → ∃ q reply, ⟨.query (.rows q), reply⟩ ∈ events

variable {r : Repository} {id : Json} {events : List Event}

theorem findOne_readsBy {result : Except Error (Option Json)} (h : (r.findOne id).Runs events result)
    (hid : id ≠ .null) : ∃ later, ⟨.catalog, later⟩ ∈ events ∧ r.ReadsBy later id events := by
  obtain ⟨later, rest, rfl, ⟨hnot, rfl, -⟩ | ⟨table, plan, hfound, hplan, hgoes⟩⟩ := findOne_cases h
  · refine ⟨later, List.mem_singleton_self _, fun _ _ q reply hmem => ?_, fun hreads => absurd hreads hnot⟩
    cases List.mem_singleton.mp hmem
  have hrows : (plan.run >>= fun found => pure ((found.data.head?).map Json.obj) : Operation (Option Json)).OnlyAsks
      fun step => ∀ q, step = .query (.rows q) → q = plan.data :=
    .bind plan.run_asks_rows fun _ => .pure _
  refine ⟨later, List.mem_cons_self, fun table' hfound' q reply hmem => ?_, fun _ => ?_⟩
  · obtain rfl := Option.some.inj (hfound.symm.trans hfound')
    obtain rfl : q = plan.data := by
      rcases List.mem_cons.mp hmem with habsurd | hmem
      · cases habsurd
      · exact hrows.steps _ _ hgoes _ hmem q rfl
    exact FindPlan.params_keyRequest hfound hplan hid
  · obtain ⟨_, hrun, -⟩ | ⟨before, _, after, hrun, -, rfl⟩ := runs_bind.mp hgoes
    · obtain ⟨reply, hmem⟩ := plan.mem_rows_of_run hrun
      exact ⟨plan.data, reply, List.mem_cons_of_mem _ hmem⟩
    · obtain ⟨reply, hmem⟩ := plan.mem_rows_of_run hrun
      exact ⟨plan.data, reply, List.mem_cons_of_mem _ (List.mem_append_left after hmem)⟩

/-! ### Keys of payloads -/

variable {catalog : Catalog} {table : Table} {changes : Changes} {entries : Entries} {value : Json}

/-- Of what is assigned for a payload, the primary key is the value that the payload gives for it. -/
theorem assignment_primaryKey (htable : table ∈ catalog.tables) (hkeys : (entries.map (·.1)).Nodup)
    (hentry : (table.primaryKey, value) ∈ entries) (hassigns : table.Assigns true catalog entries changes.assignments)
    (cell : Cell) :
    (table.primaryKey, cell) ∈ changes.assignments ↔ cell = Cell.coerce value table.primaryType := by
  obtain ⟨column, hcolumn⟩ := Option.isSome_iff_exists.mp (Catalog.primaryKey_declared htable)
  have hname := Catalog.name_of_column? hcolumn
  have htype : table.primaryType = column.type := by rw [Table.primaryType, hcolumn, Option.map_some, Option.getD_some]
  have hassigned (value : Json) : table.assignment? true catalog (table.primaryKey, value) =
      some (table.primaryKey, .coerce value table.primaryType) := by
    simp [Table.assignment?, hcolumn, hname, htype]
  rw [hassigns.exact.mem_iff, List.mem_filterMap]
  constructor
  · rintro ⟨⟨key, document⟩, hmem, hassignment⟩
    obtain rfl : key = table.primaryKey := by
      -- the foreign key of an owning relation is another column
      unfold Table.assignment? at hassignment
      split at hassignment
      · rename_i declared hdeclared
        have hkey := Catalog.name_of_column? hdeclared
        simp at hassignment
        rw [← hassignment.1]
        exact hkey.symm
      · obtain ⟨r, hr, hassignment⟩ := Option.bind_eq_some_iff.mp hassignment
        obtain ⟨target, -, hassignment⟩ := Option.bind_eq_some_iff.mp hassignment
        obtain ⟨id, -, hassignment⟩ := Option.map_eq_some_iff.mp hassignment
        have howning := (Option.filter_eq_some_iff.mp hr).2
        simp only [Relation.isOwning, Bool.and_eq_true, bne_iff_ne] at howning
        exact absurd (Prod.mk.inj hassignment).1 howning.2
    rw [hassigned] at hassignment
    obtain ⟨-, rfl⟩ := Prod.mk.inj (Option.some.inj hassignment)
    rw [(Prod.mk.inj (List.inj_on_of_nodup_map hkeys hmem hentry rfl)).2]
  · rintro rfl
    exact ⟨_, hentry, hassigned value⟩

theorem givenKey?_eq (htable : table ∈ catalog.tables) (hkeys : (entries.map (·.1)).Nodup)
    (hentry : (table.primaryKey, value) ∈ entries) (hassigns : table.Assigns true catalog entries changes.assignments)
    (hvalue : value ≠ .null) : givenKey? table changes.assignments = some (Cell.coerce value table.primaryType) := by
  have hmem := assignment_primaryKey htable hkeys hentry hassigns
  have hnull : (Cell.coerce value table.primaryType).isNull = false := Cell.isNull_coerce hvalue _
  have hfound : ∀ a ∈ changes.assignments, (a.1 == table.primaryKey && !a.2.isNull) = true →
      a = (table.primaryKey, Cell.coerce value table.primaryType) := by
    rintro ⟨name, cell⟩ ha hkey
    rw [Bool.and_eq_true, beq_iff_eq] at hkey
    obtain ⟨rfl, -⟩ := hkey
    rw [(hmem cell).mp ha]
  rw [givenKey?]
  cases hfind : changes.assignments.find? fun a => a.1 == table.primaryKey && !a.2.isNull with
  | none =>
    have hnone := List.find?_eq_none.mp hfind _ ((hmem _).mpr rfl)
    simp [hnull] at hnone
  | some a =>
    have ha := @List.find?_some _ (fun a : String × Cell => a.1 == table.primaryKey && !a.2.isNull) _ _ hfind
    rw [hfound a (List.mem_of_find?_eq_some hfind) ha]
    rfl

variable {σ : Type}

theorem reread_readsBy {table : Table} {text : String} {result : Except Error Json}
    (h : (r.reread table id text).Runs events result) (hid : id ≠ .null) :
    ∃ later, ⟨.catalog, later⟩ ∈ events ∧ r.ReadsBy later id events := by
  obtain ⟨_, hfind, -⟩ | ⟨before, found, after, hfind, hgoes, rfl⟩ := runs_bind.mp h
  · exact findOne_readsBy hfind hid
  · have hafter : after = [] := by
      cases found with
      | none => exact (runs_throw.mp hgoes).1
      | some record => exact (runs_pure.mp hgoes).1
    rw [hafter, List.append_nil]
    exact findOne_readsBy hfind hid

/-- What a document becomes in a column, except one of truth values or documents, is shown as a document that becomes
the same again. So when a creation commits whose payload gives the key of the record, the key is inserted, and it is the
only cell that the record is read back by, unless the key has got another type by then. The record is read back whenever
it can be asked for. -/
theorem create_rereads_given_key (r : Repository) (answer : (step : Step) → σ → step.Answer × σ) (state : σ)
    (entries : Entries) :
    (∀ (d : Json) (type : ScalarType), (∀ n, d = .num n → n.Valid) → type ≠ .bool → type ≠ .json →
      Cell.coerce ((Cell.coerce d type).toJson (some type)) type = Cell.coerce d type) ∧
    ((entries.map (·.1)).Nodup → ⟨.commit, .ok ()⟩ ∈ (r.create (.obj entries)).events answer state →
      ∃ catalog table row outcome body after,
        r.Commits catalog table body after ((r.create (.obj entries)).events answer state) ∧
        ⟨.change (.insert table.name row), .ok outcome⟩ ∈ body ∧
        ∀ value, (table.primaryKey, value) ∈ entries → value ≠ .null → (∀ n, value = .num n → n.Valid) →
          table.primaryType ≠ .bool → table.primaryType ≠ .json →
          (∀ cell, (table.primaryKey, cell) ∈ row ↔ cell = Cell.coerce value table.primaryType) ∧
          ∃ later, ⟨.catalog, later⟩ ∈ after ∧
            (∀ table', later.table? r.table = some table' → table'.primaryType = table.primaryType →
              ∀ q reply, ⟨.query (.rows q), reply⟩ ∈ after →
                q.statement.params ≠ [] ∧ ∀ c ∈ q.statement.params, c = Cell.coerce value table.primaryType) ∧
            (later.Reads r.table r.options ((Cell.coerce value table.primaryType).toJson (some table.primaryType)) →
              ∃ q reply, ⟨.query (.rows q), reply⟩ ∈ after)) := by
  refine ⟨fun d type hvalid hbool hjson => Cell.coerce_toJson_coerce hvalid hbool hjson, fun hkeys hcommit => ?_⟩
  obtain ⟨catalog, table, changes, key, body, after, hcommits, hchanges, hinserts, hreread⟩ :=
    create_commits (runs_result answer (r.create (.obj entries)) state) hcommit
  have htable := Catalog.mem_of_table? hcommits.found
  obtain ⟨_, hpayload, hassigns⟩ := Changes.ofPayload_assigns htable hchanges
  obtain rfl := Json.obj.inj hpayload
  obtain ⟨checks, outcome, rest, hbody, -, hkey, -⟩ := hinserts.parts
  refine ⟨catalog, table, changes.assignments, outcome, body, after, hcommits, by simp [hbody],
    fun value hentry hvalue hvalid hbool hjson => ?_⟩
  have hgiven := givenKey?_eq htable hkeys hentry hassigns hvalue
  have hsettled := Cell.settled_coerce hvalid hbool hjson
  -- a key that is given is the key of the new record, whatever the store answers
  obtain rfl : Cell.coerce value table.primaryType = key := by
    rw [newKey, hgiven] at hkey
    exact (Except.ok.inj (runs_pure.mp hkey).2).symm
  obtain ⟨later, hlater, hreads⟩ := reread_readsBy hreread
    (hsettled.toJson_ne_null (Cell.isNull_coerce hvalue _))
  refine ⟨assignment_primaryKey htable hkeys hentry hassigns, later, hlater, ?_, hreads.asks⟩
  intro table' hfound htype q reply hmem
  have hbinds := hreads.binds table' hfound q reply hmem
  rwa [htype, hsettled.coerce_toJson] at hbinds

/-- A user whose key is spelled as a text is inserted and read back by the number. -/
theorem create_rereads_given_key_users :
    let session := loading [] [] []
    let payload : Entries := [("id", .str " 7"), ("name", .str "Ann")]
    (payload.map (·.1)).Nodup ∧
    ⟨.commit, .ok ()⟩ ∈ ((standard "users").create (.obj payload)).events Session.answer session ∧
    (.str " 7" : Json) ≠ .null ∧ Table.users.primaryType ≠ .bool ∧ Table.users.primaryType ≠ .json ∧
    ∃ row outcome body after,
      (standard "users").Commits .staff .users body after
        (((standard "users").create (.obj payload)).events Session.answer session) ∧
      ⟨.change (.insert "users" row), .ok outcome⟩ ∈ body ∧ ("id", .int 7) ∈ row ∧
      (∃ q reply, ⟨.query (.rows q), reply⟩ ∈ after) ∧
      ∀ q reply, ⟨.query (.rows q), reply⟩ ∈ after → ∀ c ∈ q.statement.params, c = .int 7 := by
  intro session payload
  have hkeys : (payload.map (·.1)).Nodup := by decide
  have hcommit : ⟨.commit, .ok ()⟩ ∈ ((standard "users").create (.obj payload)).events Session.answer session :=
    Event.commit_mem_iff.mpr (by decide +kernel)
  have husers : Catalog.staff.table? "users" = some .users := by decide +kernel
  have hseven : Cell.coerce (.str " 7") .int = .int 7 := by decide +kernel
  obtain ⟨-, hcreate⟩ := create_rereads_given_key (standard "users") Session.answer session payload
  obtain ⟨catalog, table, row, outcome, body, after, hcommits, hinsert, hkey⟩ := hcreate hkeys hcommit
  obtain rfl := Program.catalog_of_mem _ _ _ hcommits.mem_catalog
  obtain rfl := Option.some.inj (husers.symm.trans hcommits.found)
  obtain ⟨hrow, later, hlater, hbinds, hasks⟩ :=
    hkey (.str " 7") (by simp [payload, Table.users]) nofun nofun (by decide) (by decide)
  obtain rfl := Program.catalog_of_mem _ _ _ (hcommits.mem_of_mem_after hlater)
  have htype : Table.users.primaryType = .int := rfl
  rw [htype, hseven] at hrow hbinds hasks
  have hreads : Catalog.staff.Reads "users" .standard ((Cell.int 7).toJson (some .int)) :=
    ⟨.users, husers, rfl, by decide +kernel, rfl⟩
  exact ⟨hkeys, hcommit, nofun, by decide, by decide, row, outcome, body, after, hcommits, hinsert, (hrow _).mpr rfl,
    hasks hreads, fun q reply hmem => (hbinds .users husers rfl q reply hmem).2⟩

end Repository
end RecordService
