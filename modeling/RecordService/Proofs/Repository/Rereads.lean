import RecordService.Proofs.Plan.Stages
import RecordService.Proofs.Record.Runs
import RecordService.Proofs.Repository.Attachments
import RecordService.Proofs.Request.Leaves

/-! # Reading a record back

After its commit a creation or an update reads the record by its key, and only then is a plan made for that. There is
none if the root alias cannot be used, if the primary key has the name of an operator or a keyword of filters, or if
the key is a list or an object (`Table.Readable`), or if the table is in the catalog no more. In all other cases no
commit is followed by a compile error. -/

namespace RecordService

/-! ### Plans for one record -/

/-- What it takes to compile a request for the record of a table with a key. -/
structure Table.Readable (t : Table) (options : CompileOptions) (id : Json) : Prop where
  rooted : options.check = .ok ()
  key : Filter.Key.ofText t.primaryKey = .field t.primaryKey
  scalar : id.isScalar = true

namespace Filter

variable {key : String} {path : Path} {nodes : List Filter} {value id : Json}

/-- A key is asked for by the entry of a field, and by no other. -/
theorem ofJson_key : ofJson (.obj [(key, .obj [("eq", id)])]) = .ok nodes ↔
    Key.ofText key = .field key ∧ nodes = [.leaf ⟨Path.root.child key, .compare .eq, id⟩] := by
  have heq : Key.ofText "eq" = .op (.compare .eq) := by decide +kernel
  have hinner (path : Path) (nodes : List Filter) :
      ofEntries path [("eq", id)] = .ok nodes ↔ path.isEmpty = false ∧ nodes = [.leaf ⟨path, .compare .eq, id⟩] :=
    by rw [ofEntries_singleton, ofEntry_op_eq_ok heq]
  rw [ofJson, ofEntries_singleton, ofEntry]
  cases hkey : Key.ofText key with
  | field name =>
    obtain rfl := Key.name_of_field hkey
    simp only [bind_eq_ok, pure_eq_ok, hinner, true_and]
    constructor
    · rintro ⟨_, ⟨-, rfl⟩, rfl⟩
      rfl
    · rintro rfl
      exact ⟨_, ⟨rfl, rfl⟩, rfl⟩
  -- anything else leaves the comparison without a field
  | all | any | not =>
    have hroot : Path.isEmpty .root = true := rfl
    simp only [bind_eq_ok, hinner, hroot, reduceCtorEq, false_and, exists_false]
  | count | op =>
    have hroot : Path.isEmpty .root = true := rfl
    simp only [bind_eq_ok, underField, hroot, if_true, reduceCtorEq, false_and, exists_false]

end Filter

/-- A value is compared if it is neither a list nor an object. -/
theorem Predicate.columnTest_eq_ok (path : Path) (id : Json) (col : Sql.ColumnRef) (type : ScalarType) :
    (∃ test, (⟨path, .compare .eq, id⟩ : Predicate).columnTest col type = .ok test) ↔ id.isScalar = true := by
  cases id <;> simp [columnTest, Json.isScalar]

namespace Setting

variable {s : Setting} {id : Json}

theorem resolve?_primaryKey (hroot : s.root ∈ s.catalog.tables) (plan : JoinPlan) (usage : Usage) :
    ∃ column, s.resolve? plan (Path.root.child s.root.primaryKey) usage = some (.column [] plan.root column, plan) := by
  obtain ⟨column, hcolumn⟩ := Option.isSome_iff_exists.mp (Catalog.primaryKey_declared hroot)
  have hrelation : s.root.relation? s.root.primaryKey = none := by
    cases hfound : s.root.relation? s.root.primaryKey with
    | none => rfl
    | some r =>
      have hnone := Catalog.column?_relation hroot (Catalog.mem_of_relation? hfound)
      rw [Catalog.name_of_relation? hfound, hcolumn] at hnone
      cases hnone
  refine ⟨column, ?_⟩
  simp [resolve?, Path.child, Path.root, walk, hrelation, hcolumn, JoinPlan.follow]

/-- The filter for a key compiles if the key of the table is a field of filters and the value can be compared. -/
theorem compileJson_primaryKey (hroot : s.root ∈ s.catalog.tables) (d : Draft) :
    (∃ parts d', Filter.compileJson s .forFilter (.obj [(s.root.primaryKey, .obj [("eq", id)])]) d = .ok (parts, d')) ↔
      Filter.Key.ofText s.root.primaryKey = .field s.root.primaryKey ∧ id.isScalar = true := by
  obtain ⟨column, hresolve⟩ := resolve?_primaryKey hroot d.plan .forFilter
  let p : Predicate := ⟨Path.root.child s.root.primaryKey, .compare .eq, id⟩
  -- the key is a column of the root, so nothing is joined and nothing is dropped
  have hcompile : p.compile s .forFilter d =
      (p.columnTest ⟨d.plan.root, column.name⟩ column.type).map fun test => (some test, d) := by
    unfold Predicate.compile
    rw [hresolve]
    dsimp only
    cases p.columnTest ⟨d.plan.root, column.name⟩ column.type <;> rfl
  rw [← Predicate.columnTest_eq_ok p.path id ⟨d.plan.root, column.name⟩ column.type]
  simp only [Filter.compileJson, bind_eq_ok, Filter.ofJson_key]
  constructor
  · rintro ⟨parts, d', _, ⟨hkey, rfl⟩, hall⟩
    obtain ⟨_, _, _, hleaf, -, -⟩ := Filter.compileAll_cons_eq_ok.mp hall
    obtain ⟨_, htest, -⟩ := Filter.compile_leaf_eq_ok.mp hleaf
    obtain ⟨test, htest, -⟩ := map_eq_ok.mp (hcompile.symm.trans htest)
    exact ⟨hkey, test, htest⟩
  · rintro ⟨hkey, test, htest⟩
    refine ⟨_, d, _, ⟨hkey, rfl⟩, Filter.compileAll_cons_eq_ok.mpr ⟨some (.test test), d, [], ?_, rfl, rfl⟩⟩
    refine Filter.compile_leaf_eq_ok.mpr ⟨some test, hcompile.trans ?_, rfl⟩
    rw [htest]
    rfl

end Setting

/-- Everything can be asked for. -/
theorem Projection.ofFields_nil (s : Setting) (d : Draft) : ∃ p d', ofFields s [] d = .ok (p, d') := by
  let added := addAll s [] d.plan.root "" s.root (start d.plan.root s.root) d.plan
  have hall : addPaths s [⟨["*"]⟩] (start d.plan.root s.root) d = .ok (added.1, { d with plan := added.2 }) := by
    rw [addPaths, addPath_eq]
    rfl
  exact ⟨_, _, ofFields_eq_ok.mpr ⟨added.1, hall, rfl⟩⟩

namespace FindPlan

variable {catalog : Catalog} {table : Table} {options : CompileOptions} {id : Json}

/-- The whole record of a readable key is found by a plan. -/
theorem compile_keyRequest {name : String} (hfound : catalog.table? name = some table) :
    (∃ plan, compile catalog name (Repository.keyRequest table id) options = .ok plan) ↔
      table.Readable options id := by
  have hroot : table ∈ catalog.tables := Catalog.mem_of_table? hfound
  constructor
  · rintro ⟨plan, hplan⟩
    obtain ⟨_, _, s, c, -, -, hsetting, hparts, -⟩ := compile_eq_ok.mp hplan
    obtain ⟨hcheck, root, htable, rfl⟩ := setting_eq_ok.mp hsetting
    obtain rfl := Option.some.inj (hfound.symm.trans htable)
    obtain ⟨d₁, d₂, _, -, hfilter, -, -⟩ := CompiledParts.compile_eq_ok.mp hparts
    obtain ⟨hkey, hid⟩ := (Setting.compileJson_primaryKey hroot d₁).mp ⟨_, _, hfilter⟩
    exact ⟨hcheck, hkey, hid⟩
  · rintro ⟨hcheck, hkey, hid⟩
    obtain ⟨p, d₁, hfields⟩ := Projection.ofFields_nil ⟨catalog, table, options⟩ ⟨.start options.rootAlias, []⟩
    obtain ⟨parts, d₂, hfilter⟩ :=
      (Setting.compileJson_primaryKey (s := ⟨catalog, table, options⟩) hroot d₁).mpr ⟨hkey, hid⟩
    let s : Setting := ⟨catalog, table, options⟩
    have hsetting : setting catalog name options = .ok s := setting_eq_ok.mpr ⟨hcheck, table, hfound, rfl⟩
    refine ⟨_, compile_eq_ok.mpr ⟨_, [], s, ⟨p, parts, _, [], d₂⟩, rfl, rfl, hsetting,
      CompiledParts.compile_eq_ok.mpr ⟨d₁, d₂, d₂, ?_, hfilter, rfl, rfl⟩, rfl⟩⟩
    exact hfields

end FindPlan

/-- The record of the named table with a key can be asked for in the catalog. -/
def Catalog.Reads (c : Catalog) (name : String) (options : CompileOptions) (id : Json) : Prop :=
  ∃ table, c.table? name = some table ∧ table.Readable options id

theorem Catalog.reads_iff {c : Catalog} {name : String} {table : Table} {options : CompileOptions} {id : Json}
    (hfound : c.table? name = some table) : c.Reads name options id ↔ table.Readable options id := by
  constructor
  · rintro ⟨_, hother, hreadable⟩
    obtain rfl := Option.some.inj (hfound.symm.trans hother)
    exact hreadable
  · exact fun hreadable => ⟨table, hfound, hreadable⟩

namespace Repository

open Operation

variable {r : Repository} {id : Json} {events : List Event}

/-- Reading a record looks at the catalog first. It fails there if the record cannot be asked for, and otherwise runs a
plan for the key. -/
theorem findOne_cases {result : Except Error (Option Json)} (h : (r.findOne id).Runs events result) :
    ∃ (catalog : Catalog) (rest : List Event), events = ⟨.catalog, catalog⟩ :: rest ∧
      (¬catalog.Reads r.table r.options id ∧ rest = [] ∧ (∃ e, result = .error (.compile e)) ∨
        ∃ table plan, catalog.table? r.table = some table ∧
          FindPlan.compile catalog r.table (keyRequest table id) r.options = .ok plan ∧
          (plan.run >>= fun found => pure ((found.data.head?).map .obj) : Operation (Option Json)).Runs rest result) := by
  obtain ⟨e, hlook, rfl⟩ | ⟨_, ⟨catalog, table⟩, rest, hlook, hgoes, rfl⟩ := runs_bind.mp h
  · obtain ⟨catalog, rfl, ⟨hnone, he⟩ | ⟨_, -, habsurd⟩⟩ := r.lookUp_runs hlook
    · obtain rfl := Except.error.inj he
      refine ⟨catalog, [], rfl, .inl ⟨?_, rfl, _, rfl⟩⟩
      rintro ⟨table, hfound, -⟩
      rw [hnone] at hfound
      cases hfound
    · cases habsurd
  obtain ⟨_, rfl, ⟨-, habsurd⟩ | ⟨_, hfound, hpair⟩⟩ := r.lookUp_runs hlook
  · cases habsurd
  obtain ⟨rfl, rfl⟩ := Prod.mk.inj (Except.ok.inj hpair)
  refine ⟨catalog, rest, rfl, ?_⟩
  dsimp only [planIn] at hgoes
  rw [ofExcept_bind] at hgoes
  cases hplan : FindPlan.compile catalog r.table (keyRequest table id) r.options with
  | error e =>
    rw [hplan] at hgoes
    obtain ⟨rfl, rfl⟩ := runs_throw.mp hgoes
    refine .inl ⟨?_, rfl, e, rfl⟩
    rw [Catalog.reads_iff hfound, ← FindPlan.compile_keyRequest hfound, hplan]
    rintro ⟨_, habsurd⟩
    cases habsurd
  | ok plan =>
    rw [hplan] at hgoes
    exact .inr ⟨table, plan, hfound, hplan, hgoes⟩

/-- Where the store has its own errors, a record is not found for want of a plan exactly if it cannot be asked for. -/
theorem findOne_runs {result : Except Error (Option Json)}
    (hstore : ∀ q e, ⟨.query q, .error (.compile e)⟩ ∉ events) (h : (r.findOne id).Runs events result) :
    ∃ catalog : Catalog, ⟨.catalog, catalog⟩ ∈ events ∧
      ((∃ e, result = .error (.compile e)) ↔ ¬catalog.Reads r.table r.options id) := by
  obtain ⟨catalog, rest, rfl, ⟨hnot, -, hresult⟩ | ⟨table, plan, hfound, hplan, hgoes⟩⟩ := findOne_cases h
  · exact ⟨catalog, List.mem_cons_self, iff_of_true hresult hnot⟩
  · have hreads : catalog.Reads r.table r.options id :=
      (Catalog.reads_iff hfound).mpr ((FindPlan.compile_keyRequest hfound).mp ⟨plan, hplan⟩)
    refine ⟨catalog, List.mem_cons_self, iff_of_false ?_ (not_not_intro hreads)⟩
    -- from here on only the store fails
    rintro ⟨e, rfl⟩
    have hrelays : (plan.run >>= fun found => pure ((found.data.head?).map .obj) : Operation (Option Json)).Relays :=
      .bind plan.run_relays fun _ => .pure _
    obtain ⟨q, hmem⟩ := hrelays.failures _ _ hgoes
    exact hstore q e (List.mem_cons_of_mem _ hmem)

theorem reread_runs {table : Table} {text : String} {result : Except Error Json}
    (hstore : ∀ q e, ⟨.query q, .error (.compile e)⟩ ∉ events) (h : (r.reread table id text).Runs events result) :
    ∃ catalog : Catalog, ⟨.catalog, catalog⟩ ∈ events ∧
      ((∃ e, result = .error (.compile e)) ↔ ¬catalog.Reads r.table r.options id) := by
  obtain ⟨e, hfind, rfl⟩ | ⟨before, found, after, hfind, hgoes, rfl⟩ := runs_bind.mp h
  · obtain ⟨catalog, hcatalog, hiff⟩ := findOne_runs hstore hfind
    refine ⟨catalog, hcatalog, ?_⟩
    rw [← hiff]
    simp only [Except.error.injEq]
  · have hbefore (q : Query) (e : CompileError) : ⟨.query q, .error (.compile e)⟩ ∉ before :=
      fun hmem => hstore q e (List.mem_append_left _ hmem)
    obtain ⟨catalog, hcatalog, hiff⟩ := findOne_runs hbefore hfind
    refine ⟨catalog, List.mem_append_left _ hcatalog, ?_⟩
    rw [← hiff]
    refine iff_of_false ?_ ?_
    · rintro ⟨e, rfl⟩
      cases found with
      | none => cases (runs_throw.mp hgoes).2
      | some record => cases (runs_pure.mp hgoes).2
    · rintro ⟨_, habsurd⟩
      cases habsurd

variable {σ : Type}

/-- Where the store has its own errors, a creation or an update that has committed fails to compile exactly if its
record cannot be asked for by its key, in the catalog as it stands then. -/
theorem committed_compile_failures (r : Repository) (answer : (step : Step) → σ → step.Answer × σ) (state : σ)
    (hstore : ∀ q state e, (answer (.query q) state).1 ≠ .error (.compile e)) (id payload : Json) :
    (⟨.commit, .ok ()⟩ ∈ (r.create payload).events answer state →
      ∃ catalog table changes key body after,
        r.Commits catalog table body after ((r.create payload).events answer state) ∧
        Inserts table changes key body ∧ ∃ later : Catalog, ⟨.catalog, later⟩ ∈ after ∧
          ((∃ e, (r.create payload).result answer state = .error (.compile e)) ↔
            ¬later.Reads r.table r.options (key.toJson (some table.primaryType)))) ∧
    (⟨.commit, .ok ()⟩ ∈ (r.update id payload).events answer state →
      ∃ catalog table body after, r.Commits catalog table body after ((r.update id payload).events answer state) ∧
        ∃ later : Catalog, ⟨.catalog, later⟩ ∈ after ∧
          ((∃ e, (r.update id payload).result answer state = .error (.compile e)) ↔
            ¬later.Reads r.table r.options id)) := by
  have hnone {α : Type} (op : Operation α) (q : Query) (e : CompileError) :
      ⟨.query q, .error (.compile e)⟩ ∉ op.events answer state := by
    intro hmem
    obtain ⟨state, hreply⟩ := follows_of_mem_events answer op state _ hmem
    exact hstore q state e hreply.symm
  constructor
  · intro hcommit
    obtain ⟨catalog, table, changes, key, body, after, hcommits, -, hinserts, hreread⟩ :=
      create_commits (runs_result answer (r.create payload) state) hcommit
    exact ⟨catalog, table, changes, key, body, after, hcommits, hinserts,
      reread_runs (fun q e hmem => hnone _ q e (hcommits.mem_of_mem_after hmem)) hreread⟩
  · intro hcommit
    obtain ⟨catalog, table, changes, row, body, after, hcommits, -, -, hreread⟩ :=
      update_commits (runs_result answer (r.update id payload) state) hcommit
    exact ⟨catalog, table, body, after, hcommits,
      reread_runs (fun q e hmem => hnone _ q e (hcommits.mem_of_mem_after hmem)) hreread⟩

/-- The name of a user changes, and the user is read back. -/
theorem committed_compile_failures_staff :
    let session := loading ["id", "name", "roleId"] [.int 1, .text "Ann", .int 2] []
    let op := (standard "users").update (.int 1) (.obj [("name", .str "Bo")])
    (∀ q state e, (Session.answer (.query q) state).1 ≠ .error (.compile e)) ∧
    ⟨.commit, .ok ()⟩ ∈ op.events Session.answer session ∧ Table.users.Readable .standard (.int 1) ∧
    ¬∃ e, op.result Session.answer session = .error (.compile e) := by
  intro session op
  have hstore (q : Query) (state : Session) (e : CompileError) :
      (Session.answer (.query q) state).1 ≠ .error (.compile e) := by
    intro hreply
    obtain ⟨_, habsurd⟩ := Session.failure_of_follows ⟨state, hreply.symm⟩
    cases habsurd
  have hcommit : ⟨.commit, .ok ()⟩ ∈ op.events Session.answer session := Event.commit_mem_iff.mpr (by decide +kernel)
  have hreadable : Table.users.Readable .standard (.int 1) := ⟨rfl, by decide +kernel, rfl⟩
  have husers : Catalog.staff.table? "users" = some .users := by decide +kernel
  obtain ⟨-, hupdate⟩ := committed_compile_failures (standard "users") Session.answer session hstore (.int 1)
    (.obj [("name", .str "Bo")])
  obtain ⟨catalog, table, body, after, hcommits, later, hlater, hiff⟩ := hupdate hcommit
  obtain rfl := Program.catalog_of_mem _ _ _ (hcommits.mem_of_mem_after hlater)
  refine ⟨hstore, hcommit, hreadable, fun hfails => ?_⟩
  exact hiff.mp hfails ⟨.users, husers, hreadable⟩

/-- The name of a user changes and the change is committed; then it is found that nothing can be read under the root
alias of the repository, and that no user has a list for its key. -/
theorem committed_compile_failure_users :
    let session := loading ["id", "name", "roleId"] [.int 1, .text "Ann", .int 2] []
    let payload := .obj [("name", .str "Bo")]
    let paging : Repository := { standard "users" with options := { CompileOptions.standard with rootAlias := "w" } }
    (⟨.commit, .ok ()⟩ ∈ (paging.update (.int 1) payload).events Session.answer session ∧
      (paging.update (.int 1) payload).result Session.answer session =
        .error (.compile (.invalidRootAlias "w" .paging))) ∧
    (⟨.commit, .ok ()⟩ ∈ ((standard "users").update (.arr [.int 1]) payload).events Session.answer session ∧
      ((standard "users").update (.arr [.int 1]) payload).result Session.answer session =
        .error (.compile (.malformedOperand ⟨["id"]⟩ "eq" .scalar))) := by
  intro session payload paging
  have hfailed {x : Except Error Json} (e : Error) (h : (x.map fun _ => ()) = .error e) : x = .error e :=
    map_eq_error.mp h
  refine ⟨⟨Event.commit_mem_iff.mpr ?_, hfailed _ ?_⟩, ⟨Event.commit_mem_iff.mpr ?_, hfailed _ ?_⟩⟩
  · decide +kernel
  · decide +kernel
  · decide +kernel
  · decide +kernel

end Repository
end RecordService
