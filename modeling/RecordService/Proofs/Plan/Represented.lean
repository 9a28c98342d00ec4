import RecordService.Proofs.Plan.Shown

/-! # What a plan has of a request

Every path of a request is in the plan or reported as dropped: a path of the field list is shown, a sort term is among
the keys of the order, and a leaf of a filter has its test among the conditions (`FindPlan.compile_represents`). -/

namespace RecordService

/-! ### Sort keys -/

/-- The column is the one that a path stands for: that of the table at its chain, or the key of the relation that it
ends in. -/
def JoinPlan.Denotes (p : JoinPlan) (s : Setting) (u : Usage) (path : Path) (ref : Sql.ColumnRef) : Prop :=
  match (walk s.catalog s.root path.segments).bind List.getLast? with
  | some (.column c) =>
    ∃ tableAlias table, p.Located s u path.parent.segments tableAlias table ∧ ref = ⟨tableAlias, c.name⟩
  | some (.relation _ target) =>
    ∃ tableAlias, p.Located s u path.segments tableAlias target ∧ ref = ⟨tableAlias, target.primaryKey⟩
  | none => False

variable {s : Setting} {u : Usage} {plan plan' : JoinPlan} {d d' : Draft}

theorem JoinPlan.Denotes.mono {path : Path} {ref : Sql.ColumnRef} (h : plan.Denotes s u path ref)
    (hext : plan.Extends plan') : plan'.Denotes s u path ref := by
  unfold JoinPlan.Denotes at h ⊢
  revert h
  cases (walk s.catalog s.root path.segments).bind List.getLast? with
  | none => exact id
  | some step =>
    cases step with
    | column c =>
      rintro ⟨tableAlias, table, hlocated, href⟩
      exact ⟨tableAlias, table, hlocated.mono hext, href⟩
    | relation r target =>
      rintro ⟨tableAlias, hlocated, href⟩
      exact ⟨tableAlias, hlocated.mono hext, href⟩

/-- A resolved path that ends in a column stands for it. -/
theorem Setting.denotes_column {path : Path} {hops : List Hop} {tableAlias : String} {c : Column} (hp : plan.Regular)
    (h : s.resolve? plan path u = some (.column hops tableAlias c, plan')) :
    plan'.Denotes s u path ⟨tableAlias, c.name⟩ := by
  obtain ⟨-, -, hfound, hsegments⟩ := resolve?_found hp h
  rw [JoinPlan.Denotes, last_of_resolve? h]
  cases hfound with
  | column htrail hc => exact ⟨tableAlias, _, ⟨hops, _, htrail, (Path.segments_parent hsegments).symm⟩, rfl⟩

/-- A resolved path that ends in a relation stands for the key of its target, once it is joined. -/
theorem Setting.denotes_relation {path : Path} {hops : List Hop} {parentPath parentAlias : String}
    {parent target : Table} {r : Relation} (hp : plan.Regular)
    (h : s.resolve? plan path u = some (.relation hops parentPath parentAlias parent r target, plan')) :
    (plan'.cross parentPath parentAlias r target u).2.Denotes s u path
      ⟨(plan'.cross parentPath parentAlias r target u).1.tableAlias, target.primaryKey⟩ := by
  obtain ⟨hcrosses, -, hfound, hsegments⟩ := resolve?_found hp h
  rw [JoinPlan.Denotes, last_of_resolve? h]
  cases hfound with
  | relation htrail hr ht =>
    obtain ⟨-, -, htrail'⟩ := JoinPlan.cross_trail (hcrosses.gains.regular hp) htrail hr ht
    refine ⟨_, ⟨_, _, htrail', ?_⟩, rfl⟩
    rw [← hsegments, List.map_append]
    rfl

/-- A sort term is dropped if its path leads nowhere, and orders by the column that its path stands for otherwise. -/
theorem SortTerm.compile_denotes {t : SortTerm} {column : Option Sql.ColumnRef} (hp : d.plan.Regular)
    (h : t.compile s d = .ok (column, d')) : s.loses t.path = true ∧ column = none ∨
      s.loses t.path = false ∧ ∃ ref, column = some ref ∧ d'.plan.Denotes s .forSort t.path ref := by
  rcases compile_eq_ok.mp h with ⟨hlost, hcolumn, -⟩ | ⟨res, plan, key, plan', hres, hkey, hcolumn, rfl⟩
  · exact Or.inl ⟨Option.isNone_iff_eq_none.mpr hlost, hcolumn⟩
  · have hkept : s.loses t.path = false := by
      rw [Setting.loses, Setting.typeAt?_of_resolve? hres]
      rfl
    refine Or.inr ⟨hkept, key, hcolumn, ?_⟩
    cases res with
    | column =>
      obtain ⟨-, rfl, rfl⟩ := keyOf_column_eq_ok.mp hkey
      exact Setting.denotes_column hp hres
    | relation =>
      obtain ⟨-, -, rfl, rfl⟩ := keyOf_relation_eq_ok.mp hkey
      exact Setting.denotes_relation hp hres

namespace SortKey

theorem subset_insert (keys : List SortKey) (k : SortKey) : keys ⊆ insert keys k := by
  intro k' hk'
  unfold insert
  split
  · exact hk'
  · exact List.mem_append_left _ hk'

/-- The column of an inserted key is one of the columns. -/
theorem column_insert (keys : List SortKey) (k : SortKey) : ∃ k' ∈ insert keys k, k'.column = k.column := by
  unfold insert
  split
  · rename_i hany
    obtain ⟨k', hk', hcolumn⟩ := List.any_eq_true.mp hany
    exact ⟨k', hk', beq_iff_eq.mp hcolumn⟩
  · exact ⟨k, List.mem_append_right _ (List.mem_singleton.mpr rfl), rfl⟩

theorem compileAll_denotes : ∀ {terms : List SortTerm} {keys keys' : List SortKey} {d d' : Draft}, d.plan.Regular →
    compileAll s terms keys d = .ok (keys', d') →
      keys ⊆ keys' ∧ ∀ t ∈ terms, s.loses t.path = true ∨
        ∃ k ∈ keys', d'.plan.Denotes s .forSort t.path k.column
  | [], keys, keys', d, d', _, h => by
    cases h
    exact ⟨fun _ hk => hk, fun t ht => absurd ht List.not_mem_nil⟩
  | t :: rest, keys, keys', d, d', hp, h => by
    obtain ⟨column, d₁, hterm, hrest⟩ := compileAll_cons_eq_ok.mp h
    have hp₁ := (SortTerm.compile_crosses hp hterm).gains.regular hp
    have hext := (compileAll_crosses hp₁ hrest).gains.toExtends
    obtain ⟨hsub, hshown⟩ := compileAll_denotes hp₁ hrest
    refine ⟨fun k hk => hsub ?_, fun t' ht' => ?_⟩
    · cases column with
      | none => exact hk
      | some ref => exact subset_insert keys _ hk
    · rcases List.mem_cons.mp ht' with rfl | ht'
      · rcases SortTerm.compile_denotes hp hterm with ⟨hlost, -⟩ | ⟨-, ref, rfl, hdenotes⟩
        · exact Or.inl hlost
        · obtain ⟨k, hk, hcolumn⟩ := column_insert keys ⟨ref, t'.descending⟩
          refine Or.inr ⟨k, hsub hk, ?_⟩
          rw [hcolumn]
          exact hdenotes.mono hext
      · exact hshown t' ht'

theorem listOf_denotes {terms : List SortTerm} {keys : List SortKey} (hp : d.plan.Regular)
    (h : listOf s terms d = .ok (keys, d')) : ∀ t ∈ terms, s.loses t.path = true ∨
      ∃ k ∈ keys, d'.plan.Denotes s .forSort t.path k.column := by
  obtain ⟨own, hown, rfl⟩ := listOf_eq_ok.mp h
  intro t ht
  refine ((compileAll_denotes hp hown).2 t ht).imp_right ?_
  rintro ⟨k, hk, hdenotes⟩
  exact ⟨k, subset_insert own _ hk, hdenotes⟩

end SortKey

/-! ### Filters -/

/-- The tests of the conditions are those that the predicates compile to, one for each that leads somewhere. -/
def Setting.Contributes (s : Setting) (u : Usage) (ps : List Predicate) (parts : List Condition) : Prop :=
  ∃ leaves : List Leaf, leaves.map (·.predicate) = ps.filter s.keeps ∧
    Condition.testsOfAll parts = leaves.map (·.test) ∧
    ∀ l ∈ leaves, ∃ d d', l.predicate.compile s u d = .ok (some l.test, d')

theorem Predicate.compileEach_leaves : ∀ {ps : List Predicate} {d d' : Draft} {leaves : List Leaf},
    compileEach s u ps d = .ok (leaves, d') → leaves.map (·.predicate) = ps.filter s.keeps ∧
      ∀ l ∈ leaves, ∃ d d', l.predicate.compile s u d = .ok (some l.test, d')
  | [], d, d', leaves, h => by
    cases h
    exact ⟨rfl, fun l hl => absurd hl List.not_mem_nil⟩
  | p :: rest, d, d', leaves, h => by
    obtain ⟨test, d₁, more, htest, hrest, rfl⟩ := compileEach_cons_eq_ok.mp h
    obtain ⟨hpredicates, hcompiled⟩ := compileEach_leaves hrest
    have hkept : s.keeps p = test.isSome := by
      rcases compile_eq_ok.mp htest with ⟨hlost, rfl, -⟩ | ⟨res, plan, t, plan', hres, -, rfl, -⟩
      · rw [Setting.keeps, Setting.loses, hlost]
        rfl
      · rw [Setting.keeps, Setting.loses, Setting.typeAt?_of_resolve? hres]
        rfl
    cases test with
    | none =>
      refine ⟨?_, hcompiled⟩
      rw [List.filter_cons_of_neg (by simp [hkept])]
      exact hpredicates
    | some t =>
      refine ⟨?_, fun l hl => ?_⟩
      · rw [List.filter_cons_of_pos (by simp [hkept]), ← hpredicates]
        rfl
      · rcases List.mem_cons.mp hl with rfl | hl
        · exact ⟨d, d₁, htest⟩
        · exact hcompiled l hl

theorem Filter.compileJson_contributes {filter : Json} {parts : List Condition}
    (h : compileJson s u filter d = .ok (parts, d')) : s.Contributes u (predicates filter) parts := by
  obtain ⟨nodes, hnodes, hall⟩ := bind_eq_ok.mp h
  obtain ⟨kept, rfl, -, heach⟩ := compileAll_kept hall
  rw [leavesOfAll_ofJson hnodes] at heach
  obtain ⟨hpredicates, hcompiled⟩ := Predicate.compileEach_leaves heach
  exact ⟨_, hpredicates, Condition.testsOfAll_ofFormulas kept, hcompiled⟩

theorem AggregateRequest.compileAll_contributes : ∀ {rs : List AggregateRequest} {terms : List AggregateTerm}
    {d d' : Draft}, compileAll s rs d = .ok (terms, d') →
      List.Forall₂ (fun r t => s.Contributes .forAggregate r.predicates t.condition) rs terms
  | [], terms, d, d', h => by
    cases h
    exact .nil
  | r :: rest, terms, d, d', h => by
    obtain ⟨term, d₁, more, hterm, hrest, rfl⟩ := compileAll_cons_eq_ok.mp h
    obtain ⟨call, plan, condition, d₂, -, hcondition, rfl, -⟩ := compile_eq_ok.mp hterm
    exact .cons (Filter.compileJson_contributes hcondition) (compileAll_contributes hrest)

/-- The conditions of an aggregate are those of its term, wherever they are put. -/
theorem CompiledParts.conditions_aggregateSelect (c : CompiledParts) (t : AggregateTerm) :
    (c.aggregateSelect s t).rows.conditions = t.condition := by
  rcases c.aggregateSelect_eq s t with heq | heq <;> rw [heq] <;> rfl

theorem CompiledParts.parts_aggregateQuery (c : CompiledParts) :
    ((c.aggregateQuery s).map (·.parts)).getD [] = c.aggregates.map (c.aggregateSelect s) := by
  unfold aggregateQuery
  split
  · rename_i hempty
    rw [List.isEmpty_iff.mp hempty]
    rfl
  · rfl

/-! ### Requests -/

/-- The text of a path that is dropped is reported. -/
theorem Setting.mem_reported {paths : List Path} {path : Path} (hpath : path ∈ paths) (hlost : s.loses path = true) :
    path.text ∈ s.reported paths :=
  List.mem_map_of_mem (List.mem_filter.mpr ⟨hpath, hlost⟩)

theorem FindRequest.reported_field {r : FindRequest} {aggregates : List AggregateRequest} {path : Path}
    (hpath : path ∈ Projection.fieldPaths (Path.listOf r.fields)) (hlost : s.losesField path = true) :
    path.text ∈ r.reported s aggregates := by
  unfold Projection.fieldPaths at hpath
  split at hpath
  · rw [List.mem_singleton.mp hpath] at hlost
    cases hlost
  · have hmem : path.text ∈ s.reportedFields (Path.listOf r.fields) :=
      List.mem_map_of_mem (List.mem_filter.mpr ⟨hpath, hlost⟩)
    exact List.mem_append_left _ (List.mem_append_left _ (List.mem_append_left _ hmem))

/-- Nothing of a request is lost without a word. A path of the field list, a sort term and a leaf of the filter or of
the condition of an aggregate is reported, or it is in the plan: the projection shows the path (everything, for `*`),
the order has the column of the term, the leaf has its test among the conditions. Every relation has a target, so that
none is passed over. -/
theorem FindPlan.compile_represents {catalog : Catalog} {table : String} {request : FindRequest}
    {options : CompileOptions} {p : FindPlan} (hnames : catalog.Distinct)
    (h : compile catalog table request options = .ok p) :
    ∃ s counts aggregates c, setting catalog table options = .ok s ∧
      AggregateRequest.ofJson request.aggregate = .ok aggregates ∧
      CompiledParts.compile s request aggregates = .ok c ∧
      p = c.plan s counts (Window.ofPage request.page request.limit options.defaultLimit) ∧
      (∀ path ∈ Projection.fieldPaths (Path.listOf request.fields),
        s.losesField path = true ∧ path.text ∈ p.skipped ∨ p.projection.Shows c.draft.plan s path) ∧
      (∀ t ∈ SortTerm.listOf request.sort,
        s.loses t.path = true ∧ t.path.text ∈ p.skipped ∨
          ∃ k ∈ p.data.sort, c.draft.plan.Denotes s .forSort t.path k.column) ∧
      (∀ q ∈ Filter.predicates request.filter ++ aggregates.flatMap (·.predicates),
        s.keeps q = false → q.path.text ∈ p.skipped) ∧
      s.Contributes .forFilter (Filter.predicates request.filter) p.data.filter ∧
      List.Forall₂ (fun r a => s.Contributes .forAggregate r.predicates a.rows.conditions) aggregates
        ((p.aggregate.map (·.parts)).getD []) ∧
      ∀ t ∈ catalog.tables, ∀ r ∈ t.relations, (catalog.target? r).isSome = true := by
  obtain ⟨counts, aggregates, s, c, -, haggs, hsetting, hc, rfl⟩ := compile_eq_ok.mp h
  obtain ⟨-, root, htable, rfl⟩ := setting_eq_ok.mp hsetting
  have hroot : root ∈ catalog.tables := Catalog.mem_of_table? htable
  have hskipped : ∀ text ∈ request.reported ⟨catalog, root, options⟩ aggregates, text ∈ c.draft.skipped :=
    fun text htext => CompiledParts.skipped_compile hc ▸ htext
  obtain ⟨d₁, d₂, d₃, h₁, h₂, h₃, h₄⟩ := CompiledParts.compile_eq_ok.mp hc
  obtain ⟨hp₁, hfields⟩ := Projection.ofFields_shows (d := ⟨.start options.rootAlias, []⟩) hnames hroot
    (JoinPlan.regular_start options.rootAlias) h₁
  have hgains₂ := (Filter.compileJson_crosses hp₁ h₂).gains
  have hp₂ := hgains₂.regular hp₁
  have hgains₃ := (SortKey.listOf_crosses hp₂ h₃).gains
  have hgains₄ := AggregateRequest.compileAll_gains (hgains₃.regular hp₂) h₄
  refine ⟨_, counts, aggregates, c, hsetting, haggs, hc, rfl, fun path hpath => ?_, fun t ht => ?_,
    fun q hq hlost => ?_, Filter.compileJson_contributes h₂, ?_, fun t ht r hr => ?_⟩
  · rcases hfields path hpath with hlost | hshows
    · exact Or.inl ⟨hlost, hskipped _ (FindRequest.reported_field hpath hlost)⟩
    · exact Or.inr (hshows.mono (.refl _) ((hgains₂.toExtends.trans hgains₃.toExtends).trans hgains₄.toExtends))
  · rcases SortKey.listOf_denotes hp₂ h₃ t ht with hlost | ⟨k, hk, hdenotes⟩
    · refine Or.inl ⟨hlost, hskipped _ ?_⟩
      exact List.mem_append_left _ (List.mem_append_right _ (Setting.mem_reported (List.mem_map_of_mem ht) hlost))
    · exact Or.inr ⟨k, hk, hdenotes.mono hgains₄.toExtends⟩
  · have hloses : Setting.loses ⟨catalog, root, options⟩ q.path = true := by simpa [Setting.keeps] using hlost
    refine hskipped _ ?_
    rcases List.mem_append.mp hq with hq | hq
    · exact List.mem_append_left _ (List.mem_append_left _ (List.mem_append_right _
        (Setting.mem_reported (List.mem_map_of_mem hq) hloses)))
    · exact List.mem_append_right _ (Setting.mem_reported (List.mem_map_of_mem hq) hloses)
  · show List.Forall₂ _ aggregates (((c.aggregateQuery _).map (·.parts)).getD [])
    rw [CompiledParts.parts_aggregateQuery, List.forall₂_map_right_iff]
    simp only [CompiledParts.conditions_aggregateSelect]
    exact AggregateRequest.compileAll_contributes h₄
  · exact Catalog.target?_isSome ht hr

/-- Posts with everything about them and their authors, one field and one sort term that lead nowhere. -/
def FindRequest.everything : FindRequest :=
  { FindRequest.sample with fields := ["*, author.*", "nowhere, tags"], sort := ["nowhere", "-author"] }

theorem compile_represents_blog :
    ∃ p s, ∃ c : CompiledParts, FindPlan.compile .blog "posts" .everything .standard = .ok p ∧
      (∀ path ∈ Projection.fieldPaths (Path.listOf FindRequest.everything.fields),
        s.losesField path = true ∧ path.text ∈ p.skipped ∨ p.projection.Shows c.draft.plan s path) ∧
      s.Contributes .forFilter (Filter.predicates FindRequest.everything.filter) p.data.filter := by
  have hnames : Catalog.blog.Distinct := by
    unfold Catalog.Distinct
    decide +kernel
  obtain ⟨p, hp⟩ := exists_eq_ok (x := FindPlan.compile .blog "posts" .everything .standard) (by decide +kernel)
  obtain ⟨s, counts, aggregates, c, -, -, -, -, hfields, -, -, hfilter, -⟩ := FindPlan.compile_represents hnames hp
  exact ⟨p, s, c, hp, hfields, hfilter⟩

end RecordService
