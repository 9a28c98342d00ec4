import Mathlib.Data.List.Forall2
import RecordService.Proofs.Plan.Recordings
import RecordService.Proofs.Plan.Represented
import RecordService.Proofs.Sql.Joined

/-! # Aggregates apart from each other

Joins are shared by all parts of a request, but each aggregate is computed over joins of its own: those that its target
and its condition cross, whoever planned them (`FindPlan.compile_isolated`). A condition that would multiply the records
goes into a subquery, and the filter always does. A target that crosses no to-many relation therefore counts each record
once, whatever the other parts of the request join, unless the names of relations make paths ambiguous
(`not_compile_isolated_illegible`). -/

namespace RecordService

/-! ### Aggregates -/

/-- The relations that the condition of an aggregate needs joined. -/
def AggregateRequest.conditionCrossed (s : Setting) (r : AggregateRequest) : List Crossing :=
  r.predicates.flatMap (·.crossed s)

variable {s : Setting} {u : Usage} {d d' : Draft}

theorem Predicate.crossed_of_compileEach : ∀ {ps : List Predicate} {d d' : Draft},
    compileEach s u ps d = .ok ([], d') → ps.flatMap (·.crossed s) = []
  | [], _, _, _ => rfl
  | p :: rest, d, d', h => by
    obtain ⟨test, d₁, more, htest, hrest, hleaves⟩ := compileEach_cons_eq_ok.mp h
    obtain ⟨hnone, rfl⟩ := List.append_eq_nil_iff.mp hleaves.symm
    rw [List.flatMap_cons, crossed_of_compileEach hrest, List.append_nil]
    rcases compile_eq_ok.mp htest with ⟨hlost, -, -⟩ | ⟨res, plan, found, plan', -, -, rfl, -⟩
    · rw [crossed, Setting.crossed_of_lost hlost]
      simp
    · simp at hnone

/-- A condition of which nothing is left joins nothing. -/
theorem Filter.crossed_of_compileJson {filter : Json} (h : compileJson s u filter d = .ok ([], d')) :
    (predicates filter).flatMap (·.crossed s) = [] := by
  obtain ⟨nodes, hnodes, hall⟩ := bind_eq_ok.mp h
  obtain ⟨kept, hkept, -, heach⟩ := compileAll_kept hall
  cases kept with
  | nil =>
    rw [leavesOfAll_ofJson hnodes] at heach
    exact Predicate.crossed_of_compileEach heach
  | cons => cases hkept

theorem Predicate.names_of_crossed {p : Predicate} {x : Crossing} (h : x ∈ p.crossed s) : s.Names x := by
  unfold crossed at h
  split at h
  · exact Setting.names_of_crossed (List.dropLast_subset _ h)
  · exact Setting.names_of_crossed h

namespace AggregateRequest

variable {r : AggregateRequest} {x : Crossing}

theorem names_of_targetCrossed (h : x ∈ r.targetCrossed s) : s.Names x := by
  unfold targetCrossed at h
  split at h
  · cases h
  · exact Setting.names_of_crossed h

theorem names_of_conditionCrossed (h : x ∈ r.conditionCrossed s) : s.Names x := by
  obtain ⟨p, -, hx⟩ := List.mem_flatMap.mp h
  exact Predicate.names_of_crossed hx

theorem names_of_crossed (h : x ∈ r.crossed s) : s.Names x :=
  (List.mem_append.mp h).elim names_of_targetCrossed names_of_conditionCrossed

/-- These are the conditions that the condition of the request is compiled to. -/
def Yields (s : Setting) (r : AggregateRequest) (conditions : List Condition) : Prop :=
  ∃ d d', Filter.compileJson s .forAggregate (r.condition.getD .null) d = .ok (conditions, d')

end AggregateRequest

/-- The term is that of the request, and its places are those of what the target and the condition cross. -/
structure AggregateTerm.Placed (t : AggregateTerm) (s : Setting) (p : JoinPlan) (r : AggregateRequest) : Prop where
  label : t.label = r.label
  call : ∃ plan plan', r.target s plan = .ok (t.call, plan')
  yields : r.Yields s t.condition
  target : p.Places t.targetJoins (r.targetCrossed s)
  condition : p.Places t.conditionJoins (r.conditionCrossed s)

theorem AggregateTerm.Placed.mono {t : AggregateTerm} {p p' : JoinPlan} {r : AggregateRequest} (h : t.Placed s p r)
    (hext : p.Extends p') : t.Placed s p' r :=
  { h with target := h.target.mono hext, condition := h.condition.mono hext }

/-- A condition of which nothing is left joins nothing. -/
theorem AggregateTerm.Placed.bare {t : AggregateTerm} {p : JoinPlan} {r : AggregateRequest} (h : t.Placed s p r)
    (hnone : t.condition = []) : r.conditionCrossed s = [] := by
  obtain ⟨d, d', hcondition⟩ := h.yields
  rw [hnone] at hcondition
  exact Filter.crossed_of_compileJson hcondition

namespace AggregateRequest

variable {r : AggregateRequest} {rs : List AggregateRequest} {term : AggregateTerm} {terms : List AggregateTerm}

theorem compile_placed (hp : d.plan.Regular) (htraced : d.plan.Traced s) (h : r.compile s d = .ok (term, d')) :
    d'.plan.Traced s ∧ term.Placed s d'.plan r := by
  obtain ⟨call, plan, condition, d₁, htarget, hcondition, rfl, rfl⟩ := compile_eq_ok.mp h
  have hrecord : d.plan.Gains d.plan.record [] := .of_joins rfl rfl rfl
  have hcrosses := target_crosses (hrecord.regular hp) htarget
  have hrecorded : plan.recorded.2.Gains plan.recorded.2.record [] := .of_joins rfl rfl rfl
  have hended : plan.Gains plan.recorded.2 [] := .of_joins rfl rfl rfl
  have hp₁ := hrecorded.regular (hended.regular (hcrosses.gains.regular (hrecord.regular hp)))
  have hcrosses₁ : plan.recorded.2.record.Crosses .forAggregate (r.conditionCrossed s) d₁.plan :=
    Filter.compileJson_crosses (d := ⟨plan.recorded.2.record, d.skipped⟩) hp₁ hcondition
  have hended₁ : d₁.plan.Gains d₁.plan.recorded.2 [] := .of_joins rfl rfl rfl
  -- the places of the target stay the same while the condition is compiled
  have hext := (hrecorded.toExtends.trans hcrosses₁.gains.toExtends).trans hended₁.toExtends
  refine ⟨?_, rfl, ⟨_, _, htarget⟩, ⟨_, _, hcondition⟩, hcrosses.places.mono hext, hcrosses₁.places⟩
  have htraced₀ : d.plan.record.Traced s := htraced.of_joins rfl
  have htraced₁ : plan.recorded.2.record.Traced s :=
    (htraced₀.crosses hcrosses fun x hx => (names_of_targetCrossed hx).joinable).of_joins rfl
  exact (htraced₁.crosses hcrosses₁ fun x hx => (names_of_conditionCrossed hx).joinable).of_joins rfl

theorem compileAll_placed : ∀ {rs : List AggregateRequest} {terms : List AggregateTerm} {d d' : Draft},
    d.plan.Regular → d.plan.Traced s → compileAll s rs d = .ok (terms, d') →
      d'.plan.Traced s ∧ List.Forall₂ (fun r t => t.Placed s d'.plan r) rs terms
  | [], _, _, _, _, htraced, h => by
    cases h
    exact ⟨htraced, .nil⟩
  | r :: rest, _, d, d', hp, htraced, h => by
    obtain ⟨term, d₁, more, hterm, hrest, rfl⟩ := compileAll_cons_eq_ok.mp h
    obtain ⟨htraced₁, hplaced⟩ := compile_placed hp htraced hterm
    have hp₁ := (compile_gains hp hterm).regular hp
    obtain ⟨htraced', hmore⟩ := compileAll_placed hp₁ htraced₁ hrest
    exact ⟨htraced', .cons (hplaced.mono (compileAll_gains hp₁ hrest).toExtends) hmore⟩

end AggregateRequest

/-- The clauses of a join have the aliases of its place. -/
theorem JoinPlan.Traced.clause_alias {p : JoinPlan} {k : Nat} {j : Join} (h : p.Traced s) (hp : p.Regular)
    (hj : p.joins[k]? = some j) : ∀ clause ∈ j.clauses,
      clause.tableAlias = joinAlias k ∨ clause.tableAlias = linkAlias (joinAlias k) := by
  intro clause hclause
  have halias := hp.aliases k j hj
  have hlinked := h.linked j (List.mem_of_getElem? hj)
  unfold Join.clauses at hclause
  cases hlink : j.link with
  | none =>
    rw [hlink] at hclause
    rw [List.mem_singleton.mp hclause]
    exact Or.inl halias
  | some link =>
    rw [hlink] at hclause
    rcases List.mem_pair.mp hclause with rfl | rfl
    · exact Or.inr (halias ▸ hlinked link hlink)
    · exact Or.inl halias

/-! ### Requests -/

namespace CompiledParts

variable {c : CompiledParts} {r : AggregateRequest} {request : FindRequest} {aggregates : List AggregateRequest}

/-- The places of all terms are those of what they cross. -/
structure Placed (c : CompiledParts) (s : Setting) (aggregates : List AggregateRequest) : Prop where
  regular : c.draft.plan.Regular
  traced : c.draft.plan.Traced s
  root : c.draft.plan.root = s.options.rootAlias
  terms : List.Forall₂ (fun r t => t.Placed s c.draft.plan r) aggregates c.aggregates

/-- The stages in which the parts of a request are compiled, and the joins that each of them adds. -/
structure Staged (c : CompiledParts) (s : Setting) (request : FindRequest) (requests : List AggregateRequest)
    (d₁ d₂ d₃ : Draft) : Prop where
  fields : Projection.ofFields s (Path.listOf request.fields) ⟨.start s.options.rootAlias, []⟩ = .ok (c.projection, d₁)
  filter : Filter.compileJson s .forFilter request.filter d₁ = .ok (c.filter, d₂)
  sort : SortKey.listOf s (SortTerm.listOf request.sort) d₂ = .ok (c.sort, d₃)
  aggregates : AggregateRequest.compileAll s requests d₃ = .ok (c.aggregates, c.draft)
  projected : ∃ xs, (JoinPlan.start s.options.rootAlias).Crosses .forProjection xs d₁.plan ∧ ∀ x ∈ xs, s.Joinable x
  filtered : d₁.plan.Crosses .forFilter ((Filter.predicates request.filter).flatMap (·.crossed s)) d₂.plan
  sorted : d₂.plan.Crosses .forSort ((SortTerm.listOf request.sort).flatMap (s.crossed ·.path)) d₃.plan
  aggregated : d₃.plan.Gains c.draft.plan ((requests.flatMap (·.crossed s)).map (Need.mk .forAggregate))
  regular₁ : d₁.plan.Regular
  regular₂ : d₂.plan.Regular
  regular₃ : d₃.plan.Regular

theorem compile_staged (hroot : s.root ∈ s.catalog.tables) (h : compile s request aggregates = .ok c) :
    ∃ d₁ d₂ d₃, c.Staged s request aggregates d₁ d₂ d₃ := by
  obtain ⟨d₁, d₂, d₃, h₁, h₂, h₃, h₄⟩ := compile_eq_ok.mp h
  have hstart := JoinPlan.regular_start s.options.rootAlias
  obtain ⟨xs, hcrosses₁, hjoinable⟩ := Projection.ofFields_crosses hroot hstart h₁
  have hp₁ := hcrosses₁.gains.regular hstart
  have hcrosses₂ := Filter.compileJson_crosses hp₁ h₂
  have hp₂ := hcrosses₂.gains.regular hp₁
  have hcrosses₃ := SortKey.listOf_crosses hp₂ h₃
  have hp₃ := hcrosses₃.gains.regular hp₂
  exact ⟨d₁, d₂, d₃, h₁, h₂, h₃, h₄, ⟨xs, hcrosses₁, hjoinable⟩, hcrosses₂, hcrosses₃,
    AggregateRequest.compileAll_gains hp₃ h₄, hp₁, hp₂, hp₃⟩

theorem compile_placed (hroot : s.root ∈ s.catalog.tables) (h : compile s request aggregates = .ok c) :
    c.Placed s aggregates := by
  obtain ⟨d₁, d₂, d₃, hstaged⟩ := compile_staged hroot h
  obtain ⟨xs, hcrosses₁, hnames₁⟩ := hstaged.projected
  have htraced₁ := (JoinPlan.traced_start s.options.rootAlias s).crosses hcrosses₁ hnames₁
  have htraced₂ := htraced₁.crosses hstaged.filtered fun x hx => by
    obtain ⟨p, -, hx⟩ := List.mem_flatMap.mp hx
    exact (Predicate.names_of_crossed hx).joinable
  have htraced₃ := htraced₂.crosses hstaged.sorted fun x hx => by
    obtain ⟨t, -, hx⟩ := List.mem_flatMap.mp hx
    exact (Setting.names_of_crossed hx).joinable
  obtain ⟨htraced, hterms⟩ := AggregateRequest.compileAll_placed hstaged.regular₃ htraced₃ hstaged.aggregates
  have hext := (hcrosses₁.gains.toExtends.trans hstaged.filtered.gains.toExtends).trans hstaged.sorted.gains.toExtends
  exact ⟨hstaged.aggregated.regular hstaged.regular₃, htraced, (hext.trans hstaged.aggregated.toExtends).root, hterms⟩

/-- The condition reaches many records, and the target does not. -/
def Multiplies (c : CompiledParts) (s : Setting) (r : AggregateRequest) : Prop :=
  (∀ j ∈ c.draft.plan.joinsOf (r.targetCrossed s), j.many = false) ∧
    ∃ j ∈ c.draft.plan.joinsOf (r.conditionCrossed s), j.many = true

/-- The aggregate is that of the request, over the joins that this request crosses and no others. -/
structure Isolated (c : CompiledParts) (s : Setting) (r : AggregateRequest) (a : AggregateSelect) : Prop where
  label : a.label = r.label
  call : ∃ plan plan', r.target s plan = .ok (a.call, plan')
  /-- Each relation has a join, which is shared by the path alone. -/
  planned : ∀ x ∈ r.crossed s, ∃ j ∈ c.draft.plan.joins, j.path = x.path ∧ (s.catalog.PathSafe → j.Of x)
  /-- A condition that would multiply the records goes into a subquery, together with its joins. -/
  apart : c.Multiplies s r → a.source = c.source s (c.draft.plan.joinsOf (r.targetCrossed s)) ∧
    ∃ conditions, r.Yields s conditions ∧
      a.rows = .within ⟨c.rootKey s, c.source s (c.draft.plan.joinsOf (r.conditionCrossed s)), conditions⟩
  /-- Any other condition stays where the target is. -/
  together : ¬c.Multiplies s r → a.source = c.source s (c.draft.plan.joinsOf (r.crossed s)) ∧
    ∃ conditions, r.Yields s conditions ∧ a.rows = .meeting conditions
  /-- The filter is there as membership of the root key only. -/
  records : a.records = c.filtered s
  /-- If the target crosses to-one relations only, the FROM clause has no other joins, and if these are functional,
  then each row of the root table once. -/
  once : s.catalog.Legible → (∀ x ∈ r.targetCrossed s, x.relation.isMany = false) →
    (∀ j ∈ a.source.joins, j.many = false) ∧
      ∀ db : Database, (∀ j ∈ a.source.joins, j.many = false → j.Functional db) →
        (a.source.rows db).map (· a.source.tableAlias) = db.rows a.source.table

theorem Placed.one_of_target (h : c.Placed s aggregates) (hnames : s.catalog.Legible)
    (hroot : s.root ∈ s.catalog.tables) (hone : ∀ x ∈ r.targetCrossed s, x.relation.isMany = false) :
    ∀ j ∈ c.draft.plan.joinsOf (r.targetCrossed s), j.many = false := by
  intro j hj
  obtain ⟨hmem, x, hx, hpath⟩ := JoinPlan.mem_joinsOf.mp hj
  exact h.traced.toOne hnames hroot hmem (AggregateRequest.names_of_targetCrossed hx) (hone x hx) hpath.symm

/-- No join brings the alias of the root table with it. -/
theorem Placed.aliases_ne (h : c.Placed s aggregates) (halias : CompileOptions.aliasFault? s.options.rootAlias = none)
    {j : Join} (hj : j ∈ c.draft.plan.joins) : ∀ clause ∈ j.clauses, clause.tableAlias ≠ c.draft.plan.root := by
  obtain ⟨k, hk⟩ := List.mem_iff_getElem?.mp hj
  intro clause hclause
  have hplace := h.traced.clause_alias h.regular hk clause hclause
  rw [h.root]
  exact CompileOptions.rootAlias_ne halias (JoinPlan.isGenerated_alias (hplace.imp_right Or.inl))

section
variable {t : AggregateTerm}

theorem Placed.multiplies_iff (h : c.Placed s aggregates) (ht : t.Placed s c.draft.plan r) :
    (!t.condition.isEmpty && !c.draft.plan.anyMany t.targetJoins && c.draft.plan.anyMany t.conditionJoins) = true ↔
      c.Multiplies s r := by
  have htarget : (!c.draft.plan.anyMany t.targetJoins) = true ↔
      ∀ j ∈ c.draft.plan.joinsOf (r.targetCrossed s), j.many = false := by
    rw [Bool.not_eq_true', ← Bool.not_eq_true, ht.target.anyMany_iff h.regular]
    simp
  -- the test for an empty condition changes nothing, because such a condition joins nothing
  have hcondition : (∃ j ∈ c.draft.plan.joinsOf (r.conditionCrossed s), j.many = true) →
      (!t.condition.isEmpty) = true := by
    rintro ⟨j, hj, -⟩
    rw [Bool.not_eq_true', List.isEmpty_eq_false_iff]
    intro hnone
    rw [ht.bare hnone] at hj
    obtain ⟨-, x, hx, -⟩ := JoinPlan.mem_joinsOf.mp hj
    cases hx
  rw [Bool.and_eq_true, Bool.and_eq_true, htarget, ht.condition.anyMany_iff h.regular, Multiplies]
  exact ⟨fun ⟨⟨_, hone⟩, hmany⟩ => ⟨hone, hmany⟩, fun ⟨hone, hmany⟩ => ⟨⟨hcondition hmany, hone⟩, hmany⟩⟩

theorem Placed.select_apart (h : c.Placed s aggregates) (ht : t.Placed s c.draft.plan r) (hm : c.Multiplies s r) :
    c.aggregateSelect s t =
      ⟨t.call, .within ⟨c.rootKey s, c.source s (c.draft.plan.joinsOf (r.conditionCrossed s)), t.condition⟩,
        c.source s (c.draft.plan.joinsOf (r.targetCrossed s)), c.filtered s, t.label⟩ := by
  rw [← ht.target.joinsAt h.regular, ← ht.condition.joinsAt h.regular]
  exact if_pos ((h.multiplies_iff ht).mpr hm)

theorem Placed.select_together (h : c.Placed s aggregates) (ht : t.Placed s c.draft.plan r)
    (hm : ¬c.Multiplies s r) :
    c.aggregateSelect s t =
      ⟨t.call, .meeting t.condition, c.source s (c.draft.plan.joinsOf (r.crossed s)), c.filtered s, t.label⟩ := by
  have hboth : c.draft.plan.joinsAt (t.targetJoins ++ t.conditionJoins) = c.draft.plan.joinsOf (r.crossed s) :=
    (ht.target.append ht.condition).joinsAt h.regular
  rw [← hboth]
  exact if_neg ((h.multiplies_iff ht).not.mpr hm)

/-- The joins of a FROM clause are of the target, or of a condition that does not multiply. -/
theorem Placed.joins_select (h : c.Placed s aggregates) (ht : t.Placed s c.draft.plan r) :
    ∃ joins, (c.aggregateSelect s t).source = c.source s joins ∧ ∀ j ∈ joins,
      j ∈ c.draft.plan.joinsOf (r.targetCrossed s) ∨
        j ∈ c.draft.plan.joinsOf (r.conditionCrossed s) ∧ ¬c.Multiplies s r := by
  by_cases hm : c.Multiplies s r
  · rw [h.select_apart ht hm]
    exact ⟨_, rfl, fun j hj => Or.inl hj⟩
  · rw [h.select_together ht hm]
    refine ⟨_, rfl, fun j hj => ?_⟩
    obtain ⟨hmem, x, hx, hpath⟩ := JoinPlan.mem_joinsOf.mp hj
    rcases List.mem_append.mp hx with hx | hx
    · exact Or.inl (JoinPlan.mem_joinsOf.mpr ⟨hmem, x, hx, hpath⟩)
    · exact Or.inr ⟨JoinPlan.mem_joinsOf.mpr ⟨hmem, x, hx, hpath⟩, hm⟩

theorem Placed.isolated (h : c.Placed s aggregates) (ht : t.Placed s c.draft.plan r)
    (hroot : s.root ∈ s.catalog.tables) (halias : CompileOptions.aliasFault? s.options.rootAlias = none) :
    c.Isolated s r (c.aggregateSelect s t) := by
  obtain ⟨hlabel, hcall, hrecords⟩ : (c.aggregateSelect s t).label = t.label ∧ (c.aggregateSelect s t).call = t.call ∧
      (c.aggregateSelect s t).records = c.filtered s := by
    rcases c.aggregateSelect_eq s t with heq | heq <;> rw [heq] <;> exact ⟨rfl, rfl, rfl⟩
  refine ⟨hlabel.trans ht.label, hcall ▸ ht.call, fun x hx => ?planned, fun hm => ?apart, fun hm => ?together, hrecords,
    fun hnames hone => ?once⟩
  case planned =>
    obtain ⟨k, hk⟩ := (ht.target.append ht.condition).joined x hx
    obtain ⟨j, hj, hpath⟩ := h.regular.indexed.index?_iff.mp hk
    have hmem := List.mem_of_getElem? hj
    have hx' := AggregateRequest.names_of_crossed hx
    exact ⟨j, hmem, hpath, fun hnames => h.traced.of_names hnames hroot hmem hx' hpath⟩
  case apart =>
    rw [h.select_apart ht hm]
    exact ⟨rfl, t.condition, ht.yields, rfl⟩
  case together =>
    rw [h.select_together ht hm]
    exact ⟨rfl, t.condition, ht.yields, rfl⟩
  case once =>
    obtain ⟨joins, hsource, hjoins⟩ := h.joins_select ht
    have htarget := h.one_of_target hnames hroot hone
    -- a condition that stays with the target does not multiply the records
    have hmany : ∀ j ∈ joins, j.many = false := by
      intro j hj
      rcases hjoins j hj with hj | ⟨hj, hm⟩
      · exact htarget j hj
      · by_contra hmany
        exact hm ⟨htarget, j, hj, by simpa using hmany⟩
    have hmem : ∀ j ∈ joins, j ∈ c.draft.plan.joins := by
      intro j hj
      rcases hjoins j hj with hj | ⟨hj, -⟩
      · exact (JoinPlan.mem_joinsOf.mp hj).1
      · exact (JoinPlan.mem_joinsOf.mp hj).1
    rw [hsource]
    refine ⟨hmany, fun db hdb => Source.rows_root (fun j hj => hdb j hj (hmany j hj)) fun j hj => ?_⟩
    exact h.aliases_ne halias (hmem j hj)

end
end CompiledParts

/-- Aggregates are isolated: what one is computed over depends on the joins of its own target and condition. -/
theorem FindPlan.compile_isolated {catalog : Catalog} {table : String} {request : FindRequest}
    {options : CompileOptions} {p : FindPlan} (h : compile catalog table request options = .ok p) :
    ∃ s counts aggregates c, setting catalog table options = .ok s ∧
      CountMode.ofText request.counts = .ok counts ∧ AggregateRequest.ofJson request.aggregate = .ok aggregates ∧
      CompiledParts.compile s request aggregates = .ok c ∧
      p = c.plan s counts (Window.ofPage request.page request.limit options.defaultLimit) ∧
      (c.draft.plan.joins.map (·.path)).Nodup ∧
      List.Forall₂ (c.Isolated s) aggregates ((p.aggregate.map (·.parts)).getD []) := by
  obtain ⟨counts, aggregates, s, c, hcounts, haggs, hsetting, hc, rfl⟩ := compile_eq_ok.mp h
  obtain ⟨hcheck, root, htable, rfl⟩ := setting_eq_ok.mp hsetting
  have hroot : root ∈ catalog.tables := Catalog.mem_of_table? htable
  have hplaced := CompiledParts.compile_placed hroot hc
  refine ⟨_, counts, aggregates, c, hsetting, hcounts, haggs, hc, rfl, hplaced.regular.indexed.distinct, ?_⟩
  show List.Forall₂ _ aggregates (((c.aggregateQuery _).map (·.parts)).getD [])
  rw [CompiledParts.parts_aggregateQuery, List.forall₂_map_right_iff]
  exact hplaced.terms.imp fun r t ht => hplaced.isolated ht hroot (CompileOptions.aliasFault?_of_check hcheck)

/-- A filter and two aggregates, the first under a condition, all of which reach the tags. -/
def FindRequest.tallied : FindRequest :=
  { FindRequest.all with
    filter := .obj [("tags", .obj [("label", .str "x")])]
    aggregate := .obj [
      ("max", .obj [("field", .str "author.id"),
        ("condition", .obj [("tags", .obj [("id", .obj [("gt", .int 3)])])])]),
      ("count", .str "tags")] }

theorem compile_isolated_blog :
    ∃ p c r₁ r₂ a₁ a₂, FindPlan.compile .blog "posts" .tallied .standard = .ok p ∧
      AggregateRequest.ofJson FindRequest.tallied.aggregate = .ok [r₁, r₂] ∧
      CompiledParts.compile .blog .tallied [r₁, r₂] = .ok c ∧ (p.aggregate.map (·.parts)).getD [] = [a₁, a₂] ∧
      c.Isolated .blog r₁ a₁ ∧ c.Isolated .blog r₂ a₂ ∧
      a₁.source.joins.map (·.path) = ["author"] ∧ a₂.source.joins.map (·.path) = ["tags"] ∧
      ∀ db : Database, (∀ j ∈ a₁.source.joins, j.Functional db) →
        (a₁.source.rows db).map (· a₁.source.tableAlias) = db.rows a₁.source.table := by
  obtain ⟨p, hp⟩ := exists_eq_ok (x := FindPlan.compile .blog "posts" .tallied .standard) (by decide +kernel)
  have hpaths : (FindPlan.compile .blog "posts" .tallied .standard).toOption.map (fun p =>
      ((p.aggregate.map (·.parts)).getD []).map fun a => a.source.joins.map (·.path)) =
        some [["author"], ["tags"]] := by
    decide +kernel
  have htargets : (AggregateRequest.ofJson FindRequest.tallied.aggregate).toOption.map (fun rs =>
      rs.map fun r => (r.targetCrossed .blog).map (·.relation.isMany)) = some [[false], [true]] := by
    decide +kernel
  have hlegible : Catalog.blog.Legible := by
    unfold Catalog.Legible Legible
    decide +kernel
  obtain ⟨s, counts, aggregates, c, hsetting, -, haggs, hc, -, -, hisolated⟩ := FindPlan.compile_isolated hp
  obtain rfl : Setting.blog = s := Except.ok.inj (FindPlan.setting_blog.symm.trans hsetting)
  rw [hp] at hpaths
  rw [haggs] at htargets
  obtain ⟨r₁, rs, rfl, hone, hrs⟩ := List.map_eq_cons_iff.mp (Option.some.inj htargets)
  obtain ⟨r₂, rs, rfl, -, hrs⟩ := List.map_eq_cons_iff.mp hrs
  obtain rfl := List.map_eq_nil_iff.mp hrs
  obtain ⟨a₁, as, hparts, ha₁, has⟩ := List.map_eq_cons_iff.mp (Option.some.inj hpaths)
  obtain ⟨a₂, as, rfl, ha₂, has⟩ := List.map_eq_cons_iff.mp has
  obtain rfl := List.map_eq_nil_iff.mp has
  rw [hparts] at hisolated
  obtain ⟨hfirst, hisolated⟩ := List.forall₂_cons.mp hisolated
  obtain ⟨hsecond, -⟩ := List.forall₂_cons.mp hisolated
  obtain ⟨-, honce⟩ := hfirst.once hlegible fun x hx => by
    have hmem : x.relation.isMany ∈ [false] := hone ▸ List.mem_map_of_mem hx
    exact List.mem_singleton.mp hmem
  exact ⟨p, c, r₁, r₂, a₁, a₂, hp, haggs, hc, hparts, hfirst, hsecond, ha₁, ha₂,
    fun db hdb => honce db fun j hj _ => hdb j hj⟩

/-! ### Illegible names

The path of a relation without a name is that of its own table, and a name with a dot is the path of a chain of two. A
filter that names such relations joins them in the place of others, and the aggregates over the others find these
joins. -/

/-- The paths `x` and `z.y` of `a` name to-one relations, and are those of to-many relations as well. -/
def Catalog.illegible : Catalog where
  tables :=
    [{ Table.start "a" with
        columns := [⟨"id", .int, false⟩, ⟨"bId", .int, true⟩]
        relations :=
          [.direct "" .one "b" "bId" "id", .direct "x" .one "c" "id" "id", .direct "z" .one "c" "id" "id",
            .direct "z.y" .many "d" "id" "aId"] },
      (Table.start "b").addRelation (.direct "x" .many "d" "id" "bId"),
      ((Table.start "c").addColumn "v" .int false).addRelation (.direct "y" .one "c" "v" "id"),
      (((Table.start "d").addColumn "aId" .int true).addColumn "bId" .int true).addColumn "v" .int false]
  sound := by decide +kernel

/-- Aggregates over the to-one relations, and a filter on the to-many ones. -/
def FindRequest.mistaken : FindRequest :=
  { FindRequest.all with
    fields := ["id"]
    filter := .obj [("", .obj [("x", .obj [("v", .int 1)])]), ("z.y", .obj [("v", .int 1)])]
    aggregate := .obj [("sum", .arr [.str "x.v", .str "z.y.v"])] }

/-- The targets cross to-one relations only, and yet each FROM clause has a to-many join of the filter. -/
theorem not_compile_isolated_illegible :
    ∃ p s aggregates parts, FindPlan.compile .illegible "a" .mistaken .standard = .ok p ∧
      FindPlan.setting .illegible "a" .standard = .ok s ∧
      AggregateRequest.ofJson FindRequest.mistaken.aggregate = .ok aggregates ∧ aggregates.length = 2 ∧
      (p.aggregate.map (·.parts)) = some parts ∧ parts.length = 2 ∧
      (∀ r ∈ aggregates, ∀ x ∈ r.targetCrossed s, x.relation.isMany = false) ∧
      ∀ a ∈ parts, ∃ j ∈ a.source.joins, j.many = true := by
  obtain ⟨p, hp⟩ := exists_eq_ok (x := FindPlan.compile .illegible "a" .mistaken .standard) (by decide +kernel)
  obtain ⟨s, hs⟩ := exists_eq_ok (x := FindPlan.setting .illegible "a" .standard) (by decide +kernel)
  obtain ⟨rs, hrs⟩ := exists_eq_ok (x := AggregateRequest.ofJson FindRequest.mistaken.aggregate) (by decide +kernel)
  have hjoins : (FindPlan.compile .illegible "a" .mistaken .standard).toOption.map (fun p =>
      p.aggregate.map fun q => q.parts.map fun a => a.source.joins.any (·.many)) = some (some [true, true]) := by
    decide +kernel
  have htargets : (FindPlan.setting .illegible "a" .standard).toOption.map (fun s =>
      (AggregateRequest.ofJson FindRequest.mistaken.aggregate).toOption.map (·.map fun r =>
        (r.targetCrossed s).any (·.relation.isMany))) = some (some [false, false]) := by
    decide +kernel
  rw [hp] at hjoins
  rw [hs, hrs] at htargets
  obtain ⟨q, hq, hmany⟩ := Option.map_eq_some_iff.mp (Option.some.inj hjoins)
  have hone : rs.map (fun r => (r.targetCrossed s).any (·.relation.isMany)) = [false, false] :=
    Option.some.inj (Option.some.inj htargets)
  have hlength := congrArg List.length hone
  have hlength' := congrArg List.length hmany
  rw [List.length_map] at hlength hlength'
  refine ⟨p, s, rs, q.parts, hp, hs, hrs, hlength, by rw [hq]; rfl, hlength', fun r hr x hx => ?_, fun a ha => ?_⟩
  · have hmem : (r.targetCrossed s).any (·.relation.isMany) ∈ [false, false] := hone ▸ List.mem_map_of_mem hr
    simpa using List.any_eq_false.mp (show (r.targetCrossed s).any (·.relation.isMany) = false by simpa using hmem) x hx
  · have hmem : a.source.joins.any (·.many) ∈ [true, true] := hmany ▸ List.mem_map_of_mem ha
    exact List.any_eq_true.mp (show a.source.joins.any (·.many) = true by simpa using hmem)

end RecordService
