import RecordService.Proofs.Plan.Reported
import RecordService.Proofs.Request.Pruned

/-! # Dropped parts leave no trace

A request compiles to the same plan without the parts that are dropped from it: they plan no join, give out no alias
and leave no condition. Two things qualify this. `*` below a column of a related table is dropped after the joins to
that table are planned, and these stay (`Setting.strands`). And an object that is left with one clause of several is no
group any more, and loses the parentheses of one, which are redundant then (`Condition.bare`). -/

namespace RecordService

/-! ### Redundant parentheses -/

namespace Condition

/-- A group, unless it has only one part. -/
def regroup (c : Sql.Connective) : List Condition → Condition
  | [part] => part
  | parts => .group c parts

mutual

/-- The condition with every group of one part replaced by the part. -/
def bare : Condition → Condition
  | test t => .test t
  | group c parts => regroup c (bareAll parts)
  | not part => .not part.bare

def bareAll : List Condition → List Condition
  | [] => []
  | part :: rest => part.bare :: bareAll rest

end

theorem bareAll_eq (parts : List Condition) : bareAll parts = parts.map bare := by
  induction parts with
  | nil => rfl
  | cons part rest ih => rw [bareAll, ih, List.map_cons]

end Condition

/-- The same as `a` but for what `bare` removes; the very same, if `tight`. -/
def Resembles {α : Type} (bare : α → α) (tight : Prop) (a b : α) : Prop :=
  bare b = bare a ∧ (tight → b = a)

namespace Resembles

variable {α β : Type} {bare : α → α} {bare' : β → β} {tight : Prop} {a b : α}

theorem refl (a : α) : Resembles bare tight a a :=
  ⟨rfl, fun _ => rfl⟩

/-- What is made of things that resemble each other, if it can be made of what is left of them. -/
theorem map {f g : α → β} (hf : ∀ x, bare' (f x) = g (bare x)) (h : Resembles bare tight a b) :
    Resembles bare' tight (f a) (f b) :=
  ⟨by rw [hf, hf, h.1], fun ht => by rw [h.2 ht]⟩

end Resembles

namespace Condition

variable {tight : Prop} {parts parts' more more' : List Condition}

theorem resembles_append (h : Resembles bareAll tight parts parts') (h' : Resembles bareAll tight more more') :
    Resembles bareAll tight (parts ++ more) (parts' ++ more') := by
  refine ⟨?_, fun ht => by rw [h.2 ht, h'.2 ht]⟩
  have hparts := h.1
  have hmore := h'.1
  simp only [bareAll_eq, List.map_append] at hparts hmore ⊢
  rw [hparts, hmore]

theorem resembles_group (c : Sql.Connective) (h : Resembles bareAll tight parts parts') :
    Resembles bareAll tight (Filter.groupOf c parts).toList (Filter.groupOf c parts').toList := by
  refine h.map (f := fun parts => (Filter.groupOf c parts).toList)
    (g := fun parts => (if parts.isEmpty then none else some (regroup c parts)).toList) fun parts => ?_
  cases parts with
  | nil => rfl
  | cons => rfl

theorem resembles_not {part part' : Option Condition} (h : Resembles bareAll tight part.toList part'.toList) :
    Resembles bareAll tight (part.map .not).toList (part'.map .not).toList := by
  have hmap (part : Option Condition) : (part.map Condition.not).toList = part.toList.map .not := by
    cases part <;> rfl
  rw [hmap, hmap]
  refine h.map (f := List.map Condition.not) (g := List.map Condition.not) fun parts => ?_
  simp only [bareAll_eq, List.map_map]
  rfl

/-- A group is what is left of it when only one part is. -/
theorem resembles_alone {c : Sql.Connective} {part : Option Condition} (ht : ¬tight)
    (h : Resembles bareAll tight parts part.toList) :
    Resembles bareAll tight (Filter.groupOf c parts).toList part.toList := by
  refine ⟨?_, fun htight => absurd htight ht⟩
  have hgroup : Resembles bareAll False _ _ := resembles_group c ⟨h.1, nofun⟩
  rw [← hgroup.1]
  cases part with
  | none => rfl
  | some part => rfl

end Condition

/-! ### Plans without redundant parentheses -/

def SemiJoin.bare (j : SemiJoin) : SemiJoin :=
  { j with conditions := Condition.bareAll j.conditions }

def Paging.bare : Paging → Paging
  | rows window => .rows window
  | keys page => .keys { page with filter := Condition.bareAll page.filter }

def RowQuery.bare (q : RowQuery) : RowQuery :=
  { q with filter := Condition.bareAll q.filter, paging := q.paging.bare }

def CountQuery.bare : CountQuery → CountQuery
  | all table => .all table
  | filtered key source filter => .filtered key source (Condition.bareAll filter)

def RowChoice.bare : RowChoice → RowChoice
  | meeting conditions => .meeting (Condition.bareAll conditions)
  | within records => .within records.bare

def AggregateSelect.bare (a : AggregateSelect) : AggregateSelect :=
  { a with rows := a.rows.bare, records := a.records.map SemiJoin.bare }

def AggregateQuery.bare (q : AggregateQuery) : AggregateQuery :=
  ⟨q.parts.map AggregateSelect.bare⟩

/-- The plan with every group of one part replaced by the part, in all its queries. -/
def FindPlan.bare (p : FindPlan) : FindPlan :=
  { p with
    data := p.data.bare
    totalCount := p.totalCount.map CountQuery.bare
    filterCount := p.filterCount.map CountQuery.bare
    aggregate := p.aggregate.map AggregateQuery.bare }

def AggregateTerm.bare (t : AggregateTerm) : AggregateTerm :=
  { t with condition := Condition.bareAll t.condition }

namespace CompiledParts

def bare (c : CompiledParts) : CompiledParts :=
  { c with filter := Condition.bareAll c.filter, aggregates := c.aggregates.map AggregateTerm.bare }

variable (c : CompiledParts) (s : Setting)

theorem isEmpty_bareAll (parts : List Condition) : (Condition.bareAll parts).isEmpty = parts.isEmpty := by
  cases parts <;> rfl

theorem bare_rowQuery (window : Window) : (c.rowQuery s window).bare = c.bare.rowQuery s window := by
  simp only [rowQuery, RowQuery.bare]
  by_cases h : (window.limit.isSome && c.draft.plan.hasMany .forRows) = true
  · rw [if_pos h, if_pos (show (window.limit.isSome && c.bare.draft.plan.hasMany .forRows) = true from h)]
    rfl
  · rw [if_neg h, if_neg (show ¬(window.limit.isSome && c.bare.draft.plan.hasMany .forRows) = true from h)]
    rfl

theorem bare_filtered : (c.filtered s).map SemiJoin.bare = c.bare.filtered s := by
  unfold filtered
  rw [show c.bare.filter = Condition.bareAll c.filter from rfl, isEmpty_bareAll]
  cases c.filter.isEmpty <;> rfl

theorem bare_aggregateSelect (t : AggregateTerm) : (c.aggregateSelect s t).bare = c.bare.aggregateSelect s t.bare := by
  unfold aggregateSelect
  rw [show t.bare.condition = Condition.bareAll t.condition from rfl, isEmpty_bareAll, ← bare_filtered]
  by_cases h : (!t.condition.isEmpty && !c.draft.plan.anyMany t.targetJoins &&
      c.draft.plan.anyMany t.conditionJoins) = true
  · exact (congrArg _ (if_pos h)).trans (if_pos h).symm
  · exact (congrArg _ (if_neg h)).trans (if_neg h).symm

theorem bare_aggregateQuery : (c.aggregateQuery s).map AggregateQuery.bare = c.bare.aggregateQuery s := by
  unfold aggregateQuery
  rw [show c.bare.aggregates = c.aggregates.map AggregateTerm.bare from rfl, List.isEmpty_map]
  cases c.aggregates.isEmpty with
  | true => rfl
  | false =>
    refine congrArg (fun parts => some (AggregateQuery.mk parts)) ?_
    rw [List.map_map, List.map_map]
    exact List.map_congr_left fun t _ => c.bare_aggregateSelect s t

/-- What is redundant in a plan is redundant in its parts. -/
theorem bare_plan (counts : CountMode) (window : Window) :
    (c.plan s counts window).bare = c.bare.plan s counts window := by
  have htotal : ((if counts.total then some (CountQuery.all s.root.name) else none).map CountQuery.bare) =
      if counts.total then some (.all s.root.name) else none := by
    cases counts.total <;> rfl
  have hfiltered : ((if counts.filtered then some (c.countQuery s) else none).map CountQuery.bare) =
      if counts.filtered then some (c.bare.countQuery s) else none := by
    cases counts.filtered <;> rfl
  simp only [plan, FindPlan.bare, bare_rowQuery, bare_aggregateQuery, htotal, hfiltered]
  rfl

end CompiledParts

/-! ### Filters -/

namespace Filter

variable {s : Setting} {usage : Usage} {tight : Prop}

mutual

/-- A node all of whose leaves lead nowhere compiles to nothing. -/
theorem compile_lost : ∀ {node : Filter} {d d' : Draft} {c : Option Condition},
    (∀ p ∈ node.leaves, s.loses p.path = true) → node.compile s usage d = .ok (c, d') →
      c = none ∧ d'.plan = d.plan
  | all children, d, d', c, hlost, h => by
    obtain ⟨parts, hparts, rfl⟩ := compile_all_eq_ok.mp h
    obtain ⟨rfl, hplan⟩ := compileAll_lost hlost hparts
    exact ⟨rfl, hplan⟩
  | any children, d, d', c, hlost, h => by
    obtain ⟨parts, hparts, rfl⟩ := compile_any_eq_ok.mp h
    obtain ⟨rfl, hplan⟩ := compileAll_lost hlost hparts
    exact ⟨rfl, hplan⟩
  | not child, d, d', c, hlost, h => by
    simp only [leaves] at hlost
    obtain ⟨part, hpart, rfl⟩ := compile_not_eq_ok.mp h
    obtain ⟨rfl, hplan⟩ := compile_lost hlost hpart
    exact ⟨rfl, hplan⟩
  | leaf p, d, d', c, hlost, h => by
    obtain ⟨test, htest, rfl⟩ := compile_leaf_eq_ok.mp h
    rw [Predicate.compile_eq] at htest
    obtain ⟨rfl, hplan⟩ := Setting.resolveThen_lost (hlost p (List.mem_singleton.mpr rfl)) htest
    exact ⟨rfl, hplan⟩

theorem compileAll_lost : ∀ {nodes : List Filter} {d d' : Draft} {parts : List Condition},
    (∀ p ∈ leavesOfAll nodes, s.loses p.path = true) → compileAll s usage nodes d = .ok (parts, d') →
      parts = [] ∧ d'.plan = d.plan
  | [], d, d', parts, _, h => by
    obtain ⟨rfl, rfl⟩ := compileAll_nil_eq_ok.mp h
    exact ⟨rfl, rfl⟩
  | node :: rest, d, d', parts, hlost, h => by
    simp only [leavesOfAll, List.mem_append] at hlost
    obtain ⟨c, d₁, more, hnode, hrest, rfl⟩ := compileAll_cons_eq_ok.mp h
    obtain ⟨rfl, hplan₁⟩ := compile_lost (fun p hp => hlost p (Or.inl hp)) hnode
    obtain ⟨rfl, hplan₂⟩ := compileAll_lost (fun p hp => hlost p (Or.inr hp)) hrest
    exact ⟨rfl, hplan₂.trans hplan₁⟩

end

mutual

/-- A node less some dropped leaves compiles to the same condition, on any draft with the same plan. -/
theorem Pruned.compile : ∀ {f g : Filter} {d d' d₁ : Draft} {c : Option Condition},
    Pruned (s.loses ·) tight f g → d'.plan = d.plan → f.compile s usage d = .ok (c, d₁) →
      ∃ c' d₁', g.compile s usage d' = .ok (c', d₁') ∧ d₁'.plan = d₁.plan ∧
        Resembles Condition.bareAll tight c.toList c'.toList
  | f, _, d, d', d₁, c, .same, hplan, h => by
    obtain ⟨d₁', h', hplan'⟩ := (compile_adds f).again h hplan
    exact ⟨c, d₁', h', hplan', .refl _⟩
  | _, _, d, d', d₁, c, .all hab, hplan, h => by
    obtain ⟨parts, hparts, rfl⟩ := compile_all_eq_ok.mp h
    obtain ⟨parts', d₁', hparts', hplan', hsame⟩ := hab.compileAll hplan hparts
    exact ⟨_, d₁', compile_all_eq_ok.mpr ⟨parts', hparts', rfl⟩, hplan', Condition.resembles_group _ hsame⟩
  | _, _, d, d', d₁, c, .any hab, hplan, h => by
    obtain ⟨parts, hparts, rfl⟩ := compile_any_eq_ok.mp h
    obtain ⟨parts', d₁', hparts', hplan', hsame⟩ := hab.compileAll hplan hparts
    exact ⟨_, d₁', compile_any_eq_ok.mpr ⟨parts', hparts', rfl⟩, hplan', Condition.resembles_group _ hsame⟩
  | _, _, d, d', d₁, c, .not hab, hplan, h => by
    obtain ⟨part, hpart, rfl⟩ := compile_not_eq_ok.mp h
    obtain ⟨part', d₁', hpart', hplan', hsame⟩ := hab.compile hplan hpart
    exact ⟨_, d₁', compile_not_eq_ok.mpr ⟨part', hpart', rfl⟩, hplan', Condition.resembles_not hsame⟩
  | _, _, d, d', d₁, c, .alone ht hab, hplan, h => by
    obtain ⟨parts, hparts, rfl⟩ := compile_all_eq_ok.mp h
    obtain ⟨parts', d₁', hparts', hplan', hsame⟩ := hab.compileAll hplan hparts
    obtain ⟨c', d₂, more, hnode, hrest, rfl⟩ := compileAll_cons_eq_ok.mp hparts'
    obtain ⟨rfl, rfl⟩ := compileAll_nil_eq_ok.mp hrest
    rw [List.append_nil] at hsame
    exact ⟨c', d₁', hnode, hplan', Condition.resembles_alone ht hsame⟩

theorem PrunedAll.compileAll : ∀ {fs gs : List Filter} {d d' d₁ : Draft} {parts : List Condition},
    PrunedAll (s.loses ·) tight fs gs → d'.plan = d.plan → compileAll s usage fs d = .ok (parts, d₁) →
      ∃ parts' d₁', compileAll s usage gs d' = .ok (parts', d₁') ∧ d₁'.plan = d₁.plan ∧
        Resembles Condition.bareAll tight parts parts'
  | _, _, d, d', d₁, parts, .nil, hplan, h => by
    obtain ⟨rfl, rfl⟩ := compileAll_nil_eq_ok.mp h
    exact ⟨[], d', compileAll_nil_eq_ok.mpr ⟨rfl, rfl⟩, hplan, .refl _⟩
  | _, _, d, d', d₁, parts, .cons hab hrest, hplan, h => by
    obtain ⟨c, d₂, more, hnode, hmore, rfl⟩ := compileAll_cons_eq_ok.mp h
    obtain ⟨c', d₂', hnode', hplan₂, hsame₂⟩ := hab.compile hplan hnode
    obtain ⟨more', d₁', hmore', hplan₁, hsame₁⟩ := hrest.compileAll hplan₂ hmore
    exact ⟨_, d₁', compileAll_cons_eq_ok.mpr ⟨c', d₂', more', hnode', hmore', rfl⟩, hplan₁,
      Condition.resembles_append hsame₂ hsame₁⟩
  | _, _, d, d', d₁, parts, .drop hlost hrest, hplan, h => by
    obtain ⟨c, d₂, more, hnode, hmore, rfl⟩ := compileAll_cons_eq_ok.mp h
    obtain ⟨rfl, hplan₂⟩ := compile_lost hlost hnode
    exact hrest.compileAll (hplan.trans hplan₂.symm) hmore

end

end Filter

/-- A filter document less some dropped clauses compiles to the same conditions. -/
theorem DocumentPruned.compileJson {s : Setting} {usage : Usage} {tight : Prop} {a b : Json} {d d' d₁ : Draft}
    {parts : List Condition} (h : DocumentPruned (s.loses ·) tight a b) (hplan : d'.plan = d.plan)
    (ha : Filter.compileJson s usage a d = .ok (parts, d₁)) :
    ∃ parts' d₁', Filter.compileJson s usage b d' = .ok (parts', d₁') ∧ d₁'.plan = d₁.plan ∧
      Resembles Condition.bareAll tight parts parts' := by
  obtain ⟨ms, hms, ha⟩ := bind_eq_ok.mp ha
  obtain ⟨ns, hns, hpruned⟩ := h.ofJson hms
  obtain ⟨parts', d₁', hb, hrest⟩ := hpruned.compileAll hplan ha
  exact ⟨parts', d₁', bind_eq_ok.mpr ⟨ns, hns, hb⟩, hrest⟩

/-! ### Fields and sort keys -/

namespace Projection

variable {s : Setting} {fields fields' : List Path} {d d' d₁ : Draft}

theorem addPaths_thinned {p q : Projection}
    (h : Thinned (fun path => s.losesField path = true ∧ s.strands path = false) fields fields')
    (hplan : d'.plan = d.plan) (hfields : addPaths s fields p d = .ok (q, d₁)) :
    ∃ d₁', addPaths s fields' p d' = .ok (q, d₁') ∧ d₁'.plan = d₁.plan := by
  induction h generalizing p d d' with
  | nil =>
    cases hfields
    exact ⟨d', rfl, hplan⟩
  | keep _ ih =>
    obtain ⟨⟨p₁, d₂⟩, hpath, hrest⟩ := bind_eq_ok.mp hfields
    obtain ⟨d₂', hpath', hplan₂⟩ := (addPath_adds _ p).again hpath hplan
    obtain ⟨d₁', hrest', hplan₁⟩ := ih hplan₂ hrest
    exact ⟨d₁', bind_eq_ok.mpr ⟨_, hpath', hrest'⟩, hplan₁⟩
  | drop hlost _ ih =>
    obtain ⟨⟨p₁, d₂⟩, hpath, hrest⟩ := bind_eq_ok.mp hfields
    obtain ⟨rfl, hplan₂⟩ := eq_of_addPath hlost.1 hlost.2 hpath
    exact ih (hplan.trans hplan₂.symm) hrest

theorem ofFields_thinned {p : Projection}
    (h : Thinned (fun path => s.losesField path = true ∧ s.strands path = false) fields fields')
    (hne : fields ≠ [] → fields' ≠ []) (hplan : d'.plan = d.plan) (hfields : ofFields s fields d = .ok (p, d₁)) :
    ∃ d₁', ofFields s fields' d' = .ok (p, d₁') ∧ d₁'.plan = d₁.plan := by
  cases fields with
  | nil =>
    cases h
    exact (ofFields_adds []).again hfields hplan
  | cons path rest =>
    obtain ⟨q, hq, rfl⟩ := ofFields_eq_ok.mp hfields
    obtain ⟨d₁', hq', hplan'⟩ := addPaths_thinned h hplan hq
    refine ⟨d₁', ofFields_eq_ok.mpr ⟨q, ?_, rfl⟩, hplan'⟩
    rw [List.isEmpty_eq_false_iff.mpr (hne (List.cons_ne_nil path rest)), hplan]
    exact hq'

end Projection

namespace SortKey

variable {s : Setting} {terms terms' : List SortTerm} {d d' d₁ : Draft} {keys own : List SortKey}

theorem compileAll_thinned (h : Thinned (fun t : SortTerm => s.loses t.path = true) terms terms')
    (hplan : d'.plan = d.plan) (hterms : compileAll s terms own d = .ok (keys, d₁)) :
    ∃ d₁', compileAll s terms' own d' = .ok (keys, d₁') ∧ d₁'.plan = d₁.plan := by
  induction h generalizing own d d' with
  | nil =>
    cases hterms
    exact ⟨d', rfl, hplan⟩
  | keep _ ih =>
    obtain ⟨column, d₂, hterm, hrest⟩ := compileAll_cons_eq_ok.mp hterms
    obtain ⟨d₂', hterm', hplan₂⟩ := (SortTerm.compile_adds _).again hterm hplan
    obtain ⟨d₁', hrest', hplan₁⟩ := ih hplan₂ hrest
    exact ⟨d₁', compileAll_cons_eq_ok.mpr ⟨column, d₂', hterm', hrest'⟩, hplan₁⟩
  | drop hlost _ ih =>
    obtain ⟨column, d₂, hterm, hrest⟩ := compileAll_cons_eq_ok.mp hterms
    rw [SortTerm.compile_eq] at hterm
    obtain ⟨rfl, hplan₂⟩ := Setting.resolveThen_lost hlost hterm
    exact ih (hplan.trans hplan₂.symm) hrest

theorem listOf_thinned (h : Thinned (fun t : SortTerm => s.loses t.path = true) terms terms')
    (hplan : d'.plan = d.plan) (hterms : listOf s terms d = .ok (keys, d₁)) :
    ∃ d₁', listOf s terms' d' = .ok (keys, d₁') ∧ d₁'.plan = d₁.plan := by
  obtain ⟨own, hown, rfl⟩ := listOf_eq_ok.mp hterms
  obtain ⟨d₁', hown', hplan'⟩ := compileAll_thinned h hplan hown
  exact ⟨d₁', listOf_eq_ok.mpr ⟨own, hown', by rw [hplan']⟩, hplan'⟩

end SortKey

/-! ### Aggregates -/

namespace AggregateRequest

variable {s : Setting} {tight : Prop}

/-- The target of an aggregate is that of its function and path. -/
theorem Pruned.target {lost : Path → Prop} {a b : AggregateRequest} (h : Pruned lost tight a b) (plan : JoinPlan) :
    b.target s plan = a.target s plan := by
  unfold AggregateRequest.target ofRecords
  rw [h.function, h.path]

theorem Pruned.compile {a b : AggregateRequest} {d d' d₁ : Draft} {t : AggregateTerm}
    (h : Pruned (s.loses ·) tight a b) (hplan : d'.plan = d.plan) (ha : a.compile s d = .ok (t, d₁)) :
    ∃ t' d₁', b.compile s d' = .ok (t', d₁') ∧ d₁'.plan = d₁.plan ∧ Resembles AggregateTerm.bare tight t t' := by
  obtain ⟨call, plan, condition, d₂, htarget, hcondition, rfl, rfl⟩ := compile_eq_ok.mp ha
  have hstart : (⟨plan.recorded.2.record, d'.skipped⟩ : Draft).plan =
      (⟨plan.recorded.2.record, d.skipped⟩ : Draft).plan := rfl
  obtain ⟨condition', d₂', hcondition', hplan₂, hsame⟩ := h.condition.compileJson hstart hcondition
  rw [← hplan, ← h.target] at htarget
  refine ⟨_, _, compile_eq_ok.mpr ⟨call, plan, condition', d₂', htarget, hcondition', rfl, rfl⟩, ?_, ?_⟩
  · rw [hplan₂]
  · rw [hplan₂, h.label]
    let term (condition : List Condition) : AggregateTerm :=
      ⟨call, condition, a.label, plan.recorded.1, d₂.plan.recorded.1⟩
    exact hsame.map (f := term) (g := term) fun _ => rfl

theorem compileAll_pruned : ∀ {as bs : List AggregateRequest} {d d' d₁ : Draft} {ts : List AggregateTerm},
    List.Forall₂ (Pruned (s.loses ·) tight) as bs → d'.plan = d.plan → compileAll s as d = .ok (ts, d₁) →
      ∃ ts' d₁', compileAll s bs d' = .ok (ts', d₁') ∧ d₁'.plan = d₁.plan ∧
        Resembles (List.map AggregateTerm.bare) tight ts ts'
  | _, _, d, d', d₁, ts, .nil, hplan, h => by
    cases h
    exact ⟨[], d', rfl, hplan, .refl _⟩
  | _, _, d, d', d₁, ts, .cons hab hrest, hplan, h => by
    obtain ⟨t, d₂, more, hterm, hmore, rfl⟩ := compileAll_cons_eq_ok.mp h
    obtain ⟨t', d₂', hterm', hplan₂, hsame⟩ := hab.compile hplan hterm
    obtain ⟨more', d₁', hmore', hplan₁, hsames⟩ := compileAll_pruned hrest hplan₂ hmore
    refine ⟨_, d₁', compileAll_cons_eq_ok.mpr ⟨t', d₂', more', hterm', hmore', rfl⟩, hplan₁, ?_,
      fun ht => by rw [hsame.2 ht, hsames.2 ht]⟩
    rw [List.map_cons, List.map_cons, hsame.1, hsames.1]

end AggregateRequest

/-! ### Plans -/

/-- A request less some dropped parts compiles to the same parts. -/
theorem CompiledParts.compile_resembles {s : Setting} {tight : Prop} {a b : FindRequest} {as bs : List AggregateRequest}
    {c : CompiledParts}
    (h : a.Pruned (fun path => s.losesField path = true ∧ s.strands path = false) (s.loses ·) tight b)
    (haggs : List.Forall₂ (AggregateRequest.Pruned (s.loses ·) tight) as bs) (ha : compile s a as = .ok c) :
    ∃ c', compile s b bs = .ok c' ∧
      Resembles bare tight { c with draft := ⟨c.draft.plan, c'.draft.skipped⟩ } c' := by
  obtain ⟨projection, filter, sort, aggregates, draft⟩ := c
  obtain ⟨d₁, d₂, d₃, hproj, hfilter, hsort, haggregates⟩ := compile_eq_ok.mp ha
  obtain ⟨d₁', hproj', hplan₁⟩ := Projection.ofFields_thinned h.fields h.fields_ne_nil rfl hproj
  obtain ⟨filter', d₂', hfilter', hplan₂, hsame⟩ := h.filter.compileJson hplan₁ hfilter
  obtain ⟨d₃', hsort', hplan₃⟩ := SortKey.listOf_thinned h.sort hplan₂ hsort
  obtain ⟨aggregates', ⟨plan, skipped⟩, haggregates', rfl, hsames⟩ :=
    AggregateRequest.compileAll_pruned haggs hplan₃ haggregates
  refine ⟨⟨projection, filter', sort, aggregates', ⟨draft.plan, skipped⟩⟩,
    compile_eq_ok.mpr ⟨d₁', d₂', d₃', hproj', hfilter', hsort', haggregates'⟩, ?_, fun ht => ?_⟩
  · simp only [bare, hsame.1, hsames.1]
  · simp only [hsame.2 ht, hsames.2 ht]

/-- Without parts that are dropped from it, a request compiles to the same plan; only the dropped paths change, which
are those of the request. The plans are the same up to redundant parentheses, and the very same if every group of the
filters stays a group. A path of the field list may go if it is dropped and does not strand, any other part if its path
leads nowhere. -/
theorem FindPlan.compile_pruned {catalog : Catalog} {table : String} {a b : FindRequest} {options : CompileOptions}
    {s : Setting} {tight : Prop} {p : FindPlan} (hs : setting catalog table options = .ok s)
    (hpruned : a.Pruned (fun path => s.losesField path = true ∧ s.strands path = false) (s.loses ·) tight b)
    (h : FindPlan.compile catalog table a options = .ok p) :
    ∃ q, FindPlan.compile catalog table b options = .ok q ∧
      q.bare = { p with skipped := q.skipped }.bare ∧ (tight → q = { p with skipped := q.skipped }) ∧
      ∃ as bs, AggregateRequest.ofJson a.aggregate = .ok as ∧ p.skipped = a.reported s as ∧
        AggregateRequest.ofJson b.aggregate = .ok bs ∧ q.skipped = b.reported s bs := by
  obtain ⟨counts, as, s', c, hcounts, has, hs', hc, rfl⟩ := compile_eq_ok.mp h
  cases hs.symm.trans hs'
  obtain ⟨bs, hbs, haggs⟩ := hpruned.aggregates as has
  obtain ⟨c', hc', hsame⟩ := CompiledParts.compile_resembles hpruned haggs hc
  let plan (c : CompiledParts) : FindPlan := c.plan s counts (Window.ofPage a.page a.limit options.defaultLimit)
  have hplan := hsame.map (f := plan) (g := plan) fun c => c.bare_plan s counts _
  refine ⟨_, compile_eq_ok.mpr ⟨counts, bs, s, c', hpruned.counts ▸ hcounts, hbs, hs, hc', rfl⟩, ?_, ?_, as, bs, has,
    CompiledParts.skipped_compile hc, hbs, CompiledParts.skipped_compile hc'⟩
  · rw [hpruned.page, hpruned.limit]
    exact hplan.1
  · rw [hpruned.page, hpruned.limit]
    exact hplan.2

/-- The posts of the blog. -/
def Setting.blog : Setting :=
  ⟨.blog, (Catalog.blog.table? "posts").get (by decide +kernel), .standard⟩

/-- The sample with a field and a sort term that lead nowhere, besides such a filter leaf. -/
def FindRequest.littered : FindRequest :=
  { FindRequest.sample with fields := ["title, nowhere.*", "tags.label"], sort := ["nowhere", "-author.name"] }

/-- The sample without anything that leads nowhere. -/
def FindRequest.tidy : FindRequest :=
  { FindRequest.sample with
    filter := .obj [("author", .obj [("name", .obj [("contains", .str "x")])]),
      ("or", .arr [.obj [("open?", .bool true)], .obj [("tags", .obj [("_eq_set", .str "1, 2, 1")])]])] }

theorem FindPlan.setting_blog : setting .blog "posts" .standard = .ok .blog :=
  setting_eq_ok.mpr ⟨by decide +kernel, _, (Option.some_get _).symm, rfl⟩

theorem FindRequest.littered_pruned :
    littered.Pruned (fun path => Setting.blog.losesField path = true ∧ Setting.blog.strands path = false)
      (Setting.blog.loses ·) True tidy := by
  have hfields : Path.listOf littered.fields = [⟨["title"]⟩, ⟨["nowhere", "*"]⟩, ⟨["tags", "label"]⟩] := by
    decide +kernel
  have htidy : Path.listOf tidy.fields = [⟨["title"]⟩, ⟨["tags", "label"]⟩] := by decide +kernel
  have hsort : SortTerm.listOf littered.sort = [⟨⟨["nowhere"]⟩, false⟩, ⟨⟨["author", "name"]⟩, true⟩] := by
    decide +kernel
  have htidySort : SortTerm.listOf tidy.sort = [⟨⟨["author", "name"]⟩, true⟩] := by decide +kernel
  refine ⟨?_, fun _ => by simp [htidy], .entries (.keep (.drop (by decide +kernel) (.keep .nil))), ?_, fun as has => ?_,
    rfl, rfl, rfl⟩
  · rw [hfields, htidy]
    exact .keep (.drop (by decide +kernel) (.keep .nil))
  · rw [hsort, htidySort]
    exact .drop (by decide +kernel) (.keep .nil)
  · exact ⟨as, has, List.forall₂_same.mpr fun _ _ => ⟨rfl, rfl, rfl, .same⟩⟩

theorem compile_pruned_blog :
    ∃ p q, FindPlan.compile .blog "posts" .littered .standard = .ok p ∧
      FindPlan.compile .blog "posts" .tidy .standard = .ok q ∧
      p.skipped = ["nowhere.*", "nowhere", "nowhere"] ∧ q = { p with skipped := q.skipped } := by
  obtain ⟨p, hp⟩ := exists_eq_ok (x := FindPlan.compile .blog "posts" .littered .standard) (by decide +kernel)
  have hskipped : (FindPlan.compile .blog "posts" .littered .standard).toOption.map (·.skipped) =
      some ["nowhere.*", "nowhere", "nowhere"] := by
    decide +kernel
  obtain ⟨q, hq, -, hsame, -⟩ := FindPlan.compile_pruned FindPlan.setting_blog FindRequest.littered_pruned hp
  rw [hp] at hskipped
  exact ⟨p, q, hp, hq, Option.some.inj hskipped, hsame trivial⟩

-- Where one clause of several is left, its parentheses go.
example :
    (FindPlan.compile .blog "posts" { FindRequest.all with
        filter := .obj [("author", .obj [("name", .str "x"), ("nowhere", .int 1)])] } .standard).toOption.map
          (fun p => (Condition.renderAll p.data.filter).map (·.sql)) = some ["(\"j0\".\"name\" = ?)"] ∧
      (FindPlan.compile .blog "posts" { FindRequest.all with
        filter := .obj [("author", .obj [("name", .str "x")])] } .standard).toOption.map
          (fun p => (Condition.renderAll p.data.filter).map (·.sql)) = some ["\"j0\".\"name\" = ?"] := by
  decide +kernel

/-! ### A join that stays -/

/-- A path that strands, and a column. -/
def FindRequest.stranding : FindRequest :=
  { FindRequest.all with fields := ["author.name.*, title"] }

/-- The column alone. -/
def FindRequest.titles : FindRequest :=
  { FindRequest.all with fields := ["title"] }

theorem FindRequest.stranding_pruned :
    stranding.Pruned (fun path => Setting.blog.losesField path = true) (Setting.blog.loses ·) True titles := by
  have hfields : Path.listOf stranding.fields = [⟨["author", "name", "*"]⟩, ⟨["title"]⟩] := by decide +kernel
  have htitles : Path.listOf titles.fields = [⟨["title"]⟩] := by decide +kernel
  refine ⟨?_, fun _ => by simp [htitles], .same, .nil, fun as has => ⟨as, has, ?_⟩, rfl, rfl, rfl⟩
  · rw [hfields, htitles]
    exact .drop (by decide +kernel) (.keep .nil)
  · exact List.forall₂_same.mpr fun _ _ => ⟨rfl, rfl, rfl, .same⟩

/-- A path that strands is dropped, and the join to the authors stays. -/
theorem not_compile_pruned_stranding :
    FindRequest.stranding.Pruned (fun path => Setting.blog.losesField path = true) (Setting.blog.loses ·) True .titles ∧
      ∃ p q, FindPlan.compile .blog "posts" .stranding .standard = .ok p ∧
        FindPlan.compile .blog "posts" .titles .standard = .ok q ∧
        p.skipped = ["author.name.*"] ∧ p.data.source.joins.map (·.table) = ["authors"] ∧ q.data.source.joins = [] ∧
        p.data.statement ≠ q.data.statement := by
  obtain ⟨p, hp⟩ := exists_eq_ok (x := FindPlan.compile .blog "posts" .stranding .standard) (by decide +kernel)
  obtain ⟨q, hq⟩ := exists_eq_ok (x := FindPlan.compile .blog "posts" .titles .standard) (by decide +kernel)
  have hp' : (FindPlan.compile .blog "posts" .stranding .standard).toOption.map
      (fun p => (p.skipped, p.data.source.joins.map (·.table))) = some (["author.name.*"], ["authors"]) := by
    decide +kernel
  have hq' : (FindPlan.compile .blog "posts" .titles .standard).toOption.map (·.data.source.joins) = some [] := by
    decide +kernel
  have hdata : (FindPlan.compile .blog "posts" .stranding .standard).toOption.map (·.data.statement) ≠
      (FindPlan.compile .blog "posts" .titles .standard).toOption.map (·.data.statement) := by
    decide +kernel
  rw [hp] at hp' hdata
  rw [hq] at hq' hdata
  obtain ⟨hskipped, hjoins⟩ := Prod.mk.inj (Option.some.inj hp')
  exact ⟨FindRequest.stranding_pruned, p, q, hp, hq, hskipped, hjoins, Option.some.inj hq',
    fun heq => hdata (congrArg some heq)⟩

end RecordService
