import RecordService.Proofs.Plan.Crossings

/-! # Needed joins

The joins of a plan are those that its request needs, each for the parts that need it (`JoinPlan.Exact`): the relations
that the paths of the request cross. What `*` stands for is joined if it is to-one, and links that are only counted are
not joined. -/

namespace RecordService
open JoinPlan (Crosses Gains)

/-! ### What a part needs -/

/-- Whether an operator looks at the links of a relation and does not join it. -/
def Operator.looksAtLinks : Operator → Bool
  | count _ | eqSet => true
  | _ => false

/-- The relations that a predicate needs joined. -/
def Predicate.crossed (s : Setting) (p : Predicate) : List Crossing :=
  if p.op.looksAtLinks then (s.crossed p.path).dropLast else s.crossed p.path

/-- The to-one relations of a table at a dotted path. -/
def Catalog.toOnes (catalog : Catalog) (path : String) (table : Table) : List Crossing :=
  table.relations.filterMap fun r =>
    if r.isMany then none else (catalog.target? r).map fun target => ⟨extendPath path r.name, r, target⟩

/-- The relations that a path of the field list names. -/
def Setting.named (s : Setting) (path : Path) : List Crossing :=
  s.crossed (if path.isWildcard then path.parent else path)

/-- The to-one relations that a path of the field list stands for without naming them: those of the table at `*`. -/
def Setting.implied (s : Setting) (path : Path) : List Crossing :=
  if path.isWildcard then
    match (s.crossed path.parent).getLast? with
    | some x => s.catalog.toOnes x.path x.target
    | none => s.catalog.toOnes "" s.root
  else []

/-- The relations that an aggregate needs joined for its target. -/
def AggregateRequest.targetCrossed (s : Setting) (r : AggregateRequest) : List Crossing :=
  if r.ofRecords then [] else s.crossed r.path

/-- The relations that an aggregate needs joined. -/
def AggregateRequest.crossed (s : Setting) (r : AggregateRequest) : List Crossing :=
  r.targetCrossed s ++ r.predicates.flatMap (·.crossed s)

variable {s : Setting} {u : Usage} {plan plan' : JoinPlan} {d d' : Draft}

/-- A path that leads nowhere crosses nothing. -/
theorem Setting.crossed_of_lost {path : Path} (h : s.typeAt? path = none) : s.crossed path = [] := by
  unfold typeAt? Catalog.typeAt? at h
  unfold crossed
  cases hw : walk s.catalog s.root path.segments with
  | none => rfl
  | some steps =>
    rw [hw, Option.bind_some, Option.map_eq_none_iff, List.getLast?_eq_none_iff] at h
    rw [h]
    rfl

theorem Path.segments_parent {path : Path} {chain : List String} {name : String}
    (h : chain ++ [name] = path.segments) : path.parent.segments = chain := by
  rw [Path.parent, ← h]
  exact List.dropLast_concat

/-! ### Filters -/

namespace Predicate

variable {p : Predicate} {res : Resolved} {test : Test}

/-- A predicate on a column looks at no links. -/
theorem looksAtLinks_of_columnTest {column : Sql.ColumnRef} {type : ScalarType}
    (h : p.columnTest column type = .ok test) : p.op.looksAtLinks = false := by
  obtain ⟨path, op, operand⟩ := p
  cases op with
  | count c => cases operand <;> cases h
  | eqSet => cases operand <;> cases h
  | _ => rfl

theorem testOf_crosses (hfound : res.Found s plan u) (h : p.testOf u plan res = .ok (test, plan')) :
    plan.Crosses u (if p.op.looksAtLinks then [] else res.final) plan' := by
  cases res with
  | column hops tableAlias c =>
    obtain ⟨-, rfl⟩ := testOf_column_eq_ok.mp h
    simpa [Resolved.final] using Crosses.refl _
  | relation hops parentPath parentAlias parent r target =>
    rcases testOf_relation_eq_ok.mp h with ⟨c, hop, -, -, rfl⟩ | ⟨hop, -, -, rfl⟩ | ⟨hkeys, rfl⟩
    · rw [hop]
      exact .scratch plan
    · rw [hop]
      exact .scratch plan
    · rw [looksAtLinks_of_columnTest hkeys]
      cases hfound with
      | relation htrail _ _ => exact .join plan parentPath parentAlias r target htrail.known

/-- The hops of a predicate and what its test joins are the relations that it needs. -/
theorem crossings_testOf (h : p.testOf u plan res = .ok (test, plan')) :
    res.hops.map Hop.crossing ++ (if p.op.looksAtLinks then [] else res.final) =
      if p.op.looksAtLinks then res.crossings.dropLast else res.crossings := by
  cases hlinks : p.op.looksAtLinks with
  | false => rfl
  | true =>
    cases res with
    | column hops tableAlias c =>
      rw [looksAtLinks_of_columnTest (testOf_column_eq_ok.mp h).1] at hlinks
      cases hlinks
    | relation hops parentPath parentAlias parent r target =>
      simp [Resolved.crossings, Resolved.final]

theorem compile_crosses {t : Option Test} (hp : d.plan.Regular) (h : p.compile s u d = .ok (t, d')) :
    d.plan.Crosses u (p.crossed s) d'.plan := by
  rcases compile_eq_ok.mp h with ⟨hlost, -, hun⟩ | ⟨res, plan, test, plan', hres, htest, -, rfl⟩
  · rw [crossed, Setting.crossed_of_lost hlost, Setting.plan_unresolved hun]
    simpa using Crosses.refl d.plan
  · obtain ⟨hcrosses, hcrossings, hfound, -⟩ := Setting.resolve?_found hp hres
    rw [crossed, ← hcrossings, ← crossings_testOf htest]
    exact hcrosses.append (testOf_crosses hfound htest)

theorem compileEach_crosses : ∀ {ps : List Predicate} {d d' : Draft} {leaves : List Leaf}, d.plan.Regular →
    compileEach s u ps d = .ok (leaves, d') → d.plan.Crosses u (ps.flatMap (·.crossed s)) d'.plan
  | [], d, d', leaves, _, h => by
    cases h
    exact .refl _
  | p :: rest, d, d', leaves, hp, h => by
    obtain ⟨test, d₁, more, htest, hrest, -⟩ := compileEach_cons_eq_ok.mp h
    have hcrosses := compile_crosses hp htest
    exact hcrosses.append (compileEach_crosses (hcrosses.gains.regular hp) hrest)

end Predicate

theorem Filter.compileJson_crosses {filter : Json} {parts : List Condition} (hp : d.plan.Regular)
    (h : compileJson s u filter d = .ok (parts, d')) :
    d.plan.Crosses u ((predicates filter).flatMap (·.crossed s)) d'.plan := by
  obtain ⟨nodes, hnodes, hall⟩ := bind_eq_ok.mp h
  obtain ⟨kept, -, -, heach⟩ := compileAll_kept hall
  rw [leavesOfAll_ofJson hnodes] at heach
  exact Predicate.compileEach_crosses hp heach

/-! ### Fields -/

namespace Projection

variable {p : Projection}

theorem addRelations_gains {hops : List Hop} {tableAlias path : String} {table : Table} :
    ∀ {relations : List Relation} {p : Projection} {plan : JoinPlan},
      plan.Gains (addRelations s hops tableAlias path table relations p plan).2
        ((relations.filterMap fun r => if r.isMany then none else
          (s.catalog.target? r).map fun target => (⟨extendPath path r.name, r, target⟩ : Crossing)).map
            (Need.mk .forProjection))
  | [], p, plan => Gains.refl plan
  | r :: rest, p, plan => by
    rw [addRelations, List.filterMap_cons]
    cases ht : s.catalog.target? r with
    | none =>
      simp only [Option.map_none, ite_self]
      exact addRelations_gains
    | some target =>
      cases hmany : r.isMany with
      | true => exact addRelations_gains
      | false =>
        have hjoin := plan.gains_join path tableAlias r target .forProjection
        exact hjoin.trans addRelations_gains

theorem addAll_gains (hops : List Hop) (tableAlias path : String) (table : Table) (p : Projection) (plan : JoinPlan) :
    plan.Gains (addAll s hops tableAlias path table p plan).2
      ((s.catalog.toOnes path table).map (Need.mk .forProjection)) :=
  addRelations_gains

/-- What a path of the field list adds to a projection: nothing, all that `*` stands for at the end of hops, a column of
the table there, or the records of a relation. The relations that the path names are joined before. -/
inductive Addition (s : Setting) (path : Path) (q : Projection) (plan : JoinPlan) : Projection → JoinPlan → Prop
  | nothing {plan' : JoinPlan} :
      s.losesField path = true → plan.Crosses .forProjection (s.named path) plan' →
      Addition s path q plan q plan'
  | everything {plan' : JoinPlan} {hops : List Hop} {dotted tableAlias : String} {table : Table} :
      s.losesField path = false → path.isWildcard = true → plan.Crosses .forProjection (s.named path) plan' →
      plan'.Trail s .forProjection hops dotted tableAlias table →
      hops.map (·.relation.name) = path.parent.segments → s.implied path = s.catalog.toOnes dotted table →
      Addition s path q plan (addAll s hops tableAlias dotted table q plan').1
        (addAll s hops tableAlias dotted table q plan').2
  | field {plan' : JoinPlan} {hops : List Hop} {dotted tableAlias : String} {table : Table} {c : Column} :
      s.losesField path = false → path.isWildcard = false → plan.Crosses .forProjection (s.named path) plan' →
      plan'.Trail s .forProjection hops dotted tableAlias table →
      hops.map (·.relation.name) ++ [c.name] = path.segments → table.column? c.name = some c →
      (walk s.catalog s.root path.segments).bind List.getLast? = some (.column c) →
      Addition s path q plan (q.addField hops tableAlias c) plan'
  | records {plan' : JoinPlan} {hops : List Hop} {dotted tableAlias : String} {table target : Table} {hop : Hop} :
      s.losesField path = false → path.isWildcard = false → plan.Crosses .forProjection (s.named path) plan' →
      plan'.Trail s .forProjection hops dotted tableAlias table →
      table.relation? hop.relation.name = some hop.relation →
      plan'.Trail s .forProjection (hops ++ [hop]) hop.path hop.tableAlias target →
      hops.map (·.relation.name) ++ [hop.relation.name] = path.segments →
      (walk s.catalog s.root path.segments).bind List.getLast? = some (.relation hop.relation target) →
      Addition s path q plan (q.addRecords (hops ++ [hop])) plan'

/-- `*` stands for all of the root table and crosses nothing. -/
theorem addition_inv_root {path : Path} (q : Projection) (plan : JoinPlan) (hw : path.isWildcard = true)
    (he : path.parent.isEmpty = true) :
    Addition s path q plan ((addition s path q plan).1.getD q) (addition s path q plan).2 := by
  have hlost := isNone_addition (s := s) path q plan
  have hempty : path.parent.segments = [] := List.isEmpty_iff.mp he
  have hnone : s.crossed path.parent = [] := by
    rw [Setting.crossed, hempty]
    rfl
  unfold addition at hlost ⊢
  rw [if_pos hw, if_pos he] at hlost ⊢
  refine .everything hlost.symm hw ?_ .root hempty.symm ?_
  · rw [Setting.named, if_pos hw, hnone]
    exact .refl plan
  · rw [Setting.implied, if_pos hw, hnone]
    rfl

/-- A wildcard below the root crosses its parent, and the relation that its parent ends in. -/
theorem addition_inv_below {path : Path} (q : Projection) (hp : plan.Regular) (hw : path.isWildcard = true)
    (he : ¬path.parent.isEmpty = true) :
    Addition s path q plan ((addition s path q plan).1.getD q) (addition s path q plan).2 := by
  have hlost := isNone_addition (s := s) path q plan
  have hnamed : s.named path = s.crossed path.parent := by rw [Setting.named, if_pos hw]
  unfold addition at hlost ⊢
  rw [if_pos hw, if_neg he] at hlost ⊢
  cases hres : s.resolve? plan path.parent .forProjection with
  | none =>
    rw [hres] at hlost
    refine .nothing hlost.symm ?_
    rw [hnamed, Setting.crossed_of_lost (Setting.resolve?_eq_none_iff.mp hres)]
    exact .refl plan
  | some found =>
    obtain ⟨res, plan₁⟩ := found
    obtain ⟨hcrosses, hcrossings, hfound, hnames⟩ := Setting.resolve?_found hp hres
    rw [hres] at hlost
    rw [← hnamed] at hcrossings
    cases hfound with
    | column =>
      -- the joins of the parent are planned, though nothing is added
      rw [Resolved.crossings, Resolved.final, List.append_nil] at hcrossings
      exact .nothing hlost.symm (hcrossings ▸ hcrosses)
    | @relation hops parentPath parentAlias parent target r htrail hr ht =>
      obtain ⟨hcrossing, hcrosses', htrail'⟩ :=
        JoinPlan.cross_trail (u := .forProjection) (hcrosses.gains.regular hp) htrail hr ht
      refine .everything hlost.symm hw (hcrossings ▸ hcrosses.append hcrosses') htrail' ?_ ?_
      · rw [List.map_append]
        exact hnames
      · have hlast : (Resolved.relation hops parentPath parentAlias parent r target).crossings.getLast? =
            some ⟨extendPath parentPath r.name, r, target⟩ := List.getLast?_concat
        rw [Setting.implied, if_pos hw, ← hnamed, ← hcrossings, hlast]
        rfl

theorem addition_inv_plain {path : Path} (q : Projection) (hp : plan.Regular) (hw : path.isWildcard = false) :
    Addition s path q plan ((addition s path q plan).1.getD q) (addition s path q plan).2 := by
  have hlost := isNone_addition (s := s) path q plan
  have hnamed : s.named path = s.crossed path := by rw [Setting.named, hw, if_neg Bool.false_ne_true]
  unfold addition at hlost ⊢
  rw [hw, if_neg Bool.false_ne_true] at hlost ⊢
  cases hres : s.resolve? plan path .forProjection with
  | none =>
    rw [hres] at hlost
    refine .nothing hlost.symm ?_
    rw [hnamed, Setting.crossed_of_lost (Setting.resolve?_eq_none_iff.mp hres)]
    exact .refl plan
  | some found =>
    obtain ⟨res, plan₁⟩ := found
    obtain ⟨hcrosses, hcrossings, hfound, hnames⟩ := Setting.resolve?_found hp hres
    have hlast := Setting.last_of_resolve? hres
    rw [hres] at hlost
    rw [← hnamed] at hcrossings
    cases hfound with
    | column htrail hc =>
      rw [Resolved.crossings, Resolved.final, List.append_nil] at hcrossings
      exact .field hlost.symm hw (hcrossings ▸ hcrosses) htrail hnames hc hlast
    | relation htrail hr ht =>
      obtain ⟨-, hcrosses', htrail'⟩ :=
        JoinPlan.cross_trail (u := .forProjection) (hcrosses.gains.regular hp) htrail hr ht
      exact .records hlost.symm hw (hcrossings ▸ hcrosses.append hcrosses') (htrail.mono hcrosses'.gains.toExtends)
        hr htrail' hnames hlast

theorem addition_inv (path : Path) (q : Projection) (hp : plan.Regular) :
    Addition s path q plan ((addition s path q plan).1.getD q) (addition s path q plan).2 := by
  cases hw : path.isWildcard with
  | false => exact addition_inv_plain q hp hw
  | true =>
    by_cases he : path.parent.isEmpty = true
    · exact addition_inv_root q plan hw he
    · exact addition_inv_below q hp hw he

theorem addPath_inv {path : Path} {q q' : Projection} (hp : d.plan.Regular)
    (h : addPath s path q d = .ok (q', d')) : Addition s path q d.plan q' d'.plan := by
  have hadds := addition_inv (s := s) path q hp
  rcases addPath_eq_ok.mp h with ⟨plan, hnone, rfl, hun⟩ | ⟨plan, hfound, rfl⟩
  · rw [hnone] at hadds
    rw [Setting.plan_unresolved hun]
    exact hadds
  · rw [hfound] at hadds
    exact hadds

theorem Addition.gains {path : Path} {q q' : Projection} (h : Addition s path q plan q' plan')
    (hkept : s.losesField path = false) :
    plan.Gains plan' ((s.named path ++ s.implied path).map (Need.mk .forProjection)) := by
  have hplain (hw : path.isWildcard = false) : s.named path ++ s.implied path = s.named path := by
    rw [Setting.implied, hw, if_neg Bool.false_ne_true, List.append_nil]
  cases h with
  | nothing hlost =>
    rw [hkept] at hlost
    cases hlost
  | everything _ _ hcrosses _ _ himplied =>
    rw [himplied, List.map_append]
    exact hcrosses.gains.trans (addAll_gains ..)
  | field _ hw hcrosses => exact (hplain hw).symm ▸ hcrosses.gains
  | records _ hw hcrosses => exact (hplain hw).symm ▸ hcrosses.gains

theorem addPaths_gains : ∀ {fields : List Path} {p p' : Projection} {d d' : Draft}, d.plan.Regular →
    (∀ path ∈ fields, s.losesField path = false) → addPaths s fields p d = .ok (p', d') →
    d.plan.Gains d'.plan ((fields.flatMap fun path => s.named path ++ s.implied path).map (Need.mk .forProjection))
  | [], p, p', d, d', _, _, h => by
    cases h
    exact Gains.refl _
  | path :: rest, p, p', d, d', hp, hkept, h => by
    obtain ⟨⟨p₁, d₁⟩, hpath, hrest⟩ := bind_eq_ok.mp h
    have hgains := (addPath_inv hp hpath).gains (hkept path List.mem_cons_self)
    exact hgains.append (addPaths_gains (hgains.regular hp) (fun q hq => hkept q (List.mem_cons_of_mem path hq)) hrest)

/-- The paths of a field list; an empty one stands for `*`. -/
def fieldPaths (fields : List Path) : List Path :=
  if fields.isEmpty then [⟨["*"]⟩] else fields

theorem ofFields_gains {fields : List Path} (hp : d.plan.Regular)
    (hkept : ∀ path ∈ fieldPaths fields, s.losesField path = false) (h : ofFields s fields d = .ok (p, d')) :
    d.plan.Gains d'.plan
      (((fieldPaths fields).flatMap fun path => s.named path ++ s.implied path).map (Need.mk .forProjection)) := by
  obtain ⟨q, hq, -⟩ := ofFields_eq_ok.mp h
  exact addPaths_gains hp hkept hq

end Projection

/-! ### Sort keys -/

theorem SortTerm.compile_crosses {t : SortTerm} {column : Option Sql.ColumnRef} (hp : d.plan.Regular)
    (h : t.compile s d = .ok (column, d')) : d.plan.Crosses .forSort (s.crossed t.path) d'.plan := by
  rcases compile_eq_ok.mp h with ⟨hlost, -, hun⟩ | ⟨res, plan, key, plan', hres, hkey, -, rfl⟩
  · rw [Setting.crossed_of_lost hlost, Setting.plan_unresolved hun]
    exact .refl d.plan
  · obtain ⟨hcrosses, hcrossings, hfound, -⟩ := Setting.resolve?_found hp hres
    rw [← hcrossings]
    cases hfound with
    | column =>
      obtain ⟨-, -, rfl⟩ := keyOf_column_eq_ok.mp hkey
      rw [Resolved.crossings, Resolved.final, List.append_nil]
      exact hcrosses
    | @relation hops parentPath parentAlias parent target r htrail _ _ =>
      obtain ⟨-, -, -, rfl⟩ := keyOf_relation_eq_ok.mp hkey
      exact hcrosses.append (.join plan parentPath parentAlias r target htrail.known)

namespace SortKey

theorem compileAll_crosses : ∀ {terms : List SortTerm} {keys keys' : List SortKey} {d d' : Draft}, d.plan.Regular →
    compileAll s terms keys d = .ok (keys', d') → d.plan.Crosses .forSort (terms.flatMap (s.crossed ·.path)) d'.plan
  | [], keys, keys', d, d', _, h => by
    cases h
    exact .refl _
  | t :: rest, keys, keys', d, d', hp, h => by
    obtain ⟨column, d₁, hterm, hrest⟩ := compileAll_cons_eq_ok.mp h
    have hcrosses := SortTerm.compile_crosses hp hterm
    exact hcrosses.append (compileAll_crosses (hcrosses.gains.regular hp) hrest)

theorem listOf_crosses {terms : List SortTerm} {keys : List SortKey} (hp : d.plan.Regular)
    (h : listOf s terms d = .ok (keys, d')) :
    d.plan.Crosses .forSort (terms.flatMap (s.crossed ·.path)) d'.plan := by
  obtain ⟨own, hown, -⟩ := listOf_eq_ok.mp h
  exact compileAll_crosses hp hown

end SortKey

/-! ### Aggregates -/

namespace AggregateRequest

theorem target_crosses {r : AggregateRequest} {call : AggregateCall} (hp : plan.Regular)
    (h : r.target s plan = .ok (call, plan')) : plan.Crosses .forAggregate (r.targetCrossed s) plan' := by
  rw [targetCrossed]
  rcases target_inv h with ⟨hrecords, -, -, rfl⟩ | ⟨hrecords, ⟨_, _, _, hres, -⟩ |
    ⟨_, parentPath, parentAlias, _, relation, target, plan₁, hres, -, -, rfl⟩⟩
  · rw [if_pos hrecords]
    exact .refl _
  · obtain ⟨hcrosses, hcrossings, -, -⟩ := Setting.resolve?_found hp hres
    rw [hrecords, if_neg Bool.false_ne_true, ← hcrossings, Resolved.crossings, Resolved.final, List.append_nil]
    exact hcrosses
  · obtain ⟨hcrosses, hcrossings, hfound, -⟩ := Setting.resolve?_found hp hres
    rw [hrecords, if_neg Bool.false_ne_true, ← hcrossings]
    cases hfound with
    | relation htrail _ _ => exact hcrosses.append (.join plan₁ parentPath parentAlias relation target htrail.known)

theorem compile_gains {r : AggregateRequest} {term : AggregateTerm} (hp : d.plan.Regular)
    (h : r.compile s d = .ok (term, d')) :
    d.plan.Gains d'.plan ((r.crossed s).map (Need.mk .forAggregate)) := by
  obtain ⟨call, plan, condition, d₁, htarget, hcondition, -, rfl⟩ := compile_eq_ok.mp h
  have hrecord : d.plan.Gains d.plan.record [] := Gains.of_joins rfl rfl rfl
  have hgains := (target_crosses (hrecord.regular hp) htarget).gains
  have hrecorded : plan.Gains plan.recorded.2.record [] := Gains.of_joins rfl rfl rfl
  have hregular := hrecorded.regular (hgains.regular (hrecord.regular hp))
  have hmore := (Filter.compileJson_crosses (d := ⟨plan.recorded.2.record, d.skipped⟩) hregular hcondition).gains
  have hdone : d₁.plan.Gains d₁.plan.recorded.2 [] := Gains.of_joins rfl rfl rfl
  have htotal := (((hrecord.trans hgains).trans hrecorded).trans hmore).trans hdone
  rw [List.nil_append, List.append_nil, List.append_nil, ← List.map_append] at htotal
  exact htotal

theorem compileAll_gains : ∀ {rs : List AggregateRequest} {terms : List AggregateTerm} {d d' : Draft},
    d.plan.Regular → compileAll s rs d = .ok (terms, d') →
    d.plan.Gains d'.plan ((rs.flatMap (·.crossed s)).map (Need.mk .forAggregate))
  | [], terms, d, d', _, h => by
    cases h
    exact Gains.refl _
  | r :: rest, terms, d, d', hp, h => by
    obtain ⟨term, d₁, more, hterm, hrest, -⟩ := compileAll_cons_eq_ok.mp h
    have hgains := compile_gains hp hterm
    exact hgains.append (compileAll_gains (hgains.regular hp) hrest)

end AggregateRequest

/-! ### Requests -/

/-- What the parts of a request need joined. -/
structure Demand where
  projection : List Crossing
  filter : List Crossing
  sort : List Crossing
  aggregate : List Crossing

namespace Demand

def all (n : Demand) : List Crossing :=
  n.projection ++ n.filter ++ n.sort ++ n.aggregate

/-- The crossings, each with the part that needs it. -/
def listed (n : Demand) : List Need :=
  n.projection.map (Need.mk .forProjection) ++ n.filter.map (Need.mk .forFilter) ++
    n.sort.map (Need.mk .forSort) ++ n.aggregate.map (Need.mk .forAggregate)

end Demand

/-- The relations that a request needs joined: those that its paths name, and the to-one relations that `*` stands
for. -/
def FindRequest.demand (r : FindRequest) (s : Setting) (aggregates : List AggregateRequest) : Demand where
  projection := (Projection.fieldPaths (Path.listOf r.fields)).flatMap fun path => s.named path ++ s.implied path
  filter := (Filter.predicates r.filter).flatMap (·.crossed s)
  sort := (SortTerm.listOf r.sort).flatMap (s.crossed ·.path)
  aggregate := aggregates.flatMap (·.crossed s)

/-- The relations that the paths of a request name. -/
def FindRequest.named (r : FindRequest) (s : Setting) (aggregates : List AggregateRequest) : List Crossing :=
  (Projection.fieldPaths (Path.listOf r.fields)).flatMap s.named ++ (r.demand s aggregates).filter ++
    (r.demand s aggregates).sort ++ (r.demand s aggregates).aggregate

/-- The plan has a join for each relation that is needed, no other, and none twice; each is there for the parts that
need it and for no other. -/
structure JoinPlan.Exact (p : JoinPlan) (n : Demand) : Prop where
  distinct : (p.joins.map (·.path)).Nodup
  projection : ∀ path, p.Carries .forProjection path ↔ ∃ x ∈ n.projection, x.path = path
  filter : ∀ path, p.Carries .forFilter path ↔ ∃ x ∈ n.filter, x.path = path
  sort : ∀ path, p.Carries .forSort path ↔ ∃ x ∈ n.sort, x.path = path
  aggregate : ∀ path, p.Carries .forAggregate path ↔ ∃ x ∈ n.aggregate, x.path = path
  only : ∀ j ∈ p.joins, ∃ x ∈ n.all, j.Of x

theorem JoinPlan.regular_start (root : String) : (start root).Regular :=
  ⟨indexed_start root, fun k j hj => by simp [start] at hj⟩

theorem JoinPlan.Gains.exact {root : String} {p : JoinPlan} {n : Demand} (h : (JoinPlan.start root).Gains p n.listed) :
    p.Exact n := by
  have hcarries : ∀ w path, p.Carries w path ↔ ∃ need ∈ n.listed, need.usage.meets w = true ∧
      need.crossing.path = path := by
    intro w path
    rw [h.carries (regular_start root)]
    constructor
    · rintro (⟨j, hj, -⟩ | hneed)
      · cases hj
      · exact hneed
    · exact Or.inr
  refine ⟨(h.regular (regular_start root)).indexed.distinct, ?projection, ?filter, ?sort, ?aggregate, fun j hj => ?only⟩
  case only =>
    obtain ⟨k, hk⟩ := List.mem_iff_getElem?.mp hj
    rcases h.origin k j hk with ⟨j', hj', -⟩ | ⟨need, hneed, hof⟩
    · simp [JoinPlan.start] at hj'
    · refine ⟨need.crossing, ?_, hof⟩
      simp only [Demand.listed, List.mem_append, List.mem_map] at hneed
      simp only [Demand.all, List.mem_append]
      rcases hneed with ((⟨x, hx, rfl⟩ | ⟨x, hx, rfl⟩) | ⟨x, hx, rfl⟩) | ⟨x, hx, rfl⟩
      · exact Or.inl (Or.inl (Or.inl hx))
      · exact Or.inl (Or.inl (Or.inr hx))
      · exact Or.inl (Or.inr hx)
      · exact Or.inr hx
  -- No two of the four usages meet.
  all_goals
    intro path
    simp [hcarries, Demand.listed, or_and_right, exists_or, Usage.meets, Usage.forProjection, Usage.forFilter,
      Usage.forSort, Usage.forAggregate]

/-- No path of a field list is lost if none is reported. -/
theorem FindRequest.fields_kept {r : FindRequest} {aggregates : List AggregateRequest}
    (h : r.reported s aggregates = []) :
    ∀ path ∈ Projection.fieldPaths (Path.listOf r.fields), s.losesField path = false := by
  simp only [reported, List.append_eq_nil_iff, Setting.reportedFields, List.map_eq_nil_iff, List.filter_eq_nil_iff,
    Bool.not_eq_true] at h
  intro path hpath
  unfold Projection.fieldPaths at hpath
  split at hpath
  · rw [List.mem_singleton.mp hpath]
    rfl
  · exact h.1.1.1 path hpath

/-- The parts of a request gain what they need, one part after the other. -/
theorem CompiledParts.compile_gains {request : FindRequest} {aggregates : List AggregateRequest} {c : CompiledParts}
    (hreported : request.reported s aggregates = []) (h : compile s request aggregates = .ok c) :
    (JoinPlan.start s.options.rootAlias).Gains c.draft.plan (request.demand s aggregates).listed := by
  obtain ⟨d₁, d₂, d₃, h₁, h₂, h₃, h₄⟩ := compile_eq_ok.mp h
  have hstart := JoinPlan.regular_start s.options.rootAlias
  have hgains₁ := Projection.ofFields_gains (d := ⟨.start s.options.rootAlias, []⟩) hstart
    (FindRequest.fields_kept hreported) h₁
  have hregular₁ := hgains₁.regular hstart
  have hgains₂ := (Filter.compileJson_crosses hregular₁ h₂).gains
  have hregular₂ := hgains₂.regular hregular₁
  have hgains₃ := (SortKey.listOf_crosses hregular₂ h₃).gains
  have hgains₄ := AggregateRequest.compileAll_gains (hgains₃.regular hregular₂) h₄
  exact ((hgains₁.trans hgains₂).trans hgains₃).trans hgains₄

theorem Setting.isMany_implied {path : Path} {x : Crossing} (h : x ∈ s.implied path) : x.relation.isMany = false := by
  have htoOne : ∀ {path : String} {table : Table}, x ∈ s.catalog.toOnes path table → x.relation.isMany = false := by
    intro path table hx
    obtain ⟨r, -, hr⟩ := List.mem_filterMap.mp hx
    split at hr
    · cases hr
    · rename_i hmany
      obtain ⟨target, -, rfl⟩ := Option.map_eq_some_iff.mp hr
      exact eq_false_of_ne_true hmany
  unfold implied at h
  split at h
  · split at h
    · exact htoOne h
    · exact htoOne h
  · cases h

/-- A join to a to-many relation is of one that a path names. -/
theorem JoinPlan.Exact.named {p : JoinPlan} {request : FindRequest} {aggregates : List AggregateRequest}
    (h : p.Exact (request.demand s aggregates)) {j : Join} (hj : j ∈ p.joins) (hmany : j.many = true) :
    ∃ x ∈ request.named s aggregates, j.Of x := by
  obtain ⟨x, hx, hof⟩ := h.only j hj
  refine ⟨x, ?_, hof⟩
  have himplied : ∀ path, x ∉ s.implied path := by
    intro path hmem
    have hfalse := Setting.isMany_implied hmem
    rw [← hof.many, hmany] at hfalse
    cases hfalse
  simp only [Demand.all, FindRequest.named, FindRequest.demand, List.mem_append, List.mem_flatMap] at hx ⊢
  rcases hx with ((⟨path, hpath, hx | hx⟩ | hx) | hx) | hx
  · exact Or.inl (Or.inl (Or.inl ⟨path, hpath, hx⟩))
  · exact absurd hx (himplied path)
  · exact Or.inl (Or.inl (Or.inr hx))
  · exact Or.inl (Or.inr hx)
  · exact Or.inr hx

/-- A request of which no path is dropped gets exactly the joins that it needs. To-many relations among them are all
named by a path: `*`, counts of links and comparisons of their set join none. -/
theorem FindPlan.compile_joins {catalog : Catalog} {table : String} {request : FindRequest} {options : CompileOptions}
    {p : FindPlan} (h : compile catalog table request options = .ok p) (hskipped : p.skipped = []) :
    ∃ s counts aggregates c, setting catalog table options = .ok s ∧
      CountMode.ofText request.counts = .ok counts ∧ AggregateRequest.ofJson request.aggregate = .ok aggregates ∧
      CompiledParts.compile s request aggregates = .ok c ∧
      p = c.plan s counts (Window.ofPage request.page request.limit options.defaultLimit) ∧
      c.draft.plan.Exact (request.demand s aggregates) ∧
      ∀ j ∈ c.draft.plan.joins, j.many = true → ∃ x ∈ request.named s aggregates, j.Of x := by
  obtain ⟨counts, aggregates, s, c, hcounts, haggs, hsetting, hc, rfl⟩ := compile_eq_ok.mp h
  have hreported : request.reported s aggregates = [] := (CompiledParts.skipped_compile hc).symm.trans hskipped
  have hexact := (CompiledParts.compile_gains hreported hc).exact
  exact ⟨s, counts, aggregates, c, hsetting, hcounts, haggs, hc, rfl, hexact, fun j hj hmany => hexact.named hj hmany⟩

theorem compile_joins_blog :
    ∃ p s aggregates c, FindPlan.compile .blog "posts" .tidy .standard = .ok p ∧ p.skipped = [] ∧
      CompiledParts.compile s .tidy aggregates = .ok c ∧ c.draft.plan.Exact (FindRequest.tidy.demand s aggregates) := by
  obtain ⟨p, hp⟩ := exists_eq_ok (x := FindPlan.compile .blog "posts" .tidy .standard) (by decide +kernel)
  have hskipped : (FindPlan.compile .blog "posts" .tidy .standard).toOption.map (·.skipped) = some [] := by
    decide +kernel
  rw [hp] at hskipped
  have hnone : p.skipped = [] := Option.some.inj hskipped
  obtain ⟨s, counts, aggregates, c, -, -, -, hc, -, hexact, -⟩ := FindPlan.compile_joins hp hnone
  exact ⟨p, s, aggregates, c, hp, hnone, hc, hexact⟩

end RecordService
