import RecordService.Proofs.Plan.Balance
import RecordService.Proofs.Plan.Stages

/-! # Parameters in document order

Which cells a predicate binds is settled by its operator, its operand and the type of what its path leads to
(`Operator.cells`); a predicate whose path leads nowhere binds none. So the cells of a filter can be read off its
document, without a compilation (`Setting.filterCells`), and each statement of a plan binds them as often as it states
the filter. -/

namespace RecordService
open Sql

/-- The cells that an operator binds for an operand, on cells of the type. -/
def Operator.cells (op : Operator) (operand : Json) (type : ScalarType) : List Cell :=
  match op, operand with
  | .compare .eq, .null => []
  | .compare .neq, .null => []
  | .compare _, operand => [.coerce operand type]
  | .isIn, operand | .notIn, operand | .between, operand => (Operand.list? operand type).getD []
  | .isNull, _ => []
  | .contains, operand | .startsWith, operand | .endsWith, operand =>
    ((Operand.text? operand).map fun text => .text (op.pattern text)).toList
  | .count _, operand => [.coerce operand .int]
  | .eqSet, operand => Operand.distinct [] ((Operand.list? operand type).getD [])

namespace Setting

/-- The cells of a predicate: none if its path leads nowhere. -/
def cellsOf (s : Setting) (p : Predicate) : List Cell :=
  match s.typeAt? p.path with
  | some type => p.op.cells p.operand type
  | none => []

/-- The cells of a filter document, in the order in which its predicates stand. -/
def filterCells (s : Setting) (filter : Json) : List Cell :=
  (Filter.predicates filter).flatMap s.cellsOf

end Setting

/-! ### Predicates -/

namespace Predicate

variable {p : Predicate} {test : Test}

theorem cells_columnTest {col : ColumnRef} {type : ScalarType} (h : p.columnTest col type = .ok test) :
    test.cells = p.op.cells p.operand type := by
  unfold columnTest at h
  split at h
  all_goals try split at h
  all_goals try cases h
  all_goals simp_all [Test.cells, Operator.cells]

theorem cells_countTest {c : Comparison} {links : LinkTable} {scratch : String} {parent : ColumnRef}
    (h : p.countTest c links scratch parent = .ok test) : test.cells = [.coerce p.operand .int] := by
  unfold countTest at h
  split at h
  all_goals cases h
  all_goals simp_all [Test.cells]

theorem cells_setTest {type : ScalarType} {links : LinkTable} {scratch : String} {parent : ColumnRef}
    (h : p.setTest type links scratch parent = .ok test) :
    test.cells = Operand.distinct [] ((Operand.list? p.operand type).getD []) := by
  unfold setTest at h
  split at h
  · rename_i ids hids
    cases h
    rw [hids]
    rfl
  · cases h

theorem cells_testOf {usage : Usage} {plan plan' : JoinPlan} {res : Resolved}
    (h : p.testOf usage plan res = .ok (test, plan')) : test.cells = p.op.cells p.operand res.type := by
  cases res with
  | column hops tableAlias column => exact cells_columnTest (testOf_column_eq_ok.mp h).1
  | relation hops parentPath parentAlias parent r target =>
    rcases testOf_relation_eq_ok.mp h with ⟨c, hop, -, hcount, -⟩ | ⟨hop, -, hset, -⟩ | ⟨hkeys, -⟩
    · rw [hop]
      exact cells_countTest hcount
    · rw [hop]
      exact cells_setTest hset
    · exact cells_columnTest hkeys

/-- What is compiled of a predicate binds its cells. -/
theorem cells_compile {s : Setting} {usage : Usage} {d d' : Draft} {t : Option Test}
    (h : p.compile s usage d = .ok (t, d')) : t.toList.flatMap Test.cells = s.cellsOf p := by
  rcases compile_eq_ok.mp h with ⟨htype, rfl, -⟩ | ⟨res, plan, test, plan', hres, htest, rfl, -⟩
  · simp [Setting.cellsOf, htype]
  · simp [Setting.cellsOf, Setting.typeAt?_of_resolve? hres, cells_testOf htest]

end Predicate

/-! ### Filters -/

namespace Condition

theorem cellsOf_append (a b : List Condition) : cellsOf (a ++ b) = cellsOf a ++ cellsOf b := by
  rw [cellsOf, testsOfAll_append, List.flatMap_append]
  rfl

theorem cellsOf_groupOf (c : Connective) (parts : List Condition) :
    cellsOf (Filter.groupOf c parts).toList = cellsOf parts := by
  rw [cellsOf, testsOfAll_groupOf]
  rfl

theorem cellsOf_not (part : Option Condition) : cellsOf (part.map .not).toList = cellsOf part.toList := by
  rw [cellsOf, testsOfAll_not]
  rfl

theorem cellsOf_test (t : Option Test) : cellsOf (t.map .test).toList = t.toList.flatMap Test.cells := by
  rw [cellsOf, testsOfAll_test]

end Condition

namespace Filter

variable {s : Setting} {usage : Usage}

mutual

/-- What is compiled of a node binds the cells of its leaves. -/
theorem cellsOf_compile : ∀ (node : Filter) (d d' : Draft) (c : Option Condition),
    node.compile s usage d = .ok (c, d') → Condition.cellsOf c.toList = node.leaves.flatMap s.cellsOf
  | all children, d, d', c, h => by
    obtain ⟨parts, hparts, rfl⟩ := compile_all_eq_ok.mp h
    rw [Condition.cellsOf_groupOf, leaves]
    exact cellsOf_compileAll children d d' parts hparts
  | any children, d, d', c, h => by
    obtain ⟨parts, hparts, rfl⟩ := compile_any_eq_ok.mp h
    rw [Condition.cellsOf_groupOf, leaves]
    exact cellsOf_compileAll children d d' parts hparts
  | not child, d, d', c, h => by
    obtain ⟨part, hpart, rfl⟩ := compile_not_eq_ok.mp h
    rw [Condition.cellsOf_not, leaves]
    exact cellsOf_compile child d d' part hpart
  | leaf p, d, d', c, h => by
    obtain ⟨t, htest, rfl⟩ := compile_leaf_eq_ok.mp h
    rw [Condition.cellsOf_test, leaves, Predicate.cells_compile htest]
    simp

theorem cellsOf_compileAll : ∀ (nodes : List Filter) (d d' : Draft) (parts : List Condition),
    compileAll s usage nodes d = .ok (parts, d') → Condition.cellsOf parts = (leavesOfAll nodes).flatMap s.cellsOf
  | [], d, d', parts, h => by
    obtain ⟨rfl, -⟩ := compileAll_nil_eq_ok.mp h
    rfl
  | node :: rest, d, d', parts, h => by
    obtain ⟨c, d₁, more, hnode, hrest, rfl⟩ := compileAll_cons_eq_ok.mp h
    rw [Condition.cellsOf_append, leavesOfAll, List.flatMap_append, cellsOf_compile node d d₁ c hnode,
      cellsOf_compileAll rest d₁ d' more hrest]

end

/-- The conditions of a filter document bind the cells of the document. -/
theorem cellsOf_compileJson {filter : Json} {d d' : Draft} {parts : List Condition}
    (h : compileJson s usage filter d = .ok (parts, d')) : Condition.cellsOf parts = s.filterCells filter := by
  obtain ⟨nodes, hnodes, h⟩ := bind_eq_ok.mp h
  rw [cellsOf_compileAll nodes d d' parts h, leavesOfAll_ofJson hnodes, Setting.filterCells]

end Filter

/-! ### Plans -/

namespace AggregateRequest

/-- The condition of a compiled aggregate binds the cells of the condition that was asked for. -/
theorem cellsOf_compile {s : Setting} {r : AggregateRequest} {d d' : Draft} {term : AggregateTerm}
    (h : r.compile s d = .ok (term, d')) :
    Condition.cellsOf term.condition = s.filterCells (r.condition.getD .null) := by
  obtain ⟨call, plan, condition, d₁, -, hcondition, rfl, -⟩ := compile_eq_ok.mp h
  exact Filter.cellsOf_compileJson hcondition

theorem cellsOf_compileAll {s : Setting} : ∀ {rs : List AggregateRequest} {d d' : Draft} {terms : List AggregateTerm},
    compileAll s rs d = .ok (terms, d') →
      terms.map (fun t => Condition.cellsOf t.condition) = rs.map fun r => s.filterCells (r.condition.getD .null)
  | [], d, d', terms, h => by
    cases h
    rfl
  | r :: rest, d, d', terms, h => by
    obtain ⟨term, d₁, more, hterm, hrest, rfl⟩ := compileAll_cons_eq_ok.mp h
    rw [List.map_cons, List.map_cons, cellsOf_compile hterm, cellsOf_compileAll hrest]

end AggregateRequest

namespace CompiledParts

variable {c : CompiledParts} {s : Setting}

theorem cells_rowQuery (window : Window) :
    (c.rowQuery s window).cells =
      match (c.rowQuery s window).paging with
      | .rows _ => Condition.cellsOf c.filter
      | .keys _ => Condition.cellsOf c.filter ++ Condition.cellsOf c.filter := by
  unfold RowQuery.cells
  rcases c.rowQuery_paging s window with h | h <;> rw [h] <;> rfl

theorem cells_aggregateSelect (t : AggregateTerm) :
    (c.aggregateSelect s t).cells = Condition.cellsOf t.condition ++ Condition.cellsOf c.filter := by
  have hrecords :
      ((c.filtered s).map fun r => Condition.cellsOf r.conditions).getD [] = Condition.cellsOf c.filter := by
    unfold filtered
    split
    · rename_i hempty
      rw [List.isEmpty_iff.mp hempty]
      rfl
    · rfl
  rcases c.aggregateSelect_eq s t with h | h
  · rw [h, AggregateSelect.cells, hrecords]
    rfl
  · rw [h, AggregateSelect.cells, hrecords]
    rfl

end CompiledParts

/-- What the statements of a plan bind: the cells of the filter once for each time they state it, and in an aggregate
each time after the cells of the aggregate's own condition. -/
structure FindPlan.Binds (p : FindPlan) (s : Setting) (filter : Json) (aggregates : List AggregateRequest) : Prop where
  data : p.data.statement.params =
    match p.data.paging with
    | .rows _ => s.filterCells filter
    | .keys _ => s.filterCells filter ++ s.filterCells filter
  totalCount : ∀ q ∈ p.totalCount, q.statement.params = []
  filterCount : ∀ q ∈ p.filterCount, q.statement.params = s.filterCells filter
  aggregate : ∀ q ∈ p.aggregate, q.statement.params =
    aggregates.flatMap fun a => s.filterCells (a.condition.getD .null) ++ s.filterCells filter

theorem CompiledParts.plan_binds {c : CompiledParts} {s : Setting} {request : FindRequest}
    {aggregates : List AggregateRequest} (h : compile s request aggregates = .ok c) (counts : CountMode)
    (window : Window) : (c.plan s counts window).Binds s request.filter aggregates := by
  obtain ⟨d₁, d₂, d₃, -, hfilter, -, haggregates⟩ := compile_eq_ok.mp h
  have hcells := Filter.cellsOf_compileJson hfilter
  refine ⟨?_, ?_, ?_, ?_⟩
  · rw [RowQuery.params_statement, ← hcells]
    exact cells_rowQuery window
  · intro q hq
    simp only [plan, Option.mem_def, Option.ite_none_right_eq_some, Option.some.injEq] at hq
    rw [← hq.2]
    rfl
  · intro q hq
    simp only [plan, Option.mem_def, Option.ite_none_right_eq_some, Option.some.injEq] at hq
    rw [← hq.2, ← hcells]
    exact CountQuery.params_filtered _ _ _
  · intro q hq
    simp only [plan, aggregateQuery, Option.mem_def, Option.ite_none_left_eq_some, Option.some.injEq] at hq
    rw [← hq.2, AggregateQuery.params_statement, ← hcells, List.flatMap_map]
    simp only [cells_aggregateSelect]
    have hterms := AggregateRequest.cellsOf_compileAll haggregates
    rw [← List.flatMap_map (fun t : AggregateTerm => Condition.cellsOf t.condition) (· ++ Condition.cellsOf c.filter),
      hterms, List.flatMap_map]

/-- Every statement of a plan, and of its deferred links whatever the keys, binds one cell for each of its
placeholders; and which cells these are is read off the documents of the request. -/
theorem FindPlan.statements_bind_placeholders {catalog : Catalog} {table : String} {request : FindRequest}
    {options : CompileOptions} {p : FindPlan} (h : FindPlan.compile catalog table request options = .ok p) :
    (∀ st ∈ p.statements, placeholders? st.2.sql = some st.2.params.length) ∧
      (∀ l ∈ p.projection.deferred, ∀ keys : List Cell,
        placeholders? (l.statement keys).sql = some keys.length ∧ (l.statement keys).params = keys) ∧
      ∃ s aggregates, setting catalog table options = .ok s ∧
        AggregateRequest.ofJson request.aggregate = .ok aggregates ∧ p.Binds s request.filter aggregates := by
  obtain ⟨counts, aggregates, s, c, -, haggregates, hs, hc, rfl⟩ := compile_eq_ok.mp h
  refine ⟨fun st hst => ?_, fun l _ keys => ⟨?_, rfl⟩, s, aggregates, hs, haggregates, ?_⟩
  · exact (marked_statements _ st hst).placeholders?
  · exact (l.balanced_statement keys).marked.placeholders?
  · exact CompiledParts.plan_binds hc counts _

/-- The request for a page of keys states its filter four times, and the data statement twice. -/
theorem statements_bind_placeholders_blog :
    ∃ p, FindPlan.compile .blog "posts" .sample .standard = .ok p ∧
      (∀ st ∈ p.statements, placeholders? st.2.sql = some st.2.params.length) ∧
      p.data.statement.params = [.text "%x%", .bool true, .int 1, .int 2, .text "%x%", .bool true, .int 1, .int 2] := by
  obtain ⟨p, hp⟩ := exists_eq_ok (x := FindPlan.compile .blog "posts" .sample .standard) (by decide +kernel)
  have hdata : (FindPlan.compile .blog "posts" .sample .standard).toOption.map (fun p => p.data.statement.params) =
      some [.text "%x%", .bool true, .int 1, .int 2, .text "%x%", .bool true, .int 1, .int 2] := by
    decide +kernel
  rw [hp] at hdata
  exact ⟨p, hp, (FindPlan.statements_bind_placeholders hp).1, Option.some.inj hdata⟩

end RecordService
