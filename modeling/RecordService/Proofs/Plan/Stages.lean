import RecordService.Plan.Find
import RecordService.Proofs.Catalog.Declared
import RecordService.Proofs.Request.Leaves

/-! # Stages of a compilation

Whether a path leads anywhere, and to cells of which type, is settled by the catalog alone (`Setting.typeAt?`); the
joins planned so far have no part in it. With that, the compilation of a predicate splits into what its path leads to
and the test of it (`Predicate.testOf`), and a plan is its compiled parts, put together (`CompiledParts.plan`). -/

namespace RecordService

/-! ### Where paths lead -/

/-- The type of the cells that a step leads to: those of the column, or the keys of the related records. -/
def PathStep.type : PathStep → ScalarType
  | relation _ target => target.primaryType
  | column c => c.type

/-- The type of the cells that a resolved path stands for. -/
def Resolved.type : Resolved → ScalarType
  | column _ _ c => c.type
  | relation _ _ _ _ _ target => target.primaryType

/-- The type of the cells that a path from a table leads to, if it leads anywhere. -/
def Catalog.typeAt? (catalog : Catalog) (root : Table) (path : Path) : Option ScalarType :=
  (walk catalog root path.segments).bind fun steps => steps.getLast?.map (·.type)

def Setting.typeAt? (s : Setting) (path : Path) : Option ScalarType :=
  s.catalog.typeAt? s.root path

/-- A walk takes a relation and goes on from its target, or ends in a column. -/
theorem walk_cons_eq_some {catalog : Catalog} {table : Table} {segment : String} {rest : List String}
    {steps : List PathStep} :
    walk catalog table (segment :: rest) = some steps ↔
      (∃ r target more, table.relation? segment = some r ∧ catalog.target? r = some target ∧
        walk catalog target rest = some more ∧ .relation r target :: more = steps) ∨
      ∃ c, table.relation? segment = none ∧ table.column? segment = some c ∧ rest = [] ∧ [.column c] = steps := by
  rw [walk]
  cases table.relation? segment with
  | some r => cases ht : catalog.target? r <;> simp [ht]
  | none => cases table.column? segment <;> simp

/-- A column ends every walk. -/
theorem walk_column {catalog : Catalog} {c : Column} {before rest : List PathStep} :
    ∀ {segments : List String} {table : Table},
      walk catalog table segments = some (before ++ .column c :: rest) → rest = []
  | [], _, h => by simp [walk] at h
  | segment :: more, table, h => by
    rcases walk_cons_eq_some.mp h with ⟨r, target, steps, -, -, hsteps, heq⟩ | ⟨_, -, -, -, heq⟩
    · cases before with
      | nil => cases heq
      | cons first before =>
        rw [List.cons_append, List.cons.injEq] at heq
        exact walk_column (heq.2 ▸ hsteps)
    · cases before with
      | nil =>
        cases heq
        rfl
      | cons first before => simp at heq

def PathStep.name : PathStep → String
  | relation r _ => r.name
  | column c => c.name

theorem names_walk {catalog : Catalog} : ∀ {segments : List String} {table : Table} {steps : List PathStep},
    walk catalog table segments = some steps → steps.map PathStep.name = segments
  | [], _, _, h => by
    cases h
    rfl
  | segment :: rest, table, steps, h => by
    rcases walk_cons_eq_some.mp h with ⟨r, target, more, hr, -, hmore, rfl⟩ | ⟨c, -, hc, rfl, rfl⟩
    · rw [List.map_cons, names_walk hmore, PathStep.name, Catalog.name_of_relation? hr]
    · rw [List.map_singleton, PathStep.name, Catalog.name_of_column? hc]

/-- The step that a resolved path ends in. -/
def Resolved.last : Resolved → PathStep
  | column _ _ c => .column c
  | relation _ _ _ _ r target => .relation r target

theorem Resolved.type_last (res : Resolved) : res.last.type = res.type := by
  cases res <;> rfl

theorem JoinPlan.follow_last {usage : Usage} {steps : List PathStep} {plan plan' : JoinPlan} {hops : List Hop}
    {path tableAlias : String} {table : Table} {res : Resolved}
    (h : plan.follow usage hops path tableAlias table steps = some (res, plan')) :
    steps.getLast? = some res.last := by
  fun_induction JoinPlan.follow plan usage hops path tableAlias table steps with
  | case1 => simp at h
  | case2 => cases h; rfl
  | case3 => cases h; rfl
  | case4 p hops path tableAlias table r target rest hne hop p' hcross ih =>
    rw [List.getLast?_cons_of_ne_nil (by simpa using hne)]
    exact ih h
  | case5 => simp at h

theorem JoinPlan.follow_isSome {usage : Usage} {steps : List PathStep} {plan : JoinPlan} {hops : List Hop}
    {path tableAlias : String} {table : Table} (hne : steps ≠ [])
    (hcol : ∀ before c rest, steps = before ++ .column c :: rest → rest = []) :
    (plan.follow usage hops path tableAlias table steps).isSome = true := by
  fun_induction JoinPlan.follow plan usage hops path tableAlias table steps with
  | case1 => exact absurd rfl hne
  | case2 => rfl
  | case3 => rfl
  | case4 p hops path tableAlias table r target rest hrest hop p' hcross ih =>
    refine ih (by simpa using hrest) fun before c more h => ?_
    exact hcol (.relation r target :: before) c more (by simp [h])
  | case5 p hops path tableAlias table c rest hrest =>
    exact absurd (hcol [] c rest rfl) (by simpa using hrest)

namespace Setting

variable {s : Setting} {plan plan' : JoinPlan} {path : Path} {usage : Usage} {res : Resolved}

theorem resolve?_eq_some {found : Resolved × JoinPlan} :
    s.resolve? plan path usage = some found ↔
      ∃ steps, walk s.catalog s.root path.segments = some steps ∧
        plan.follow usage [] "" plan.root s.root steps = some found := by
  unfold resolve?
  cases walk s.catalog s.root path.segments <;> simp

/-- A resolved path leads to cells of the type that the catalog gives. -/
theorem typeAt?_of_resolve? (h : s.resolve? plan path usage = some (res, plan')) : s.typeAt? path = some res.type := by
  obtain ⟨steps, hw, hfollow⟩ := resolve?_eq_some.mp h
  simp [typeAt?, Catalog.typeAt?, hw, JoinPlan.follow_last hfollow, res.type_last]

/-- A resolved path ends in the last step of its walk. -/
theorem last_of_resolve? (h : s.resolve? plan path usage = some (res, plan')) :
    (walk s.catalog s.root path.segments).bind List.getLast? = some res.last := by
  obtain ⟨steps, hw, hfollow⟩ := resolve?_eq_some.mp h
  rw [hw, Option.bind_some, JoinPlan.follow_last hfollow]

/-- Resolving fails on the paths that lead nowhere, whatever has been planned. -/
theorem resolve?_eq_none_iff : s.resolve? plan path usage = none ↔ s.typeAt? path = none := by
  unfold resolve? typeAt? Catalog.typeAt?
  cases hw : walk s.catalog s.root path.segments with
  | none => simp
  | some steps =>
    cases steps with
    | nil => simp [JoinPlan.follow]
    | cons first rest =>
      have h : (plan.follow usage [] "" plan.root s.root (first :: rest)).isSome = true :=
        JoinPlan.follow_isSome (List.cons_ne_nil first rest) fun before c more heq => walk_column (heq ▸ hw)
      obtain ⟨res, hres⟩ := Option.isSome_iff_exists.mp h
      simp [hres]

theorem unresolved_eq_ok {d d' : Draft} {path : Path} :
    s.unresolved d path = .ok d' ↔
      s.options.pathPolicy = .lenient ∧ d' = { d with skipped := d.skipped ++ [path.text] } := by
  unfold unresolved
  cases s.options.pathPolicy <;> simp [eq_comm]

theorem plan_unresolved {d d' : Draft} {path : Path} (h : s.unresolved d path = .ok d') : d'.plan = d.plan := by
  obtain ⟨-, rfl⟩ := unresolved_eq_ok.mp h
  rfl

end Setting

/-! ### Paths that may be dropped -/

/-- Goes on with what a path leads to, or drops the path. -/
def Setting.resolveThen {α : Type} (s : Setting) (usage : Usage) (path : Path)
    (next : JoinPlan → Resolved → Except CompileError (α × JoinPlan)) (d : Draft) :
    Except CompileError (Option α × Draft) :=
  match s.resolve? d.plan path usage with
  | none => (s.unresolved d path).map (none, ·)
  | some (res, plan) => (next plan res).map fun r => (some r.1, { d with plan := r.2 })

theorem Setting.resolveThen_eq_ok {α : Type} {s : Setting} {usage : Usage} {path : Path}
    {next : JoinPlan → Resolved → Except CompileError (α × JoinPlan)} {d d' : Draft} {a : Option α} :
    s.resolveThen usage path next d = .ok (a, d') ↔
      (s.typeAt? path = none ∧ a = none ∧ s.unresolved d path = .ok d') ∨
      ∃ res plan b plan', s.resolve? d.plan path usage = some (res, plan) ∧ next plan res = .ok (b, plan') ∧
        a = some b ∧ d' = { d with plan := plan' } := by
  unfold resolveThen
  cases h : s.resolve? d.plan path usage with
  | none =>
    simp only [map_eq_ok, Prod.mk.injEq, resolve?_eq_none_iff.mp h, true_and]
    constructor
    · rintro ⟨d₁, hun, rfl, rfl⟩
      exact Or.inl ⟨rfl, hun⟩
    · rintro (⟨rfl, hun⟩ | ⟨_, _, _, _, ⟨⟩, -⟩)
      exact ⟨d', hun, rfl, rfl⟩
  | some r =>
    obtain ⟨res, plan⟩ := r
    have htype : s.typeAt? path ≠ none := by simp [typeAt?_of_resolve? h]
    simp only [map_eq_ok, Prod.mk.injEq, htype, false_and, false_or, Option.some.injEq]
    constructor
    · rintro ⟨⟨b, plan'⟩, hnext, rfl, rfl⟩
      exact ⟨res, plan, b, plan', ⟨rfl, rfl⟩, hnext, rfl, rfl⟩
    · rintro ⟨_, _, b, plan', ⟨rfl, rfl⟩, hnext, rfl, rfl⟩
      exact ⟨⟨b, plan'⟩, hnext, rfl, rfl⟩

/-! ### Predicates -/

/-- The test of a predicate whose path leads somewhere, and the plan after it. -/
def Predicate.testOf (p : Predicate) (usage : Usage) (plan : JoinPlan) :
    Resolved → Except CompileError (Test × JoinPlan)
  | .column _ tableAlias column => (p.columnTest ⟨tableAlias, column.name⟩ column.type).map (·, plan)
  | .relation _ parentPath parentAlias _ r target =>
    match p.op with
    | .count c =>
      if !r.isMany then .error (.notToMany p.path p.op)
      else (p.countTest c (r.links target) plan.scratch.1 ⟨parentAlias, r.joinKey⟩).map (·, plan.scratch.2)
    | .eqSet =>
      if !r.isMany then .error (.notToMany p.path p.op)
      else
        (p.setTest target.primaryType (r.links target) plan.scratch.1 ⟨parentAlias, r.joinKey⟩).map
          (·, plan.scratch.2)
    | _ =>
      let crossed := plan.cross parentPath parentAlias r target usage
      (p.columnTest ⟨crossed.1.tableAlias, target.primaryKey⟩ target.primaryType).map (·, crossed.2)

theorem Predicate.testOf_column_eq_ok {p : Predicate} {usage : Usage} {plan plan' : JoinPlan} {hops : List Hop}
    {tableAlias : String} {column : Column} {t : Test} :
    p.testOf usage plan (.column hops tableAlias column) = .ok (t, plan') ↔
      p.columnTest ⟨tableAlias, column.name⟩ column.type = .ok t ∧ plan' = plan :=
  map_pair_eq_ok

/-- The test of a predicate on a relation looks at its links, which takes a relation to many and joins nothing, or is
of the keys of the related records, which joins them. -/
theorem Predicate.testOf_relation_eq_ok {p : Predicate} {usage : Usage} {plan plan' : JoinPlan} {hops : List Hop}
    {parentPath parentAlias : String} {parent target : Table} {r : Relation} {t : Test} :
    p.testOf usage plan (.relation hops parentPath parentAlias parent r target) = .ok (t, plan') ↔
      (∃ c, p.op = .count c ∧ r.isMany = true ∧
        p.countTest c (r.links target) plan.scratch.1 ⟨parentAlias, r.joinKey⟩ = .ok t ∧ plan' = plan.scratch.2) ∨
      (p.op = .eqSet ∧ r.isMany = true ∧
        p.setTest target.primaryType (r.links target) plan.scratch.1 ⟨parentAlias, r.joinKey⟩ = .ok t ∧
        plan' = plan.scratch.2) ∨
      p.columnTest ⟨(plan.cross parentPath parentAlias r target usage).1.tableAlias, target.primaryKey⟩
          target.primaryType = .ok t ∧ plan' = (plan.cross parentPath parentAlias r target usage).2 := by
  obtain ⟨path, op, operand⟩ := p
  cases op with
  | count c => cases hmany : r.isMany <;> simp [testOf, columnTest, hmany, map_pair_eq_ok]
  | eqSet => cases hmany : r.isMany <;> simp [testOf, columnTest, hmany, map_pair_eq_ok]
  | _ => simp [testOf, map_pair_eq_ok]

/-- A predicate is dropped, or its test is that of what its path leads to. -/
theorem Predicate.compile_eq (s : Setting) (usage : Usage) (p : Predicate) (d : Draft) :
    p.compile s usage d = s.resolveThen usage p.path (p.testOf usage) d := by
  unfold compile Setting.resolveThen
  cases s.resolve? d.plan p.path usage with
  | none =>
    show (s.unresolved d p.path >>= _) = _
    cases s.unresolved d p.path <;> rfl
  | some r =>
    obtain ⟨res, plan⟩ := r
    cases res with
    | column hops tableAlias column =>
      simp only [testOf]
      cases p.columnTest ⟨tableAlias, column.name⟩ column.type <;> rfl
    | relation hops parentPath parentAlias parent r target =>
      obtain ⟨path, op, operand⟩ := p
      cases op with
      | count c =>
        simp only [testOf]
        split
        · rfl
        · cases countTest ⟨path, .count c, operand⟩ c (r.links target) plan.scratch.1 ⟨parentAlias, r.joinKey⟩ <;> rfl
      | eqSet =>
        simp only [testOf]
        split
        · rfl
        · cases setTest ⟨path, .eqSet, operand⟩ target.primaryType (r.links target) plan.scratch.1
            ⟨parentAlias, r.joinKey⟩ <;> rfl
      | _ =>
        simp only [testOf]
        cases columnTest _ ⟨(plan.cross parentPath parentAlias r target usage).1.tableAlias, target.primaryKey⟩
          target.primaryType <;> rfl

/-- What it takes for a predicate to compile. -/
theorem Predicate.compile_eq_ok {s : Setting} {usage : Usage} {p : Predicate} {d d' : Draft} {t : Option Test} :
    p.compile s usage d = .ok (t, d') ↔
      (s.typeAt? p.path = none ∧ t = none ∧ s.unresolved d p.path = .ok d') ∨
      ∃ res plan test plan', s.resolve? d.plan p.path usage = some (res, plan) ∧
        p.testOf usage plan res = .ok (test, plan') ∧ t = some test ∧ d' = { d with plan := plan' } := by
  rw [compile_eq]
  exact Setting.resolveThen_eq_ok

/-! ### Filters -/

namespace Filter

variable {s : Setting} {usage : Usage} {d d' : Draft} {c : Option Condition} {parts : List Condition}

theorem compile_all_eq_ok {children : List Filter} :
    (all children).compile s usage d = .ok (c, d') ↔
      ∃ parts, compileAll s usage children d = .ok (parts, d') ∧ c = groupOf .and parts := by
  simp only [compile, bind_eq_ok, pure_eq_ok, Prod.mk.injEq, Prod.exists]
  constructor
  · rintro ⟨parts, _, h, rfl, rfl⟩
    exact ⟨parts, h, rfl⟩
  · rintro ⟨parts, h, rfl⟩
    exact ⟨parts, _, h, rfl, rfl⟩

theorem compile_any_eq_ok {children : List Filter} :
    (any children).compile s usage d = .ok (c, d') ↔
      ∃ parts, compileAll s usage children d = .ok (parts, d') ∧ c = groupOf .or parts := by
  simp only [compile, bind_eq_ok, pure_eq_ok, Prod.mk.injEq, Prod.exists]
  constructor
  · rintro ⟨parts, _, h, rfl, rfl⟩
    exact ⟨parts, h, rfl⟩
  · rintro ⟨parts, h, rfl⟩
    exact ⟨parts, _, h, rfl, rfl⟩

theorem compile_not_eq_ok {child : Filter} :
    (not child).compile s usage d = .ok (c, d') ↔
      ∃ part, child.compile s usage d = .ok (part, d') ∧ c = part.map .not := by
  simp only [compile, bind_eq_ok, pure_eq_ok, Prod.mk.injEq, Prod.exists]
  constructor
  · rintro ⟨part, _, h, rfl, rfl⟩
    exact ⟨part, h, rfl⟩
  · rintro ⟨part, h, rfl⟩
    exact ⟨part, _, h, rfl, rfl⟩

theorem compile_leaf_eq_ok {p : Predicate} :
    (leaf p).compile s usage d = .ok (c, d') ↔
      ∃ test, p.compile s usage d = .ok (test, d') ∧ c = test.map .test := by
  simp only [compile, bind_eq_ok, pure_eq_ok, Prod.mk.injEq, Prod.exists]
  constructor
  · rintro ⟨test, _, h, rfl, rfl⟩
    exact ⟨test, h, rfl⟩
  · rintro ⟨test, h, rfl⟩
    exact ⟨test, _, h, rfl, rfl⟩

theorem compileAll_nil_eq_ok : compileAll s usage [] d = .ok (parts, d') ↔ parts = [] ∧ d' = d := by
  simp [compileAll, eq_comm]

theorem compileAll_cons_eq_ok {node : Filter} {rest : List Filter} :
    compileAll s usage (node :: rest) d = .ok (parts, d') ↔
      ∃ c d₁ more, node.compile s usage d = .ok (c, d₁) ∧ compileAll s usage rest d₁ = .ok (more, d') ∧
        parts = c.toList ++ more := by
  simp only [compileAll, bind_eq_ok, pure_eq_ok, Prod.mk.injEq, Prod.exists]
  constructor
  · rintro ⟨c, d₁, hnode, more, _, hrest, rfl, rfl⟩
    exact ⟨c, d₁, more, hnode, hrest, rfl⟩
  · rintro ⟨c, d₁, more, hnode, hrest, rfl⟩
    exact ⟨c, d₁, hnode, more, _, hrest, rfl, rfl⟩

end Filter

/-! ### Fields -/

namespace Projection

variable {s : Setting} {d d' : Draft}

/-- The projection with what a path stands for, unless the path is dropped, and the plan either way. -/
def addition (s : Setting) (path : Path) (p : Projection) (plan : JoinPlan) : Option Projection × JoinPlan :=
  if path.isWildcard then
    if path.parent.isEmpty then
      let added := addAll s [] plan.root "" s.root p plan
      (some added.1, added.2)
    else
      match s.resolve? plan path.parent .forProjection with
      | some (.relation hops parentPath parentAlias _ r target, plan) =>
        let crossed := plan.cross parentPath parentAlias r target .forProjection
        let added := addAll s (hops ++ [crossed.1]) crossed.1.tableAlias crossed.1.path target p crossed.2
        (some added.1, added.2)
      | some (.column .., plan) => (none, plan)
      | none => (none, plan)
  else
    match s.resolve? plan path .forProjection with
    | some (.column hops tableAlias column, plan) => (some (p.addField hops tableAlias column), plan)
    | some (.relation hops parentPath parentAlias _ r target, plan) =>
      let crossed := plan.cross parentPath parentAlias r target .forProjection
      (some (p.addRecords (hops ++ [crossed.1])), crossed.2)
    | none => (none, plan)

/-- A path is added, or dropped once its joins are planned. -/
theorem addPath_eq (s : Setting) (path : Path) (p : Projection) (d : Draft) :
    addPath s path p d =
      match addition s path p d.plan with
      | (some p', plan) => .ok (p', { d with plan })
      | (none, plan) => s.unresolved { d with plan } path >>= fun d => .ok (p, d) := by
  unfold addPath addWildcard addition
  by_cases hw : path.isWildcard = true
  · rw [if_pos hw, if_pos hw]
    by_cases he : path.parent.isEmpty = true
    · rw [if_pos he, if_pos he]
    · rw [if_neg he, if_neg he]
      rcases s.resolve? d.plan path.parent .forProjection with - | ⟨- | -, plan⟩ <;> rfl
  · rw [if_neg hw, if_neg hw]
    rcases s.resolve? d.plan path .forProjection with - | ⟨- | -, plan⟩ <;> rfl

/-- What it takes for a path of a field list to compile. -/
theorem addPath_eq_ok {path : Path} {p p' : Projection} :
    addPath s path p d = .ok (p', d') ↔
      (∃ plan, addition s path p d.plan = (none, plan) ∧ p' = p ∧ s.unresolved { d with plan } path = .ok d') ∨
      ∃ plan, addition s path p d.plan = (some p', plan) ∧ d' = { d with plan } := by
  rw [addPath_eq]
  rcases addition s path p d.plan with ⟨- | added, plan⟩
  · simp only [bind_eq_ok, Except.ok.injEq, Prod.mk.injEq, true_and, reduceCtorEq, false_and, exists_false, or_false]
    constructor
    · rintro ⟨d₁, hun, rfl, rfl⟩
      exact ⟨plan, rfl, rfl, hun⟩
    · rintro ⟨_, rfl, rfl, hun⟩
      exact ⟨d', hun, rfl, rfl⟩
  · simp only [Except.ok.injEq, Prod.mk.injEq, reduceCtorEq, false_and, exists_false, false_or, Option.some.injEq]
    constructor
    · rintro ⟨rfl, rfl⟩
      exact ⟨plan, ⟨rfl, rfl⟩, rfl⟩
    · rintro ⟨_, ⟨rfl, rfl⟩, rfl⟩
      exact ⟨rfl, rfl⟩

/-- What it takes for a field list to compile. -/
theorem ofFields_eq_ok {fields : List Path} {d d' : Draft} {p : Projection} :
    ofFields s fields d = .ok (p, d') ↔
      ∃ q, addPaths s (if fields.isEmpty then [⟨["*"]⟩] else fields) (start d.plan.root s.root) d = .ok (q, d') ∧
        p = { q with deferred := keepDeferred q.shape [] q.deferred } := by
  simp only [ofFields, bind_eq_ok, pure_eq_ok, Prod.mk.injEq, Prod.exists]
  constructor
  · rintro ⟨q, _, h, rfl, rfl⟩
    exact ⟨q, h, rfl⟩
  · rintro ⟨q, h, rfl⟩
    exact ⟨q, _, h, rfl, rfl⟩

end Projection

/-! ### Sort keys -/

/-- The column that a term with a path that leads somewhere orders by, and the plan after it. -/
def SortTerm.keyOf (t : SortTerm) (plan : JoinPlan) (res : Resolved) : Except CompileError (Sql.ColumnRef × JoinPlan) :=
  if res.throughMany then .error (.invalidSort t.path .throughMany)
  else
    match res with
    | .column _ tableAlias column => .ok (⟨tableAlias, column.name⟩, plan)
    | .relation _ parentPath parentAlias _ r target =>
      if r.isMany then .error (.invalidSort t.path .isMany)
      else
        let crossed := plan.cross parentPath parentAlias r target .forSort
        .ok (⟨crossed.1.tableAlias, target.primaryKey⟩, crossed.2)

/-- A term that ends in a column orders by it, and crosses no relation to many. -/
theorem SortTerm.keyOf_column_eq_ok {t : SortTerm} {plan plan' : JoinPlan} {hops : List Hop} {tableAlias : String}
    {column : Column} {ref : Sql.ColumnRef} :
    t.keyOf plan (.column hops tableAlias column) = .ok (ref, plan') ↔
      Resolved.throughMany (.column hops tableAlias column) = false ∧ ref = ⟨tableAlias, column.name⟩ ∧ plan' = plan := by
  cases hmany : Resolved.throughMany (.column hops tableAlias column) <;>
    simp [keyOf, hmany, @eq_comm _ ref, @eq_comm _ plan']

/-- A term that ends in a relation orders by the key of the related record, and neither crosses a relation to many nor
ends in one. -/
theorem SortTerm.keyOf_relation_eq_ok {t : SortTerm} {plan plan' : JoinPlan} {hops : List Hop}
    {parentPath parentAlias : String} {parent target : Table} {r : Relation} {ref : Sql.ColumnRef} :
    t.keyOf plan (.relation hops parentPath parentAlias parent r target) = .ok (ref, plan') ↔
      Resolved.throughMany (.relation hops parentPath parentAlias parent r target) = false ∧ r.isMany = false ∧
        ref = ⟨(plan.cross parentPath parentAlias r target .forSort).1.tableAlias, target.primaryKey⟩ ∧
        plan' = (plan.cross parentPath parentAlias r target .forSort).2 := by
  cases hmany : Resolved.throughMany (.relation hops parentPath parentAlias parent r target) <;>
    cases hr : r.isMany <;> simp [keyOf, hmany, hr, @eq_comm _ ref, @eq_comm _ plan']

/-- A sort term is dropped, or its key is that of what its path leads to. -/
theorem SortTerm.compile_eq (s : Setting) (t : SortTerm) (d : Draft) :
    t.compile s d = s.resolveThen .forSort t.path t.keyOf d := by
  unfold compile Setting.resolveThen
  cases s.resolve? d.plan t.path .forSort with
  | none =>
    show (s.unresolved d t.path >>= _) = _
    cases s.unresolved d t.path <;> rfl
  | some r =>
    obtain ⟨res, plan⟩ := r
    simp only [keyOf]
    split
    · rfl
    · cases res with
      | column => rfl
      | relation hops parentPath parentAlias parent r target =>
        simp only
        split <;> rfl

/-- What it takes for a sort term to compile. -/
theorem SortTerm.compile_eq_ok {s : Setting} {t : SortTerm} {d d' : Draft} {column : Option Sql.ColumnRef} :
    t.compile s d = .ok (column, d') ↔
      (s.typeAt? t.path = none ∧ column = none ∧ s.unresolved d t.path = .ok d') ∨
      ∃ res plan key plan', s.resolve? d.plan t.path .forSort = some (res, plan) ∧
        t.keyOf plan res = .ok (key, plan') ∧ column = some key ∧ d' = { d with plan := plan' } := by
  rw [compile_eq]
  exact Setting.resolveThen_eq_ok

namespace SortKey

variable {s : Setting} {d d' : Draft}

/-- What it takes for a sort list to compile. -/
theorem compileAll_cons_eq_ok {t : SortTerm} {rest : List SortTerm} {keys keys' : List SortKey} :
    compileAll s (t :: rest) keys d = .ok (keys', d') ↔
      ∃ column d₁, t.compile s d = .ok (column, d₁) ∧
        compileAll s rest (column.elim keys fun c => insert keys ⟨c, t.descending⟩) d₁ = .ok (keys', d') := by
  simp only [compileAll, bind_eq_ok, Prod.exists]
  constructor
  · rintro ⟨column, d₁, hterm, h⟩
    exact ⟨column, d₁, hterm, by cases column <;> exact h⟩
  · rintro ⟨column, d₁, hterm, h⟩
    exact ⟨column, d₁, hterm, by cases column <;> exact h⟩

theorem listOf_eq_ok {terms : List SortTerm} {keys : List SortKey} :
    listOf s terms d = .ok (keys, d') ↔
      ∃ own, compileAll s terms [] d = .ok (own, d') ∧
        keys = insert own ⟨⟨d'.plan.root, s.root.primaryKey⟩, false⟩ := by
  simp only [listOf, bind_eq_ok, pure_eq_ok, Prod.mk.injEq, Prod.exists]
  constructor
  · rintro ⟨own, _, h, rfl, rfl⟩
    exact ⟨own, h, rfl⟩
  · rintro ⟨own, h, rfl⟩
    exact ⟨own, _, h, rfl, rfl⟩

end SortKey

/-! ### Aggregates -/

/-- The target of an aggregate is the key of all records, a column that can be aggregated, or the keys of the related
records, which are joined and counted once each. -/
theorem AggregateRequest.target_inv {s : Setting} {r : AggregateRequest} {plan plan' : JoinPlan}
    {call : AggregateCall} (h : r.target s plan = .ok (call, plan')) :
    (r.ofRecords = true ∧ r.function = .count ∧ call = ⟨r.function, ⟨plan.root, s.root.primaryKey⟩, false⟩ ∧
      plan' = plan) ∨
    r.ofRecords = false ∧
      ((∃ hops tableAlias column,
        s.resolve? plan r.path .forAggregate = some (.column hops tableAlias column, plan') ∧
        (r.function = .count ∨ (column.type.isNumeric || column.type.isTemporal) = true) ∧
        call = ⟨r.function, ⟨tableAlias, column.name⟩, false⟩) ∨
      ∃ hops parentPath parentAlias parent relation target plan₁,
        s.resolve? plan r.path .forAggregate =
          some (.relation hops parentPath parentAlias parent relation target, plan₁) ∧
        r.function = .count ∧
        call = ⟨r.function,
          ⟨(plan₁.cross parentPath parentAlias relation target .forAggregate).1.tableAlias, target.primaryKey⟩, true⟩ ∧
        plan' = (plan₁.cross parentPath parentAlias relation target .forAggregate).2) := by
  unfold target at h
  split at h
  case isTrue hrecords =>
    split at h
    case isTrue => cases h
    case isFalse hcount =>
      cases h
      exact .inl ⟨hrecords, Decidable.not_not.mp hcount, rfl, rfl⟩
  case isFalse hrecords =>
    refine .inr ⟨eq_false_of_ne_true hrecords, ?_⟩
    split at h
    · cases h
    · split at h
      case isTrue => cases h
      case isFalse hres hcolumn =>
        cases h
        refine .inl ⟨_, _, _, hres, ?_, rfl⟩
        by_cases hcount : r.function = .count
        · exact .inl hcount
        · exact .inr (by simpa [hcount, Decidable.or_iff_not_imp_left] using hcolumn)
    · split at h
      case isTrue => cases h
      case isFalse hres hcount =>
        cases h
        exact .inr ⟨_, _, _, _, _, _, _, hres, Decidable.not_not.mp hcount, rfl, rfl⟩
/-- An aggregate is its target and its condition, compiled one after the other while the joins are recorded. -/
theorem AggregateRequest.compile_eq_ok {s : Setting} {r : AggregateRequest} {d d' : Draft} {term : AggregateTerm} :
    r.compile s d = .ok (term, d') ↔
      ∃ call plan condition d₁, r.target s d.plan.record = .ok (call, plan) ∧
        Filter.compileJson s .forAggregate (r.condition.getD .null) { d with plan := plan.recorded.2.record } =
          .ok (condition, d₁) ∧
        term = ⟨call, condition, r.label, plan.recorded.1, d₁.plan.recorded.1⟩ ∧
        d' = { d₁ with plan := d₁.plan.recorded.2 } := by
  simp only [compile, bind_eq_ok, pure_eq_ok, Prod.mk.injEq, Prod.exists]
  constructor
  · rintro ⟨call, plan, htarget, condition, d₁, hcondition, rfl, rfl⟩
    exact ⟨call, plan, condition, d₁, htarget, hcondition, rfl, rfl⟩
  · rintro ⟨call, plan, condition, d₁, htarget, hcondition, rfl, rfl⟩
    exact ⟨call, plan, htarget, condition, d₁, hcondition, rfl, rfl⟩

theorem AggregateRequest.compileAll_cons_eq_ok {s : Setting} {r : AggregateRequest} {rest : List AggregateRequest}
    {d d' : Draft} {terms : List AggregateTerm} :
    compileAll s (r :: rest) d = .ok (terms, d') ↔
      ∃ term d₁ more, r.compile s d = .ok (term, d₁) ∧ compileAll s rest d₁ = .ok (more, d') ∧
        terms = term :: more := by
  simp only [compileAll, bind_eq_ok, pure_eq_ok, Prod.mk.injEq, Prod.exists]
  constructor
  · rintro ⟨term, d₁, hterm, more, _, hrest, rfl, rfl⟩
    exact ⟨term, d₁, more, hterm, hrest, rfl⟩
  · rintro ⟨term, d₁, more, hterm, hrest, rfl⟩
    exact ⟨term, d₁, hterm, more, _, hrest, rfl, rfl⟩

/-! ### Plans -/

/-- The plan of compiled parts. -/
def CompiledParts.plan (c : CompiledParts) (s : Setting) (counts : CountMode) (window : Window) : FindPlan where
  table := s.root.name
  projection := c.projection
  data := c.rowQuery s window
  window
  totalCount := if counts.total then some (.all s.root.name) else none
  filterCount := if counts.filtered then some (c.countQuery s) else none
  aggregate := c.aggregateQuery s
  skipped := c.draft.skipped

/-- A page is taken of the rows, or of the root keys under the filter of the rows. -/
theorem CompiledParts.rowQuery_paging (c : CompiledParts) (s : Setting) (window : Window) :
    (c.rowQuery s window).paging = .rows window ∨
      (c.rowQuery s window).paging =
        .keys ⟨c.rootKey s, c.source s (c.draft.plan.joinsFor (Usage.forFilter.union .forSort)), c.filter, c.sort,
          window⟩ := by
  unfold rowQuery
  by_cases h : (window.limit.isSome && c.draft.plan.hasMany .forRows) = true
  · exact Or.inr (if_pos h)
  · exact Or.inl (if_neg h)

/-- An aggregate takes in the records that meet its condition, or the rows that do. -/
theorem CompiledParts.aggregateSelect_eq (c : CompiledParts) (s : Setting) (t : AggregateTerm) :
    c.aggregateSelect s t =
        ⟨t.call, .within ⟨c.rootKey s, c.source s (c.draft.plan.joinsAt t.conditionJoins), t.condition⟩,
          c.source s (c.draft.plan.joinsAt t.targetJoins), c.filtered s, t.label⟩ ∨
      c.aggregateSelect s t =
        ⟨t.call, .meeting t.condition, c.source s (c.draft.plan.joinsAt (t.targetJoins ++ t.conditionJoins)),
          c.filtered s, t.label⟩ := by
  unfold aggregateSelect
  by_cases h : (!t.condition.isEmpty && !c.draft.plan.anyMany t.targetJoins &&
      c.draft.plan.anyMany t.conditionJoins) = true
  · exact Or.inl (if_pos h)
  · exact Or.inr (if_neg h)

/-- What it takes for the parts of a request to compile. -/
theorem CompiledParts.compile_eq_ok {s : Setting} {request : FindRequest} {aggregates : List AggregateRequest}
    {c : CompiledParts} :
    CompiledParts.compile s request aggregates = .ok c ↔
      ∃ d₁ d₂ d₃,
        Projection.ofFields s (Path.listOf request.fields) ⟨.start s.options.rootAlias, []⟩ =
          .ok (c.projection, d₁) ∧
        Filter.compileJson s .forFilter request.filter d₁ = .ok (c.filter, d₂) ∧
        SortKey.listOf s (SortTerm.listOf request.sort) d₂ = .ok (c.sort, d₃) ∧
        AggregateRequest.compileAll s aggregates d₃ = .ok (c.aggregates, c.draft) := by
  obtain ⟨projection, filter, sort, aggs, draft⟩ := c
  simp only [compile, bind_eq_ok, pure, Except.pure, Except.ok.injEq, CompiledParts.mk.injEq, Prod.exists]
  constructor
  · rintro ⟨p, d₁, h₁, f, d₂, h₂, k, d₃, h₃, a, d₄, h₄, rfl, rfl, rfl, rfl, rfl⟩
    exact ⟨d₁, d₂, d₃, h₁, h₂, h₃, h₄⟩
  · rintro ⟨d₁, d₂, d₃, h₁, h₂, h₃, h₄⟩
    exact ⟨projection, d₁, h₁, filter, d₂, h₂, sort, d₃, h₃, aggs, draft, h₄, rfl, rfl, rfl, rfl, rfl⟩

/-- What it takes for a request to compile. -/
theorem FindPlan.compile_eq_ok {catalog : Catalog} {table : String} {request : FindRequest} {options : CompileOptions}
    {p : FindPlan} :
    FindPlan.compile catalog table request options = .ok p ↔
      ∃ counts aggregates s c,
        CountMode.ofText request.counts = .ok counts ∧
        AggregateRequest.ofJson request.aggregate = .ok aggregates ∧
        setting catalog table options = .ok s ∧
        CompiledParts.compile s request aggregates = .ok c ∧
        p = c.plan s counts (Window.ofPage request.page request.limit options.defaultLimit) := by
  simp only [compile, bind_eq_ok, pure, Except.pure, Except.ok.injEq]
  constructor
  · rintro ⟨counts, h₁, aggregates, h₂, s, h₃, c, h₄, rfl⟩
    exact ⟨counts, aggregates, s, c, h₁, h₂, h₃, h₄, rfl⟩
  · rintro ⟨counts, aggregates, s, c, h₁, h₂, h₃, h₄, rfl⟩
    exact ⟨counts, h₁, aggregates, h₂, s, h₃, c, h₄, rfl⟩

/-- A compilation reads the catalog and the options that it was given, and the table of the name. -/
theorem FindPlan.setting_eq_ok {catalog : Catalog} {table : String} {options : CompileOptions} {s : Setting} :
    setting catalog table options = .ok s ↔
      options.check = .ok () ∧ ∃ root, catalog.table? table = some root ∧ s = ⟨catalog, root, options⟩ := by
  simp only [setting, bind_eq_ok]
  cases catalog.table? table with
  | none => simp
  | some root =>
    constructor
    · rintro ⟨⟨⟩, hcheck, ⟨⟩⟩
      exact ⟨hcheck, root, rfl, rfl⟩
    · rintro ⟨hcheck, _, ⟨⟩, rfl⟩
      exact ⟨(), hcheck, rfl⟩

/-! ### A catalog to try things on -/

/-- Posts with an author and tags. -/
def Catalog.blog : Catalog where
  tables :=
    [{ Table.start "posts" with
        columns := [⟨"id", .int, false⟩, ⟨"title", .text, false⟩, ⟨"open?", .bool, false⟩, ⟨"authorId", .int, true⟩]
        relations :=
          [.direct "author" .one "authors" "authorId" "id", .through "tags" "tags" "posts_tags" "postId" "tagId"] },
      { Table.start "authors" with
        columns := [⟨"id", .int, false⟩, ⟨"name", .text, false⟩]
        relations := [.direct "posts" .many "posts" "id" "authorId"] },
      (Table.start "tags").addColumn "label" .text false]
  sound := by decide +kernel

/-- A request for posts that joins, counts links, drops a path and pages by keys. -/
def FindRequest.sample : FindRequest where
  filter := .obj [("author", .obj [("name", .obj [("contains", .str "x")])]), ("nowhere", .int 1),
    ("or", .arr [.obj [("open?", .bool true)], .obj [("tags", .obj [("_eq_set", .str "1, 2, 1")])]])]
  fields := ["title", "tags.label"]
  sort := ["-author.name"]
  page := none
  limit := some 5
  counts := some "*"
  aggregate := .obj [("count", .obj [("field", .str "tags"), ("condition", .obj [("id", .obj [("gt", .int 3)])])])]

end RecordService
