import RecordService.Proofs.Plan.Stages

/-! # Reported paths

Compiling a part of a request reads of the draft only the join plan, and adds to the dropped paths those of the part
that lead nowhere (`Draft.Adds`). The dropped paths of a plan are therefore those of its request, in the order of the
parts (`FindRequest.reported`). -/

namespace RecordService

/-! ### Which paths are reported -/

def PathStep.isRelation : PathStep → Bool
  | relation _ _ => true
  | column _ => false

namespace Setting

/-- Whether a path leads nowhere. -/
def loses (s : Setting) (path : Path) : Bool :=
  (s.typeAt? path).isNone

/-- Whether a path ends in a relation. -/
def opens (s : Setting) (path : Path) : Bool :=
  ((walk s.catalog s.root path.segments).bind List.getLast?).any (·.isRelation)

/-- Whether a path of the field list is dropped. What stands before `*` has to be a relation, or nothing. -/
def losesField (s : Setting) (path : Path) : Bool :=
  if path.isWildcard then !path.parent.isEmpty && !s.opens path.parent else s.loses path

/-- Whether a path is `*` below a column of a related table. It is dropped, but only once the relations before the
column are joined. -/
def strands (s : Setting) (path : Path) : Bool :=
  path.isWildcard && !s.loses path.parent && !s.opens path.parent && decide (1 < path.parent.segments.length)

/-- The texts of the paths that lead nowhere. -/
def reported (s : Setting) (paths : List Path) : List String :=
  (paths.filter s.loses).map Path.text

/-- The texts of the paths that are dropped from a field list. -/
def reportedFields (s : Setting) (fields : List Path) : List String :=
  (fields.filter s.losesField).map Path.text

variable {s : Setting}

theorem reported_cons (path : Path) (rest : List Path) :
    s.reported (path :: rest) = s.reported [path] ++ s.reported rest := by
  simp only [reported, ← List.map_append, ← List.filter_append, List.cons_append, List.nil_append]

theorem reportedFields_cons (path : Path) (rest : List Path) :
    s.reportedFields (path :: rest) = s.reportedFields [path] ++ s.reportedFields rest := by
  simp only [reportedFields, ← List.map_append, ← List.filter_append, List.cons_append, List.nil_append]

theorem reported_append (a b : List Path) : s.reported (a ++ b) = s.reported a ++ s.reported b := by
  simp [reported]

theorem reported_of_typeAt?_none {path : Path} (h : s.typeAt? path = none) : s.reported [path] = [path.text] := by
  simp [reported, loses, h]

theorem reported_of_typeAt?_some {path : Path} {type : ScalarType} (h : s.typeAt? path = some type) :
    s.reported [path] = [] := by
  simp [reported, loses, h]

end Setting

/-! ### What a path ends in -/

theorem JoinPlan.byPath_cross (p : JoinPlan) (path tableAlias : String) (r : Relation) (target : Table) (usage : Usage) :
    (p.cross path tableAlias r target usage).2.byPath ≠ [] := by
  unfold cross join
  cases hplace : p.index? (extendPath path r.name) with
  | none => simp [hplace]
  | some place =>
    intro hnil
    have hbyPath : p.byPath = [] := by
      simpa [hplace, touch] using hnil
    simp [index?, hbyPath] at hplace

theorem JoinPlan.byPath_follow {usage : Usage} {steps : List PathStep} {plan plan' : JoinPlan} {hops : List Hop}
    {path tableAlias : String} {table : Table} {res : Resolved}
    (h : plan.follow usage hops path tableAlias table steps = some (res, plan'))
    (hne : plan.byPath ≠ [] ∨ 1 < steps.length) : plan'.byPath ≠ [] := by
  fun_induction JoinPlan.follow plan usage hops path tableAlias table steps with
  | case1 => simp at h
  | case2 =>
    cases h
    simpa using hne
  | case3 =>
    cases h
    simpa using hne
  | case4 p hops path tableAlias table r target rest hrest hop p' hcross ih =>
    refine ih h (Or.inl ?_)
    rw [← show (p.cross path tableAlias r target usage).2 = p' from congrArg Prod.snd hcross]
    exact p.byPath_cross path tableAlias r target usage
  | case5 => simp at h

theorem length_of_walk {catalog : Catalog} {segments : List String} {table : Table} {steps : List PathStep}
    (h : walk catalog table segments = some steps) : steps.length = segments.length := by
  rw [← names_walk h, List.length_map]

namespace Setting

variable {s : Setting} {plan plan' : JoinPlan} {path : Path} {usage : Usage} {res : Resolved}

theorem opens_of_resolve? (h : s.resolve? plan path usage = some (res, plan')) :
    s.opens path = res.last.isRelation := by
  obtain ⟨steps, hw, hfollow⟩ := resolve?_eq_some.mp h
  rw [opens, hw, Option.bind_some, JoinPlan.follow_last hfollow]
  rfl

theorem resolve?_of_loses (h : s.loses path = true) : s.resolve? plan path usage = none :=
  resolve?_eq_none_iff.mpr (Option.isNone_iff_eq_none.mp h)

theorem opens_of_loses (h : s.typeAt? path = none) : s.opens path = false := by
  unfold typeAt? Catalog.typeAt? at h
  unfold opens
  cases hw : walk s.catalog s.root path.segments with
  | none => rfl
  | some steps =>
    rw [hw, Option.bind_some, Option.map_eq_none_iff] at h
    rw [Option.bind_some, h]
    rfl

/-- The only segment of a path is crossed by nobody. -/
theorem plan_of_resolve?_single (h : s.resolve? plan path usage = some (res, plan'))
    (hlen : path.segments.length ≤ 1) : plan' = plan := by
  obtain ⟨steps, hw, hfollow⟩ := resolve?_eq_some.mp h
  have hsteps := length_of_walk hw
  match steps with
  | [] => cases hfollow
  | [.column c] => cases hfollow; rfl
  | [.relation r target] => cases hfollow; rfl
  | first :: second :: rest =>
    simp only [List.length_cons] at hsteps
    omega

/-- A path of several segments is not resolved without one that is planned. -/
theorem byPath_of_resolve? (h : s.resolve? plan path usage = some (res, plan'))
    (hlen : 1 < path.segments.length) : plan'.byPath ≠ [] := by
  obtain ⟨steps, hw, hfollow⟩ := resolve?_eq_some.mp h
  exact JoinPlan.byPath_follow hfollow (Or.inr (by rwa [length_of_walk hw]))

end Setting

/-! ### What a stage adds -/

namespace Draft

/-- The stage reads of the draft only the join plan, and adds the texts to the dropped paths. -/
def Adds {α : Type} (stage : Draft → Except CompileError (α × Draft)) (texts : List String) : Prop :=
  ∀ ⦃d d' : Draft⦄ ⦃a : α⦄, stage d = .ok (a, d') →
    ∀ skipped, stage ⟨d.plan, skipped⟩ = .ok (a, ⟨d'.plan, skipped ++ texts⟩)

namespace Adds

variable {α β : Type} {stage : Draft → Except CompileError (α × Draft)} {texts more : List String} {d d' d₁ : Draft}
  {a : α}

theorem skipped (hs : Adds stage texts) (h : stage d = .ok (a, d')) : d'.skipped = d.skipped ++ texts := by
  have hsame := hs h d.skipped
  rw [show (⟨d.plan, d.skipped⟩ : Draft) = d from rfl, h] at hsame
  injection hsame with hsame
  rw [(Prod.mk.inj hsame).2]

/-- A stage does the same on drafts with the same plan. -/
theorem again (hs : Adds stage texts) (h : stage d = .ok (a, d')) (hplan : d₁.plan = d.plan) :
    ∃ d₁', stage d₁ = .ok (a, d₁') ∧ d₁'.plan = d'.plan := by
  refine ⟨⟨d'.plan, d₁.skipped ++ texts⟩, ?_, rfl⟩
  rw [← hs h d₁.skipped, ← hplan]

theorem done (a : α) : Adds (fun d => .ok (a, d)) [] := by
  rintro d d' _ ⟨⟩ skipped
  rw [List.append_nil]

theorem bind {next : α → Draft → Except CompileError (β × Draft)} (hs : Adds stage texts)
    (hn : ∀ a, Adds (next a) more) : Adds (fun d => stage d >>= fun x => next x.1 x.2) (texts ++ more) := by
  intro d d' b h skipped
  obtain ⟨⟨a, d₁⟩, hstage, hnext⟩ := bind_eq_ok.mp h
  refine bind_eq_ok.mpr ⟨_, hs hstage skipped, ?_⟩
  rw [← List.append_assoc]
  exact hn a hnext _

end Adds
end Draft

open Draft (Adds)

variable {s : Setting} {usage : Usage}

/-- A path that leads nowhere is all that is added. -/
theorem Setting.resolveThen_adds {α : Type} (s : Setting) {path : Path}
    {next : JoinPlan → Resolved → Except CompileError (α × JoinPlan)} :
    Adds (s.resolveThen usage path next) (s.reported [path]) := by
  intro d d' a h skipped
  rcases resolveThen_eq_ok.mp h with ⟨hlost, rfl, hun⟩ | ⟨res, plan, b, plan', hres, hnext, rfl, rfl⟩
  · obtain ⟨hpolicy, rfl⟩ := unresolved_eq_ok.mp hun
    rw [reported_of_typeAt?_none hlost]
    exact resolveThen_eq_ok.mpr (Or.inl ⟨hlost, rfl, unresolved_eq_ok.mpr ⟨hpolicy, rfl⟩⟩)
  · rw [reported_of_typeAt?_some (typeAt?_of_resolve? hres), List.append_nil]
    exact resolveThen_eq_ok.mpr (Or.inr ⟨res, plan, b, plan', hres, hnext, rfl, rfl⟩)

/-- A path that leads nowhere gives nothing, and no join. -/
theorem Setting.resolveThen_lost {α : Type} {path : Path}
    {next : JoinPlan → Resolved → Except CompileError (α × JoinPlan)} {d d' : Draft} {a : Option α}
    (hlost : s.loses path = true) (h : s.resolveThen usage path next d = .ok (a, d')) :
    a = none ∧ d'.plan = d.plan := by
  rcases resolveThen_eq_ok.mp h with ⟨-, rfl, hun⟩ | ⟨res, plan, b, plan', hres, -⟩
  · exact ⟨rfl, plan_unresolved hun⟩
  · rw [resolve?_of_loses hlost] at hres
    cases hres

/-! ### Filters -/

theorem Predicate.compile_adds (p : Predicate) : Adds (p.compile s usage) (s.reported [p.path]) := by
  intro d d' t h skipped
  rw [compile_eq] at h ⊢
  exact s.resolveThen_adds h skipped

namespace Filter

/-- The texts of the leaves that lead nowhere. -/
def reported (s : Setting) (nodes : List Filter) : List String :=
  s.reported ((leavesOfAll nodes).map (·.path))

theorem reported_cons (node : Filter) (rest : List Filter) :
    reported s (node :: rest) = s.reported (node.leaves.map (·.path)) ++ reported s rest := by
  rw [reported, leavesOfAll, List.map_append, Setting.reported_append, reported]

mutual

theorem compile_adds : ∀ node : Filter, Adds (node.compile s usage) (s.reported (node.leaves.map (·.path)))
  | all children => fun d d' c h skipped => by
    obtain ⟨parts, hparts, rfl⟩ := compile_all_eq_ok.mp h
    exact compile_all_eq_ok.mpr ⟨parts, compileAll_adds children hparts skipped, rfl⟩
  | any children => fun d d' c h skipped => by
    obtain ⟨parts, hparts, rfl⟩ := compile_any_eq_ok.mp h
    exact compile_any_eq_ok.mpr ⟨parts, compileAll_adds children hparts skipped, rfl⟩
  | not child => fun d d' c h skipped => by
    obtain ⟨part, hpart, rfl⟩ := compile_not_eq_ok.mp h
    exact compile_not_eq_ok.mpr ⟨part, compile_adds child hpart skipped, rfl⟩
  | leaf p => fun d d' c h skipped => by
    obtain ⟨test, htest, rfl⟩ := compile_leaf_eq_ok.mp h
    exact compile_leaf_eq_ok.mpr ⟨test, p.compile_adds htest skipped, rfl⟩

theorem compileAll_adds : ∀ nodes : List Filter, Adds (compileAll s usage nodes) (reported s nodes)
  | [] => fun d d' parts h skipped => by
    obtain ⟨rfl, rfl⟩ := compileAll_nil_eq_ok.mp h
    exact compileAll_nil_eq_ok.mpr ⟨rfl, by simp [reported, leavesOfAll, Setting.reported]⟩
  | node :: rest => fun d d' parts h skipped => by
    obtain ⟨c, d₁, more, hnode, hrest, rfl⟩ := compileAll_cons_eq_ok.mp h
    refine compileAll_cons_eq_ok.mpr ⟨c, _, more, compile_adds node hnode skipped, ?_, rfl⟩
    rw [reported_cons, ← List.append_assoc]
    exact compileAll_adds rest hrest _

end

/-- A filter document adds the paths of its predicates that lead nowhere. -/
theorem compileJson_adds (filter : Json) :
    Adds (compileJson s usage filter) (s.reported ((predicates filter).map (·.path))) := by
  intro d d' parts h skipped
  obtain ⟨nodes, hnodes, h⟩ := bind_eq_ok.mp h
  rw [← leavesOfAll_ofJson hnodes]
  exact bind_eq_ok.mpr ⟨nodes, hnodes, compileAll_adds nodes h skipped⟩

end Filter

/-! ### Fields -/

namespace Projection

theorem isNone_addition (path : Path) (p : Projection) (plan : JoinPlan) :
    (addition s path p plan).1.isNone = s.losesField path := by
  unfold addition Setting.losesField
  by_cases hw : path.isWildcard = true
  · rw [if_pos hw, if_pos hw]
    by_cases he : path.parent.isEmpty = true
    · simp [he]
    · rw [if_neg he, eq_false_of_ne_true he, Bool.not_false, Bool.true_and]
      cases hres : s.resolve? plan path.parent .forProjection with
      | none => rw [Setting.opens_of_loses (Setting.resolve?_eq_none_iff.mp hres)]; rfl
      | some r =>
        rw [Setting.opens_of_resolve? hres]
        rcases r with ⟨- | -, plan⟩ <;> rfl
  · rw [if_neg hw, if_neg hw, Setting.loses]
    cases hres : s.resolve? plan path .forProjection with
    | none => rw [Setting.resolve?_eq_none_iff.mp hres]; rfl
    | some r =>
      rw [Setting.typeAt?_of_resolve? hres]
      rcases r with ⟨- | -, plan⟩ <;> rfl

/-- A path that strands leaves a path planned. -/
theorem byPath_addition {path : Path} (hstrands : s.strands path = true) (p : Projection) (plan : JoinPlan) :
    (addition s path p plan).2.byPath ≠ [] := by
  simp only [Setting.strands, Bool.and_eq_true, Bool.not_eq_true', decide_eq_true_eq] at hstrands
  obtain ⟨⟨⟨hw, hfound⟩, hopens⟩, hlen⟩ := hstrands
  have hne : ¬path.parent.isEmpty = true := by
    intro he
    rw [List.isEmpty_iff.mp he] at hlen
    simp at hlen
  unfold addition
  rw [if_pos hw, if_neg hne]
  cases hres : s.resolve? plan path.parent .forProjection with
  | none => simp [Setting.loses, Setting.resolve?_eq_none_iff.mp hres] at hfound
  | some r =>
    have hplanned := Setting.byPath_of_resolve? hres hlen
    rw [Setting.opens_of_resolve? hres] at hopens
    obtain ⟨res, plan'⟩ := r
    cases res with
    | column hops tableAlias column => exact hplanned
    | relation => cases hopens

/-- Only a path that strands plans a join and is dropped. -/
theorem plan_addition {path : Path} {p : Projection} {plan : JoinPlan} (hlost : s.losesField path = true)
    (hstrands : s.strands path = false) : (addition s path p plan).2 = plan := by
  have hnone := isNone_addition (s := s) path p plan
  rw [hlost] at hnone
  unfold addition at hnone ⊢
  by_cases hw : path.isWildcard = true
  · rw [if_pos hw] at hnone ⊢
    by_cases he : path.parent.isEmpty = true
    · simp [he] at hnone
    · rw [if_neg he] at hnone ⊢
      cases hres : s.resolve? plan path.parent .forProjection with
      | none => rfl
      | some r =>
        have hopens := Setting.opens_of_resolve? hres
        have htype := Setting.typeAt?_of_resolve? hres
        obtain ⟨res, plan'⟩ := r
        cases res with
        | relation => simp [hres] at hnone
        -- a column that stands for itself has no relation before it, and so joins nothing
        | column hops tableAlias column =>
          have hlen : path.parent.segments.length ≤ 1 := by
            simpa [Setting.strands, hw, Setting.loses, htype, hopens, Resolved.last, PathStep.isRelation] using hstrands
          exact Setting.plan_of_resolve?_single hres hlen
  · have htype : s.typeAt? path = none := by simpa [Setting.losesField, hw, Setting.loses] using hlost
    rw [if_neg hw, Setting.resolve?_eq_none_iff.mpr htype]

theorem reportedFields_of_some {path : Path} {p p' : Projection} {plan plan' : JoinPlan}
    (h : addition s path p plan = (some p', plan')) : s.reportedFields [path] = [] := by
  have hlost := isNone_addition (s := s) path p plan
  simp [Setting.reportedFields, ← hlost, h]

theorem reportedFields_of_none {path : Path} {p : Projection} {plan plan' : JoinPlan}
    (h : addition s path p plan = (none, plan')) : s.reportedFields [path] = [path.text] := by
  have hlost := isNone_addition (s := s) path p plan
  simp [Setting.reportedFields, ← hlost, h]

theorem addPath_adds (path : Path) (p : Projection) : Adds (addPath s path p) (s.reportedFields [path]) := by
  intro d d' p' h skipped
  rcases addPath_eq_ok.mp h with ⟨plan, hadd, rfl, hun⟩ | ⟨plan, hadd, rfl⟩
  · obtain ⟨hpolicy, rfl⟩ := Setting.unresolved_eq_ok.mp hun
    rw [reportedFields_of_none hadd]
    exact addPath_eq_ok.mpr (Or.inl ⟨plan, hadd, rfl, Setting.unresolved_eq_ok.mpr ⟨hpolicy, rfl⟩⟩)
  · rw [reportedFields_of_some hadd, List.append_nil]
    exact addPath_eq_ok.mpr (Or.inr ⟨plan, hadd, rfl⟩)

/-- A dropped path adds nothing, and no join either unless it strands. -/
theorem eq_of_addPath {path : Path} {p p' : Projection} {d d' : Draft} (hlost : s.losesField path = true)
    (hstrands : s.strands path = false) (h : addPath s path p d = .ok (p', d')) : p' = p ∧ d'.plan = d.plan := by
  have hplan : (addition s path p d.plan).2 = d.plan := plan_addition hlost hstrands
  rcases addPath_eq_ok.mp h with ⟨plan, hadd, rfl, hun⟩ | ⟨plan, hadd, rfl⟩
  · rw [hadd] at hplan
    exact ⟨rfl, (Setting.plan_unresolved hun).trans hplan⟩
  · have hnone := isNone_addition (s := s) path p d.plan
    rw [hadd, hlost] at hnone
    cases hnone

/-- Among the dropped paths it is those that strand, and no others, that leave joins behind. -/
theorem addPath_traceless_iff {path : Path} (hpolicy : s.options.pathPolicy = .lenient)
    (hlost : s.losesField path = true) :
    (∀ p d p' d', addPath s path p d = .ok (p', d') → p' = p ∧ d'.plan = d.plan) ↔ s.strands path = false := by
  refine ⟨fun htraceless => ?_, fun hstrands p d p' d' h => eq_of_addPath hlost hstrands h⟩
  refine eq_false_of_ne_true fun hstrands => ?_
  -- Nothing is joined before the first path of a field list.
  let p := start "" s.root
  let d : Draft := ⟨.start "", []⟩
  have hplanned := byPath_addition hstrands p d.plan
  have hnone := isNone_addition (s := s) path p d.plan
  rw [hlost, Option.isNone_iff_eq_none] at hnone
  have hadd : addPath s path p d = .ok (p, ⟨(addition s path p d.plan).2, [path.text]⟩) :=
    addPath_eq_ok.mpr (Or.inl ⟨_, Prod.ext hnone rfl, rfl, Setting.unresolved_eq_ok.mpr ⟨hpolicy, rfl⟩⟩)
  exact hplanned (congrArg JoinPlan.byPath (htraceless _ _ _ _ hadd).2)

theorem addPaths_adds : ∀ (fields : List Path) (p : Projection), Adds (addPaths s fields p) (s.reportedFields fields)
  | [], p => Adds.done p
  | path :: rest, p => by
    rw [Setting.reportedFields_cons]
    exact (addPath_adds path p).bind fun p' => addPaths_adds rest p'

theorem ofFields_adds (fields : List Path) : Adds (ofFields s fields) (s.reportedFields fields) := by
  intro d d' p h skipped
  obtain ⟨q, hq, rfl⟩ := ofFields_eq_ok.mp h
  have hadds := addPaths_adds _ _ hq skipped
  have htexts : s.reportedFields (if fields.isEmpty then [⟨["*"]⟩] else fields) = s.reportedFields fields := by
    cases fields with
    | nil => rfl
    | cons => rfl
  rw [htexts] at hadds
  exact ofFields_eq_ok.mpr ⟨q, hadds, rfl⟩

end Projection

/-! ### Sort keys -/

theorem SortTerm.compile_adds (t : SortTerm) : Adds (t.compile s) (s.reported [t.path]) := by
  intro d d' column h skipped
  rw [compile_eq] at h ⊢
  exact s.resolveThen_adds h skipped

namespace SortKey

theorem compileAll_adds : ∀ (terms : List SortTerm) (keys : List SortKey),
    Adds (compileAll s terms keys) (s.reported (terms.map (·.path)))
  | [], keys => Adds.done keys
  | t :: rest, keys => fun d d' keys' h skipped => by
    obtain ⟨column, d₁, hterm, hrest⟩ := compileAll_cons_eq_ok.mp h
    refine compileAll_cons_eq_ok.mpr ⟨column, _, t.compile_adds hterm skipped, ?_⟩
    rw [List.map_cons, Setting.reported_cons t.path (rest.map _), ← List.append_assoc]
    exact compileAll_adds rest _ hrest _

theorem listOf_adds (terms : List SortTerm) : Adds (listOf s terms) (s.reported (terms.map (·.path))) := by
  intro d d' keys h skipped
  obtain ⟨own, hown, rfl⟩ := listOf_eq_ok.mp h
  exact listOf_eq_ok.mpr ⟨own, compileAll_adds terms [] hown skipped, rfl⟩

end SortKey

/-! ### Aggregates -/

namespace AggregateRequest

/-- The predicates of the condition. -/
def predicates (r : AggregateRequest) : List Predicate :=
  Filter.predicates (r.condition.getD .null)

theorem compile_adds (r : AggregateRequest) : Adds (r.compile s) (s.reported (r.predicates.map (·.path))) := by
  intro d d' term h skipped
  obtain ⟨call, plan, condition, d₁, htarget, hcondition, rfl, rfl⟩ := compile_eq_ok.mp h
  exact compile_eq_ok.mpr ⟨call, plan, condition, _, htarget, Filter.compileJson_adds _ hcondition skipped, rfl, rfl⟩

theorem compileAll_adds : ∀ rs : List AggregateRequest,
    Adds (compileAll s rs) (s.reported ((rs.flatMap predicates).map (·.path)))
  | [] => Adds.done []
  | r :: rest => fun d d' terms h skipped => by
    obtain ⟨term, d₁, more, hterm, hrest, rfl⟩ := compileAll_cons_eq_ok.mp h
    refine compileAll_cons_eq_ok.mpr ⟨term, _, more, r.compile_adds hterm skipped, ?_, rfl⟩
    rw [List.flatMap_cons, List.map_append, Setting.reported_append, ← List.append_assoc]
    exact compileAll_adds rest hrest _

end AggregateRequest

/-! ### Plans -/

/-- The texts of the paths of a request that are dropped: of its fields, its filter, its sort list and the conditions
of its aggregates. -/
def FindRequest.reported (r : FindRequest) (s : Setting) (aggregates : List AggregateRequest) : List String :=
  s.reportedFields (Path.listOf r.fields) ++ s.reported ((Filter.predicates r.filter).map (·.path)) ++
    s.reported ((SortTerm.listOf r.sort).map (·.path)) ++
    s.reported ((aggregates.flatMap AggregateRequest.predicates).map (·.path))

theorem CompiledParts.skipped_compile {request : FindRequest} {aggregates : List AggregateRequest} {c : CompiledParts}
    (h : compile s request aggregates = .ok c) : c.draft.skipped = request.reported s aggregates := by
  obtain ⟨d₁, d₂, d₃, hproj, hfilter, hsort, haggs⟩ := compile_eq_ok.mp h
  rw [(AggregateRequest.compileAll_adds _).skipped haggs, (SortKey.listOf_adds _).skipped hsort,
    (Filter.compileJson_adds _).skipped hfilter, (Projection.ofFields_adds _).skipped hproj, List.nil_append]
  rfl

end RecordService
