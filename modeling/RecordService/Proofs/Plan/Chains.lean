import RecordService.Proofs.Plan.Isolated
import RecordService.Proofs.Plan.Orders
import RecordService.Proofs.Plan.Selections

/-! # Aliases of chains

A request reaches chains of relations (`FindRequest.chains`), and each has the alias of a join. The joins are told apart
by dotted paths, so that two chains have one alias exactly if they have one dotted path (`FindPlan.compile_chains`).
Where names are legible that is: if they are one chain, and then what stands under the alias of a chain is evaluated on
the table of the chain. A relation with a dot in its name gets the alias of others (`not_compile_chains_illegible`). -/

namespace RecordService
open JoinPlan

/-! ### Chains of a request -/

/-- The chains of relations that a path crosses: the path, cut behind each of them. -/
def Setting.chains (s : Setting) (path : Path) : List (List String) :=
  (s.crossed path).mapIdx fun k _ => path.segments.take (k + 1)

/-- The chains that a path of the field list reaches. With `*` these are also the ones of the to-one relations of the
table there. -/
def Setting.fieldChains (s : Setting) (path : Path) : List (List String) :=
  if path.isWildcard then
    s.chains path.parent ++ (s.tableAt? path.parent.segments).toList.flatMap fun t =>
      (t.relations.filter fun r => !r.isMany).map fun r => path.parent.segments ++ [r.name]
  else s.chains path

def Predicate.chains (s : Setting) (q : Predicate) : List (List String) :=
  if q.op.looksAtLinks then (s.chains q.path).dropLast else s.chains q.path

def AggregateRequest.chains (s : Setting) (r : AggregateRequest) : List (List String) :=
  (if r.ofRecords then [] else s.chains r.path) ++ r.predicates.flatMap (·.chains s)

/-- The chains of relations that a request reaches, whichever part of it does. -/
def FindRequest.chains (r : FindRequest) (s : Setting) (aggregates : List AggregateRequest) : List (List String) :=
  (Projection.fieldPaths (Path.listOf r.fields)).flatMap s.fieldChains ++
    (Filter.predicates r.filter).flatMap (·.chains s) ++ (SortTerm.listOf r.sort).flatMap (s.chains ·.path) ++
    aggregates.flatMap (·.chains s)

/-- The chain to the table whose cells a path stands for: all of the path, if it ends in a relation. -/
def Setting.home (s : Setting) (path : Path) : List String :=
  match (walk s.catalog s.root path.segments).bind List.getLast? with
  | some (.relation _ _) => path.segments
  | _ => path.parent.segments

/-- Links are looked at from the table before them. -/
def Predicate.home (s : Setting) (q : Predicate) : List String :=
  if q.op.looksAtLinks then q.path.parent.segments else s.home q.path

def AggregateRequest.home (s : Setting) (r : AggregateRequest) : List String :=
  if r.ofRecords then [] else s.home r.path

section
variable {s : Setting} {path : Path} {chain : List String}

/-- The chains that a path crosses have the dotted paths of the relations. -/
theorem Setting.dotted_chains (s : Setting) (path : Path) :
    (s.chains path).map dotted = (s.crossed path).map (·.path) := by
  refine List.ext_getElem? fun k => ?_
  rw [chains, List.getElem?_map, List.getElem?_mapIdx, List.getElem?_map]
  cases hx : (s.crossed path)[k]? with
  | none => rfl
  | some x => exact congrArg some (path_of_crossed hx).symm

theorem Predicate.dotted_chains (s : Setting) (q : Predicate) :
    (q.chains s).map dotted = (q.crossed s).map (·.path) := by
  unfold chains crossed
  split
  · rw [List.map_dropLast, List.map_dropLast, Setting.dotted_chains]
  · exact Setting.dotted_chains s q.path

theorem AggregateRequest.dotted_chains (s : Setting) (r : AggregateRequest) :
    (r.chains s).map dotted = (r.crossed s).map (·.path) := by
  rw [chains, crossed, targetCrossed, List.map_append, List.map_append, List.map_flatMap, List.map_flatMap]
  simp only [Predicate.dotted_chains]
  split
  · rfl
  · rw [Setting.dotted_chains]

theorem PathStep.tableAt?_of_crossings {catalog : Catalog} {table : Table} {steps : List PathStep}
    (h : catalog.Leads table steps) (path : String) {k : Nat} {x : Crossing}
    (hx : (crossings path steps)[k]? = some x) :
    (steps.map name).take (k + 1) ≠ [] ∧ catalog.tableAt? table ((steps.map name).take (k + 1)) = some x.target := by
  induction h generalizing path k with
  | nil => simp [crossings] at hx
  | column => simp [crossings] at hx
  | @relation table target r rest hr ht _ ih =>
    rw [crossings] at hx
    have hfirst : (table.relation? r.name).bind catalog.target? = some target := by rw [hr, Option.bind_some, ht]
    refine ⟨List.cons_ne_nil _ _, ?_⟩
    rw [List.map_cons, List.take_succ_cons, name, Catalog.tableAt?, hfirst, Option.bind_some]
    cases k with
    | zero =>
      cases hx
      rfl
    | succ k => exact (ih (extendPath path r.name) hx).2

/-- A chain that a path crosses leads to a table. -/
theorem Setting.table_of_chain (h : chain ∈ s.chains path) : chain ≠ [] ∧ (s.tableAt? chain).isSome = true := by
  obtain ⟨k, hk⟩ := List.mem_iff_getElem?.mp h
  rw [chains, List.getElem?_mapIdx] at hk
  obtain ⟨x, hx, rfl⟩ := Option.map_eq_some_iff.mp hk
  unfold crossed at hx
  cases hw : walk s.catalog s.root path.segments with
  | none => simp [hw] at hx
  | some steps =>
    simp only [hw, Option.map_some, Option.getD_some] at hx
    obtain ⟨hne, htable⟩ := PathStep.tableAt?_of_crossings (leads_walk hw) "" hx
    rw [names_walk hw] at hne htable
    exact ⟨hne, Option.isSome_iff_exists.mpr ⟨_, htable⟩⟩

theorem Setting.table_of_fieldChain (hroot : s.root ∈ s.catalog.tables) (h : chain ∈ s.fieldChains path) :
    chain ≠ [] ∧ (s.tableAt? chain).isSome = true := by
  unfold fieldChains at h
  split at h
  · rcases List.mem_append.mp h with h | h
    · exact table_of_chain h
    · obtain ⟨t, ht, h⟩ := List.mem_flatMap.mp h
      obtain ⟨r, hr, rfl⟩ := List.mem_map.mp h
      have htable : s.tableAt? path.parent.segments = some t := Option.mem_toList.mp ht
      have hmem := s.mem_of_tableAt? hroot htable
      -- the name may be that of another relation, but that one has a target too
      have hfound : (t.relations.find? (·.name == r.name)).isSome = true :=
        List.find?_isSome.mpr ⟨r, List.mem_of_mem_filter hr, beq_self_eq_true r.name⟩
      obtain ⟨r', hr'⟩ := Option.isSome_iff_exists.mp hfound
      refine ⟨by simp, ?_⟩
      rw [tableAt?_concat, htable, Option.bind_some, Table.relation?, hr', Option.bind_some]
      exact Catalog.target?_isSome hmem (List.mem_of_find?_eq_some hr')
  · exact table_of_chain h

theorem Predicate.table_of_chain {q : Predicate} (h : chain ∈ q.chains s) :
    chain ≠ [] ∧ (s.tableAt? chain).isSome = true := by
  unfold chains at h
  split at h
  · exact Setting.table_of_chain (List.dropLast_subset _ h)
  · exact Setting.table_of_chain h

/-- Every chain that a request reaches leads to a table. -/
theorem FindRequest.table_of_chain {r : FindRequest} {aggregates : List AggregateRequest}
    (hroot : s.root ∈ s.catalog.tables) (h : chain ∈ r.chains s aggregates) :
    chain ≠ [] ∧ (s.tableAt? chain).isSome = true := by
  simp only [chains, List.mem_append, List.mem_flatMap] at h
  rcases h with ((⟨path, -, h⟩ | ⟨q, -, h⟩) | ⟨t, -, h⟩) | ⟨a, -, h⟩
  · exact Setting.table_of_fieldChain hroot h
  · exact Predicate.table_of_chain h
  · exact Setting.table_of_chain h
  · rcases List.mem_append.mp h with h | h
    · split at h
      · cases h
      · exact Setting.table_of_chain h
    · obtain ⟨q, -, h⟩ := List.mem_flatMap.mp h
      exact Predicate.table_of_chain h

end

/-! ### Joins of chains -/

namespace JoinPlan

variable {s : Setting} {p p' : JoinPlan} {u : Usage} {xs : List Crossing} {chains : List (List String)}
  {chain chain' : List String}

/-- Each of the chains has a join of its dotted path. -/
def Covers (p : JoinPlan) (chains : List (List String)) : Prop :=
  ∀ chain ∈ chains, ∃ j ∈ p.joins, j.path = dotted chain

theorem Covers.mono (h : p.Covers chains) (hext : p.Extends p') : p'.Covers chains := by
  intro chain hchain
  obtain ⟨j, hj, hpath⟩ := h chain hchain
  obtain ⟨k, hk⟩ := List.mem_iff_getElem?.mp hj
  obtain ⟨v, hk', -⟩ := hext.joins k j hk
  exact ⟨_, List.mem_of_getElem? hk', hpath⟩

theorem Covers.append {more : List (List String)} (h : p.Covers chains) (h' : p.Covers more) :
    p.Covers (chains ++ more) :=
  List.forall_mem_append.mpr ⟨h, h'⟩

/-- A plan covers the chains of the relations that it has gained. -/
theorem Gains.covers (h : p.Gains p' (xs.map (Need.mk u))) (hp : p.Regular) (hu : u.meets u = true)
    (hchains : chains.map dotted = xs.map (·.path)) : p'.Covers chains := by
  intro chain hchain
  obtain ⟨x, hx, hpath⟩ := List.mem_map.mp (hchains ▸ List.mem_map_of_mem hchain)
  obtain ⟨j, hj, hjoin, -⟩ := (h.carries hp u x.path).mpr (.inr ⟨_, List.mem_map_of_mem hx, hu, rfl⟩)
  exact ⟨j, hj, hjoin.trans hpath⟩

/-- A chain with a join has its alias. -/
theorem Covers.aliasAt? (h : p.Covers chains) (hp : p.Regular) (hchain : chain ∈ chains) (hne : chain ≠ []) :
    ∃ k j, p.joins[k]? = some j ∧ j.path = dotted chain ∧ p.aliasAt? chain = some (joinAlias k) := by
  obtain ⟨j, hj, hpath⟩ := h chain hchain
  obtain ⟨k, hk⟩ := List.mem_iff_getElem?.mp hj
  refine ⟨k, j, hk, hpath, ?_⟩
  rw [JoinPlan.aliasAt?, if_neg (by simpa using hne)]
  exact hp.indexed.alias?_eq_some_iff.mpr ⟨j, hj, hpath, hp.aliases k j hk⟩

/-- Two chains have one alias exactly if they have one dotted path. -/
theorem Covers.aliasAt?_eq_iff (h : p.Covers chains) (hp : p.Regular) (hchain : chain ∈ chains) (hne : chain ≠ [])
    (hchain' : chain' ∈ chains) (hne' : chain' ≠ []) :
    p.aliasAt? chain = p.aliasAt? chain' ↔ dotted chain = dotted chain' := by
  obtain ⟨k, j, hj, hpath, halias⟩ := h.aliasAt? hp hchain hne
  obtain ⟨k', j', hj', hpath', halias'⟩ := h.aliasAt? hp hchain' hne'
  rw [halias, halias', ← hpath, ← hpath']
  constructor
  · intro heq
    obtain rfl := joinAlias_inj (Option.some.inj heq)
    rw [hj] at hj'
    rw [Option.some.inj hj']
  · intro heq
    have hsame : j = j' :=
      List.inj_on_of_nodup_map hp.indexed.distinct (List.mem_of_getElem? hj) (List.mem_of_getElem? hj') heq
    rw [← hp.aliases k j hj, ← hp.aliases k' j' hj', hsame]

/-- The alias of a chain is bound to the table of the chain, where names suit dotted paths. -/
theorem Traced.binds (h : p.Traced s) (hp : p.Regular) (hnames : s.catalog.PathSafe)
    (hroot : s.root ∈ s.catalog.tables) {t : Table} {tableAlias : String} (htable : s.tableAt? chain = some t)
    (halias : p.aliasAt? chain = some tableAlias) :
    Source.Binds ⟨s.root.name, p.root, p.joins⟩ tableAlias t.name := by
  rcases List.eq_nil_or_concat chain with rfl | ⟨init, name, rfl⟩
  · cases htable
    cases halias
    exact .inl ⟨rfl, rfl⟩
  · rw [List.concat_eq_append] at htable halias
    rw [aliasAt?, if_neg (by simp)] at halias
    obtain ⟨j, hj, hpath, rfl⟩ := hp.indexed.alias?_eq_some_iff.mp halias
    rw [Setting.tableAt?_concat] at htable
    obtain ⟨before, hbefore, hr⟩ := Option.bind_eq_some_iff.mp htable
    obtain ⟨r, hr, ht⟩ := Option.bind_eq_some_iff.mp hr
    obtain rfl := Catalog.name_of_relation? hr
    have hcrossing : s.Names ⟨dotted (init ++ [r.name]), r, t⟩ := ⟨ht, init, before, hbefore, hr, rfl⟩
    exact .inr ⟨j, hj, rfl, (h.of_names hnames hroot hj hcrossing hpath).table.symm⟩

end JoinPlan

/-! ### Fields -/

/-- A chain that leads to a table ends in a relation. -/
theorem Catalog.opens_of_tableAt? {catalog : Catalog} : ∀ {segments : List String} {table t : Table}, segments ≠ [] →
    catalog.tableAt? table segments = some t →
      ((walk catalog table segments).bind List.getLast?).any (·.isRelation) = true
  | [name], table, t, _, h => by
    obtain ⟨next, hnext, -⟩ := Option.bind_eq_some_iff.mp h
    obtain ⟨r, hr, ht⟩ := Option.bind_eq_some_iff.mp hnext
    simp [walk, hr, ht, PathStep.isRelation]
  | name :: second :: rest, table, t, _, h => by
    obtain ⟨next, hnext, hrest⟩ := Option.bind_eq_some_iff.mp h
    obtain ⟨r, hr, ht⟩ := Option.bind_eq_some_iff.mp hnext
    have hopens := opens_of_tableAt? (List.cons_ne_nil second rest) hrest
    obtain ⟨steps, hsteps⟩ := walk_of_tableAt? hrest
    rw [hsteps] at hopens
    have hne : steps ≠ [] := by
      rintro rfl
      simp at hopens
    rw [walk]
    simp only [hr, ht, hsteps, Option.map_some, Option.bind_some, List.getLast?_cons_of_ne_nil hne]
    exact hopens

/-- What stands before a `*` that is dropped is no chain of relations. -/
theorem Setting.tableAt?_of_lost {s : Setting} {path : Path} (hw : path.isWildcard = true)
    (hlost : s.losesField path = true) : s.tableAt? path.parent.segments = none := by
  rw [losesField, if_pos hw, Bool.and_eq_true, Bool.not_eq_true', Bool.not_eq_true'] at hlost
  refine Option.eq_none_iff_forall_ne_some.mpr fun t ht => ?_
  have hne : path.parent.segments ≠ [] := by simpa [Path.isEmpty] using hlost.1
  have hopens : s.opens path.parent = true := Catalog.opens_of_tableAt? hne ht
  rw [hlost.2] at hopens
  cases hopens

namespace Projection

variable {s : Setting} {q q' : Projection} {plan plan' : JoinPlan}

/-- With all that a table has, its to-one relations are joined. -/
theorem addAll_covers {hops : List Hop} {path tableAlias : String} {table : Table} (hp : plan.Regular) (hroot : s.root ∈ s.catalog.tables)
    (htrail : plan.Trail s .forProjection hops path tableAlias table) :
    (addAll s hops tableAlias path table q plan).2.Covers
      ((table.relations.filter fun r => !r.isMany).map fun r => hops.map (·.relation.name) ++ [r.name]) := by
  intro chain hchain
  obtain ⟨r, hr, rfl⟩ := List.mem_map.mp hchain
  obtain ⟨hr, hone⟩ := List.mem_filter.mp hr
  obtain ⟨target, htarget⟩ := Option.isSome_iff_exists.mp (Catalog.target?_isSome (htrail.mem hroot) hr)
  have hmem : ⟨extendPath path r.name, r, target⟩ ∈ s.catalog.toOnes path table := by
    refine List.mem_filterMap.mpr ⟨r, hr, ?_⟩
    rw [if_neg (by simpa using hone), htarget, Option.map_some]
  have hgains := addAll_gains (s := s) hops tableAlias path table q plan
  obtain ⟨j, hj, hjoin, -⟩ := (hgains.carries hp .forProjection _).mpr (.inr ⟨_, List.mem_map_of_mem hmem, rfl, rfl⟩)
  rw [dotted_concat, ← htrail.path_eq]
  exact ⟨j, hj, hjoin⟩

theorem Addition.covers {path : Path} (hp : plan.Regular) (hroot : s.root ∈ s.catalog.tables) (h : Addition s path q plan q' plan') :
    plan'.Covers (s.fieldChains path) := by
  have hcrossed {path : Path} {plan' : JoinPlan} (hcrosses : plan.Crosses .forProjection (s.crossed path) plan') :
      plan'.Covers (s.chains path) :=
    hcrosses.gains.covers hp rfl (s.dotted_chains path)
  have hplain (hw : path.isWildcard = false) (hcrosses : plan.Crosses .forProjection (s.named path) plan') :
      plan'.Covers (s.fieldChains path) := by
    rw [Setting.named, hw, if_neg Bool.false_ne_true] at hcrosses
    rw [Setting.fieldChains, hw, if_neg Bool.false_ne_true]
    exact hcrossed hcrosses
  cases h with
  | nothing hlost hcrosses =>
    cases hw : path.isWildcard with
    | false => exact hplain hw hcrosses
    | true =>
      rw [Setting.named, if_pos hw] at hcrosses
      rw [Setting.fieldChains, if_pos hw, Setting.tableAt?_of_lost hw hlost, Option.toList_none, List.flatMap_nil,
        List.append_nil]
      exact hcrossed hcrosses
  | everything _ hw hcrosses htrail hnames _ =>
    -- a wildcard covers its own chain, and those of the relations it stands for
    have htable := htrail.tableAt?
    have hall := addAll_covers (q := q) (hcrosses.gains.regular hp) hroot htrail
    rw [hnames] at htable hall
    rw [Setting.named, if_pos hw] at hcrosses
    rw [Setting.fieldChains, if_pos hw, htable, Option.toList_some, List.flatMap_singleton]
    exact ((hcrossed hcrosses).mono (addAll_gains ..).toExtends).append hall
  | field _ hw hcrosses => exact hplain hw hcrosses
  | records _ hw hcrosses => exact hplain hw hcrosses

theorem addPaths_covers (hroot : s.root ∈ s.catalog.tables) : ∀ {fields : List Path} {q q' : Projection} {d d' : Draft},
    d.plan.Regular → addPaths s fields q d = .ok (q', d') → d'.plan.Covers (fields.flatMap s.fieldChains)
  | [], _, _, _, _, _, _ => fun _ hchain => absurd hchain List.not_mem_nil
  | path :: rest, q, q', d, d', hp, h => by
    obtain ⟨⟨q₁, d₁⟩, hfirst, hrest⟩ := bind_eq_ok.mp h
    have hadds := addPath_inv hp hfirst
    have hany : ∀ name ∈ path.segments, True := fun _ _ => trivial
    obtain ⟨hp₁, -⟩ := hadds.builds hroot hp hany
    obtain ⟨xs, hcrosses, -⟩ := addPaths_crosses hroot hp₁ hrest
    rw [List.flatMap_cons]
    exact ((hadds.covers hp hroot).mono hcrosses.gains.toExtends).append (addPaths_covers hroot hp₁ hrest)

end Projection

/-! ### Columns -/

/-- The column stands under the alias of the chain, which leads to a table. -/
def JoinPlan.ReadsAt (p : JoinPlan) (s : Setting) (chain : List String) (ref : Sql.ColumnRef) : Prop :=
  ∃ u table, p.Located s u chain ref.tableAlias table

/-- The tests of the conditions are those of the predicates that lead somewhere, each of a column at the end of its own
chain. -/
def JoinPlan.Tests (p : JoinPlan) (s : Setting) (qs : List Predicate) (parts : List Condition) : Prop :=
  List.Forall₂ (fun q t => ∀ ref ∈ t.column?, p.ReadsAt s (q.home s) ref) (qs.filter s.keeps)
    (Condition.testsOfAll parts)

section
variable {s : Setting} {u : Usage} {plan plan' : JoinPlan} {d d' : Draft} {chain : List String} {ref : Sql.ColumnRef}

theorem JoinPlan.ReadsAt.mono (h : plan.ReadsAt s chain ref) (hext : plan.Extends plan') :
    plan'.ReadsAt s chain ref := by
  obtain ⟨u, table, hlocated⟩ := h
  exact ⟨u, table, hlocated.mono hext⟩

theorem JoinPlan.Tests.mono {qs : List Predicate} {parts : List Condition} (h : plan.Tests s qs parts)
    (hext : plan.Extends plan') : plan'.Tests s qs parts :=
  h.imp fun _ _ hreads ref href => (hreads ref href).mono hext

theorem JoinPlan.Denotes.readsAt {path : Path} (h : plan.Denotes s u path ref) : plan.ReadsAt s (s.home path) ref := by
  unfold JoinPlan.Denotes at h
  unfold Setting.home
  revert h
  cases (walk s.catalog s.root path.segments).bind List.getLast? with
  | none => exact False.elim
  | some step =>
    cases step with
    | column c =>
      rintro ⟨tableAlias, table, hlocated, rfl⟩
      exact ⟨u, table, hlocated⟩
    | relation r target =>
      rintro ⟨tableAlias, hlocated, rfl⟩
      exact ⟨u, target, hlocated⟩

/-- A relation at the end of a path hangs from the table before it. -/
theorem Setting.located_parent {path : Path} {hops : List Hop} {parentPath parentAlias : String} {parent target : Table}
    {r : Relation} (hp : plan.Regular)
    (h : s.resolve? plan path u = some (.relation hops parentPath parentAlias parent r target, plan')) :
    plan'.Located s u path.parent.segments parentAlias parent := by
  obtain ⟨-, -, hfound, hsegments⟩ := resolve?_found hp h
  cases hfound with
  | relation htrail => exact ⟨hops, parentPath, htrail, (Path.segments_parent hsegments).symm⟩

namespace Predicate

/-- The test of a predicate is of a column at the end of its chain. -/
theorem readsAt_testOf {q : Predicate} {res : Resolved} {t : Test} (hp : d.plan.Regular)
    (hres : s.resolve? d.plan q.path u = some (res, plan)) (h : q.testOf u plan res = .ok (t, plan')) :
    ∀ ref ∈ t.column?, plan'.ReadsAt s (q.home s) ref := by
  intro ref href
  cases res with
  | column hops tableAlias c =>
    obtain ⟨htest, rfl⟩ := testOf_column_eq_ok.mp h
    obtain rfl := (column?_columnTest htest).1 ref href
    rw [home, looksAtLinks_of_columnTest htest, if_neg Bool.false_ne_true]
    exact (Setting.denotes_column hp hres).readsAt
  | relation hops parentPath parentAlias parent r target =>
    -- a test of links looks at the key of the parents, any other at the table behind the relation
    have hlinks {test : Test} (hlooks : q.op.looksAtLinks = true)
        (hcolumn : test.column? = some ⟨parentAlias, r.joinKey⟩) (href : ref ∈ test.column?) :
        plan.scratch.2.ReadsAt s (q.home s) ref := by
      rw [hcolumn] at href
      cases href
      rw [home, hlooks, if_pos rfl]
      have hscratch : plan.Extends plan.scratch.2 := (grows_scratch plan).toExtends
      exact ⟨u, parent, (Setting.located_parent hp hres).mono hscratch⟩
    rcases testOf_relation_eq_ok.mp h with ⟨c, hop, -, hcount, rfl⟩ | ⟨hop, -, hset, rfl⟩ | ⟨hkeys, rfl⟩
    · exact hlinks (hop ▸ rfl) (column?_countTest hcount).1 href
    · exact hlinks (hop ▸ rfl) (column?_setTest hset).1 href
    · obtain rfl := (column?_columnTest hkeys).1 ref href
      rw [home, looksAtLinks_of_columnTest hkeys, if_neg Bool.false_ne_true]
      exact (Setting.denotes_relation hp hres).readsAt

theorem compileEach_tests : ∀ {qs : List Predicate} {d d' : Draft} {leaves : List Leaf}, d.plan.Regular →
    compileEach s u qs d = .ok (leaves, d') →
      List.Forall₂ (fun q t => ∀ ref ∈ t.column?, d'.plan.ReadsAt s (q.home s) ref) (qs.filter s.keeps)
        (leaves.map (·.test))
  | [], _, _, _, _, h => by
    cases h
    exact .nil
  | q :: rest, d, d', leaves, hp, h => by
    obtain ⟨test, d₁, more, htest, hrest, rfl⟩ := compileEach_cons_eq_ok.mp h
    have hp₁ := (compile_crosses hp htest).gains.regular hp
    have hext := (compileEach_crosses hp₁ hrest).gains.toExtends
    have hmore := compileEach_tests hp₁ hrest
    rcases compile_eq_ok.mp htest with ⟨hlost, rfl, -⟩ | ⟨res, plan, t, plan', hres, hof, rfl, rfl⟩
    · rw [List.filter_cons_of_neg (by simp [Setting.keeps, Setting.loses, hlost])]
      exact hmore
    · rw [List.filter_cons_of_pos (by simp [Setting.keeps, Setting.loses, Setting.typeAt?_of_resolve? hres])]
      exact .cons (fun ref href => (readsAt_testOf hp hres hof ref href).mono hext) hmore

end Predicate

theorem Filter.compileJson_tests {filter : Json} {parts : List Condition} (hp : d.plan.Regular)
    (h : compileJson s u filter d = .ok (parts, d')) : d'.plan.Tests s (predicates filter) parts := by
  obtain ⟨nodes, hnodes, hall⟩ := bind_eq_ok.mp h
  obtain ⟨kept, rfl, -, heach⟩ := compileAll_kept hall
  rw [leavesOfAll_ofJson hnodes] at heach
  rw [JoinPlan.Tests, Condition.testsOfAll_ofFormulas]
  exact Predicate.compileEach_tests hp heach

/-- Every key of an order is of a column at the end of the chain of a term, or the key of the root. -/
theorem SortKey.listOf_readsAt {terms : List SortTerm} {keys : List SortKey} (hp : d.plan.Regular)
    (h : listOf s terms d = .ok (keys, d')) : ∀ k ∈ keys, k.column = ⟨d'.plan.root, s.root.primaryKey⟩ ∨
      ∃ t ∈ terms, s.loses t.path = false ∧ d'.plan.ReadsAt s (s.home t.path) k.column := by
  obtain ⟨named, hnamed, rfl⟩ := listOf_named hp h
  intro k hk
  rcases mem_foldl_insert.mp (List.mem_map_of_mem hk) with hmem | hmem
  · cases hmem
  · rw [List.map_append, List.mem_append] at hmem
    rcases hmem with hmem | hmem
    · obtain ⟨k', hk', heq⟩ := List.mem_map.mp hmem
      rw [← heq]
      obtain ⟨i, hi, rfl⟩ := List.getElem_of_mem hk'
      have hlength := hnamed.length_eq
      have ht := List.getElem_mem (hlength ▸ hi : i < (terms.filter fun t => !s.loses t.path).length)
      obtain ⟨hterm, hkept⟩ := List.mem_filter.mp ht
      refine .inr ⟨_, hterm, by simpa using hkept, (hnamed.get _ _).column.readsAt⟩
    · exact .inl (List.mem_singleton.mp hmem)

namespace AggregateRequest

variable {r : AggregateRequest}

theorem readsAt_target {call : AggregateCall} (hp : plan.Regular) (h : r.target s plan = .ok (call, plan')) :
    plan'.ReadsAt s (r.home s) call.column := by
  unfold home
  rcases target_inv h with ⟨hrecords, -, rfl, rfl⟩ | ⟨hrecords, ⟨_, _, _, hres, -, rfl⟩ |
    ⟨_, _, _, _, _, _, _, hres, -, rfl, rfl⟩⟩
  · rw [if_pos hrecords]
    exact ⟨.forAggregate, s.root, [], "", .root, rfl⟩
  · rw [hrecords, if_neg Bool.false_ne_true]
    exact (Setting.denotes_column hp hres).readsAt
  · rw [hrecords, if_neg Bool.false_ne_true]
    exact (Setting.denotes_relation hp hres).readsAt

end AggregateRequest

/-- The function is of a column at the end of the chain of the target, and the condition tests such columns. -/
structure AggregateTerm.Reads (t : AggregateTerm) (s : Setting) (p : JoinPlan) (r : AggregateRequest) : Prop where
  target : p.ReadsAt s (r.home s) t.call.column
  condition : p.Tests s r.predicates t.condition

theorem AggregateTerm.Reads.mono {t : AggregateTerm} {r : AggregateRequest} (h : t.Reads s plan r)
    (hext : plan.Extends plan') : t.Reads s plan' r :=
  ⟨h.target.mono hext, h.condition.mono hext⟩

namespace AggregateRequest

theorem compile_reads {r : AggregateRequest} {term : AggregateTerm} (hp : d.plan.Regular)
    (h : r.compile s d = .ok (term, d')) : term.Reads s d'.plan r := by
  obtain ⟨call, plan, condition, d₁, htarget, hcondition, rfl, rfl⟩ := compile_eq_ok.mp h
  have hrecord : d.plan.Gains d.plan.record [] := .of_joins rfl rfl rfl
  have hp₀ := hrecord.regular hp
  have hrecorded : plan.Gains plan.recorded.2.record [] := .of_joins rfl rfl rfl
  have hp₁ := hrecorded.regular ((target_crosses hp₀ htarget).gains.regular hp₀)
  have hcrosses := Filter.compileJson_crosses (d := ⟨plan.recorded.2.record, d.skipped⟩) hp₁ hcondition
  have htests := Filter.compileJson_tests (d := ⟨plan.recorded.2.record, d.skipped⟩) hp₁ hcondition
  have hended : d₁.plan.Extends d₁.plan.recorded.2 := extends_recorded d₁.plan
  have hext := hrecorded.toExtends.trans (hcrosses.gains.toExtends.trans hended)
  exact ⟨(readsAt_target hp₀ htarget).mono hext, htests.mono hended⟩

theorem compileAll_reads : ∀ {rs : List AggregateRequest} {terms : List AggregateTerm} {d d' : Draft},
    d.plan.Regular → compileAll s rs d = .ok (terms, d') → List.Forall₂ (fun r t => t.Reads s d'.plan r) rs terms
  | [], _, _, _, _, h => by
    cases h
    exact .nil
  | r :: rest, _, d, d', hp, h => by
    obtain ⟨term, d₁, more, hterm, hrest, rfl⟩ := compileAll_cons_eq_ok.mp h
    have hp₁ := (compile_gains hp hterm).regular hp
    exact .cons ((compile_reads hp hterm).mono (compileAll_gains hp₁ hrest).toExtends) (compileAll_reads hp₁ hrest)

end AggregateRequest
end

/-! ### Requests -/

namespace CompiledParts

variable {c : CompiledParts} {s : Setting} {request : FindRequest} {aggregates : List AggregateRequest}

/-- How the aliases of compiled parts go with chains. -/
structure Aliased (c : CompiledParts) (s : Setting) (request : FindRequest) (requests : List AggregateRequest) :
    Prop where
  /-- A chain that is reached has the alias of a join, which is not that of the root. -/
  joined : ∀ x ∈ request.chains s requests, ∃ k < c.draft.plan.joins.length,
    c.draft.plan.aliasAt? x = some (joinAlias k) ∧ joinAlias k ≠ s.options.rootAlias
  /-- Two such chains share their alias exactly if they have one dotted path. -/
  shared : ∀ x ∈ request.chains s requests, ∀ y ∈ request.chains s requests,
    (c.draft.plan.aliasAt? x = c.draft.plan.aliasAt? y ↔ dotted x = dotted y)
  /-- Where names are legible: exactly if they are one chain. -/
  identified : s.catalog.Legible → ∀ x ∈ request.chains s requests, ∀ y ∈ request.chains s requests,
    (c.draft.plan.aliasAt? x = c.draft.plan.aliasAt? y ↔ x = y)
  -- what is tested, sorted by, aggregated and selected stands under the alias of its own chain
  filter : c.draft.plan.Tests s (Filter.predicates request.filter) c.filter
  sort : ∀ k ∈ c.sort, k.column = c.rootKey s ∨
    ∃ t ∈ SortTerm.listOf request.sort, s.loses t.path = false ∧ c.draft.plan.ReadsAt s (s.home t.path) k.column
  aggregates : List.Forall₂ (fun r t => t.Reads s c.draft.plan r) requests c.aggregates
  fields : s.catalog.Distinct → ∀ chain node, c.projection.shape.at? chain = some node → ∀ f ∈ node.fields,
    ∃ ref, c.projection.Selects f.slot ref ∧ c.draft.plan.ReadsAt s chain ref
  /-- The alias that a column stands under is the one of the chain. -/
  reads : ∀ chain ref, c.draft.plan.ReadsAt s chain ref →
    c.draft.plan.aliasAt? chain = some ref.tableAlias ∧ (s.tableAt? chain).isSome = true
  /-- Where names suit dotted paths, it is bound to the table that the chain leads to. -/
  own : s.catalog.PathSafe → ∀ chain t tableAlias, s.tableAt? chain = some t →
    c.draft.plan.aliasAt? chain = some tableAlias → (c.source s c.draft.plan.joins).Binds tableAlias t.name

/-- The plan of compiled parts covers the chains of the request. -/
theorem Staged.covers {d₁ d₂ d₃ : Draft} (h : c.Staged s request aggregates d₁ d₂ d₃)
    (hroot : s.root ∈ s.catalog.tables) : c.draft.plan.Covers (request.chains s aggregates) := by
  obtain ⟨q, hfields, -⟩ := Projection.ofFields_eq_ok.mp h.fields
  have hcovers₁ := Projection.addPaths_covers hroot (regular_start s.options.rootAlias) hfields
  have hcovers₂ : d₂.plan.Covers ((Filter.predicates request.filter).flatMap (·.chains s)) :=
    h.filtered.gains.covers h.regular₁ rfl (by simp only [List.map_flatMap, Predicate.dotted_chains])
  have hcovers₃ : d₃.plan.Covers ((SortTerm.listOf request.sort).flatMap (s.chains ·.path)) :=
    h.sorted.gains.covers h.regular₂ rfl (by simp only [List.map_flatMap, Setting.dotted_chains])
  have hcovers₄ : c.draft.plan.Covers (aggregates.flatMap (·.chains s)) :=
    h.aggregated.covers h.regular₃ rfl (by simp only [List.map_flatMap, AggregateRequest.dotted_chains])
  have hbefore := ((hcovers₁.mono h.filtered.gains.toExtends).append hcovers₂).mono h.sorted.gains.toExtends
  exact ((hbefore.append hcovers₃).mono h.aggregated.toExtends).append hcovers₄

theorem compile_aliased (hroot : s.root ∈ s.catalog.tables)
    (halias : CompileOptions.aliasFault? s.options.rootAlias = none) (h : compile s request aggregates = .ok c) :
    c.Aliased s request aggregates := by
  have hplaced := compile_placed hroot h
  have hp := hplaced.regular
  obtain ⟨d₁, d₂, d₃, hstaged⟩ := compile_staged hroot h
  have hcovers := hstaged.covers hroot
  have hchain {x : List String} (hx : x ∈ request.chains s aggregates) := FindRequest.table_of_chain hroot hx
  have hshared {x y : List String} (hx : x ∈ request.chains s aggregates) (hy : y ∈ request.chains s aggregates) :=
    hcovers.aliasAt?_eq_iff hp hx (hchain hx).1 hy (hchain hy).1
  have hext := hstaged.sorted.gains.toExtends.trans hstaged.aggregated.toExtends
  refine ⟨fun x hx => ?joined, fun x hx y hy => hshared hx hy, fun hnames x hx y hy => ?identified,
    (Filter.compileJson_tests hstaged.regular₁ hstaged.filter).mono hext, fun k hk => ?sort,
    AggregateRequest.compileAll_reads hstaged.regular₃ hstaged.aggregates,
    fun hdistinct chain node hnode f hf => ?fields, fun chain ref hreads => ?reads,
    fun hnames chain t tableAlias ht hat => hplaced.traced.binds hp hnames hroot ht hat⟩
  case joined =>
    obtain ⟨k, j, hj, -, hat⟩ := hcovers.aliasAt? hp hx (hchain hx).1
    exact ⟨k, (List.getElem?_eq_some_iff.mp hj).1, hat,
      CompileOptions.rootAlias_ne halias (isGenerated_alias (.inl rfl))⟩
  case identified =>
    rw [hshared hx hy]
    refine ⟨fun heq => ?_, congrArg dotted⟩
    obtain ⟨t, ht⟩ := Option.isSome_iff_exists.mp (hchain hx).2
    obtain ⟨t', ht'⟩ := Option.isSome_iff_exists.mp (hchain hy).2
    exact dotted_inj (Catalog.legible_of_tableAt? hnames hroot ht) (Catalog.legible_of_tableAt? hnames hroot ht') heq
  case sort =>
    rcases SortKey.listOf_readsAt hstaged.regular₂ hstaged.sort k hk with hkey | ⟨t, ht, hkept, hreads⟩
    · rw [← hstaged.aggregated.root] at hkey
      exact .inl hkey
    · exact .inr ⟨t, ht, hkept, hreads.mono hstaged.aggregated.toExtends⟩
  case fields =>
    obtain ⟨q, hfields, hq⟩ := Projection.ofFields_eq_ok.mp hstaged.fields
    obtain ⟨-, -, hsound, -, -⟩ := Projection.addPaths_shows hdistinct hroot (regular_start s.options.rootAlias)
      (Projection.sound_start (.start s.options.rootAlias) s) hfields
    rw [hq] at hnode ⊢
    obtain ⟨tableAlias, table, hlocated, hselects⟩ := hsound.shape.fields chain node hnode f hf
    exact ⟨_, hselects, _, table, hlocated.mono (hstaged.filtered.gains.toExtends.trans hext)⟩
  case reads =>
    obtain ⟨u, table, hlocated⟩ := hreads
    exact ⟨hlocated.aliasAt? hp, Option.isSome_iff_exists.mpr ⟨table, hlocated.tableAt?⟩⟩

end CompiledParts

/-- Aliases stand for the dotted paths of chains. Where names are legible they identify the chains, and with names that
are distinct as well no predicate or column of one relation is evaluated on the table joined for another. -/
theorem FindPlan.compile_chains {catalog : Catalog} {table : String} {request : FindRequest} {options : CompileOptions}
    {p : FindPlan} (h : compile catalog table request options = .ok p) :
    ∃ s counts aggregates c, setting catalog table options = .ok s ∧
      AggregateRequest.ofJson request.aggregate = .ok aggregates ∧
      CompiledParts.compile s request aggregates = .ok c ∧
      p = c.plan s counts (Window.ofPage request.page request.limit options.defaultLimit) ∧
      c.Aliased s request aggregates := by
  obtain ⟨counts, aggregates, s, c, -, haggs, hsetting, hc, rfl⟩ := compile_eq_ok.mp h
  obtain ⟨hcheck, root, htable, rfl⟩ := setting_eq_ok.mp hsetting
  exact ⟨_, counts, aggregates, c, hsetting, haggs, hc, rfl,
    CompiledParts.compile_aliased (Catalog.mem_of_table? htable) (CompileOptions.aliasFault?_of_check hcheck) hc⟩

/-- The sample reaches the author and the tags from more than one of its parts. -/
theorem compile_chains_sample :
    ∃ p c aggregates, FindPlan.compile .blog "posts" .sample .standard = .ok p ∧
      CompiledParts.compile .blog .sample aggregates = .ok c ∧
      FindRequest.sample.chains .blog aggregates = [["tags"], ["author"], ["author"], ["tags"]] ∧
      c.draft.plan.aliasAt? ["author"] ≠ c.draft.plan.aliasAt? ["tags"] := by
  obtain ⟨p, hp⟩ := exists_eq_ok (x := FindPlan.compile .blog "posts" .sample .standard) (by decide +kernel)
  obtain ⟨s, counts, aggregates, c, hsetting, haggs, hc, -, haliased⟩ := FindPlan.compile_chains hp
  obtain rfl : Setting.blog = s := Except.ok.inj (FindPlan.setting_blog.symm.trans hsetting)
  have hchains : (AggregateRequest.ofJson FindRequest.sample.aggregate).toOption.map
      (FindRequest.sample.chains .blog ·) = some [["tags"], ["author"], ["author"], ["tags"]] := by
    decide +kernel
  rw [haggs] at hchains
  have hchains : FindRequest.sample.chains .blog aggregates = _ := Option.some.inj hchains
  refine ⟨p, c, aggregates, hp, hc, hchains, fun heq => ?_⟩
  have hsame := (haliased.identified Catalog.pathSafe_blog.legible ["author"] (by simp [hchains]) ["tags"]
    (by simp [hchains])).mp heq
  simp at hsame

/-- A filter on the relation `y` below `z`, and on the one that is called `z.y`. -/
def FindRequest.conflated : FindRequest :=
  { FindRequest.all with
    fields := ["id"]
    filter := .obj [("z", .obj [("y", .obj [("v", .int 1)])]), ("z.y", .obj [("v", .int 2)])] }

/-- The two chains lead to different tables and have one alias, so that both tests are of the same table. -/
theorem not_compile_chains_illegible :
    ∃ p s c, FindPlan.compile .illegible "a" .conflated .standard = .ok p ∧
      FindPlan.setting .illegible "a" .standard = .ok s ∧ CompiledParts.compile s .conflated [] = .ok c ∧
      FindRequest.conflated.chains s [] = [["z"], ["z", "y"], ["z.y"]] ∧
      (s.tableAt? ["z", "y"]).map (·.name) = some "c" ∧ (s.tableAt? ["z.y"]).map (·.name) = some "d" ∧
      c.draft.plan.aliasAt? ["z", "y"] = some "j1" ∧ c.draft.plan.aliasAt? ["z.y"] = some "j1" ∧
      p.data.source.joins.map (fun j => (j.tableAlias, j.table)) = [("j0", "c"), ("j1", "c")] ∧
      Condition.testsOfAll p.data.filter = [.compare ⟨"j1", "v"⟩ .eq (.int 1), .compare ⟨"j1", "v"⟩ .eq (.int 2)] := by
  obtain ⟨p, hp⟩ := exists_eq_ok (x := FindPlan.compile .illegible "a" .conflated .standard) (by decide +kernel)
  obtain ⟨counts, aggregates, s, c, -, haggs, hs, hc, -⟩ := FindPlan.compile_eq_ok.mp hp
  obtain rfl : [] = aggregates := Except.ok.inj haggs
  have hplan : (FindPlan.compile .illegible "a" .conflated .standard).toOption.map (fun p =>
      (p.data.source.joins.map fun j => (j.tableAlias, j.table), Condition.testsOfAll p.data.filter)) =
        some ([("j0", "c"), ("j1", "c")],
          [.compare ⟨"j1", "v"⟩ .eq (.int 1), .compare ⟨"j1", "v"⟩ .eq (.int 2)]) := by
    decide +kernel
  have hchains : (FindPlan.setting .illegible "a" .standard).toOption.map (fun s =>
      (FindRequest.conflated.chains s [], (s.tableAt? ["z", "y"]).map (·.name), (s.tableAt? ["z.y"]).map (·.name))) =
        some ([["z"], ["z", "y"], ["z.y"]], some "c", some "d") := by
    decide +kernel
  have haliases : (FindPlan.setting .illegible "a" .standard).toOption.bind (fun s =>
      (CompiledParts.compile s .conflated []).toOption.map fun c =>
        (c.draft.plan.aliasAt? ["z", "y"], c.draft.plan.aliasAt? ["z.y"])) = some (some "j1", some "j1") := by
    decide +kernel
  rw [hp] at hplan
  rw [hs] at hchains haliases
  obtain ⟨hjoins, htests⟩ := Prod.mk.inj (Option.some.inj hplan)
  obtain ⟨hchains, htables⟩ := Prod.mk.inj (Option.some.inj hchains)
  obtain ⟨hfirst, hsecond⟩ := Prod.mk.inj htables
  have hsame : (CompiledParts.compile s .conflated []).toOption.map (fun c =>
      (c.draft.plan.aliasAt? ["z", "y"], c.draft.plan.aliasAt? ["z.y"])) = some (some "j1", some "j1") := haliases
  rw [hc] at hsame
  obtain ⟨hone, hother⟩ := Prod.mk.inj (Option.some.inj hsame)
  exact ⟨p, s, c, hp, hs, hc, hchains, hfirst, hsecond, hone, hother, hjoins, htests⟩

end RecordService
