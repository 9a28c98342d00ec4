import RecordService.Proofs.Plan.Balance
import RecordService.Proofs.Plan.Joins
import RecordService.Proofs.Plan.Stages

/-! # What a compilation refers to

Every stage of a compilation keeps the joins a tree and refers only to columns of tables that the plan knows by then:
one lemma for each function of the compiler, from the steps of a path to the parts of a request. -/

namespace RecordService
open Sql

/-! ### Paths -/

/-- The steps lead from the table through relations, and at most at the end to a column. -/
inductive Catalog.Leads (catalog : Catalog) : Table → List PathStep → Prop
  | nil {table : Table} : Leads catalog table []
  | column {table : Table} {c : Column} : table.column? c.name = some c → Leads catalog table [.column c]
  | relation {table target : Table} {r : Relation} {rest : List PathStep} : table.relation? r.name = some r →
      catalog.target? r = some target → Leads catalog target rest → Leads catalog table (.relation r target :: rest)

theorem leads_walk {catalog : Catalog} : ∀ {segments : List String} {table : Table} {steps : List PathStep},
    walk catalog table segments = some steps → catalog.Leads table steps
  | [], table, steps, h => by
    cases h
    exact .nil
  | segment :: rest, table, steps, h => by
    rcases walk_cons_eq_some.mp h with ⟨r, target, more, hr, ht, hmore, rfl⟩ | ⟨c, -, hc, rfl, rfl⟩
    · exact .relation (Catalog.name_of_relation? hr ▸ hr) ht (leads_walk hmore)
    · exact .column (Catalog.name_of_column? hc ▸ hc)

/-- The plan knows the tables on the way, and the one that the path ends in. -/
def Resolved.Known (res : Resolved) (p : JoinPlan) (s : Setting) (u : Usage) : Prop :=
  (∀ hop ∈ res.hops, p.At s u hop.path hop.tableAlias hop.target) ∧
    match res with
    | .column _ tableAlias c => ∃ path table, p.At s u path tableAlias table ∧ table.column? c.name = some c
    | .relation _ parentPath parentAlias parent r target =>
      p.At s u parentPath parentAlias parent ∧ parent.relation? r.name = some r ∧ s.catalog.target? r = some target

variable {s : Setting} {p p' : JoinPlan} {u : Usage}

theorem JoinPlan.cross_spec {path tableAlias : String} {table target : Table} {r : Relation} (hs : s.Safe)
    (hp : p.Rooted s) (hat : p.At s u path tableAlias table) (hr : table.relation? r.name = some r)
    (ht : s.catalog.target? r = some target) :
    (p.cross path tableAlias r target u).2.Rooted s ∧ p.Grows (p.cross path tableAlias r target u).2 ∧
      (p.cross path tableAlias r target u).2.At s u (p.cross path tableAlias r target u).1.path
        (p.cross path tableAlias r target u).1.tableAlias target :=
  JoinPlan.join_spec hs hp hat hr ht

theorem JoinPlan.follow_spec {hops : List Hop} {path tableAlias : String} {table : Table} {steps : List PathStep}
    {res : Resolved} (hs : s.Safe) (hp : p.Rooted s) (hhops : ∀ hop ∈ hops, p.At s u hop.path hop.tableAlias hop.target)
    (hat : p.At s u path tableAlias table) (hleads : s.catalog.Leads table steps)
    (h : p.follow u hops path tableAlias table steps = some (res, p')) :
    p'.Rooted s ∧ p.Grows p' ∧ res.Known p' s u := by
  fun_induction JoinPlan.follow p u hops path tableAlias table steps with
  | case1 => cases h
  | case2 p hops path tableAlias table c =>
    cases h
    cases hleads with
    | column hc => exact ⟨hp, Grows.refl _, hhops, path, table, hat, hc⟩
  | case3 p hops path tableAlias table r target =>
    cases h
    cases hleads with
    | relation hr ht _ => exact ⟨hp, Grows.refl _, hhops, hat, hr, ht⟩
  | case4 p hops path tableAlias table r target rest hne hop p₁ hcross ih =>
    cases hleads with
    | relation hr ht hrest =>
      obtain ⟨hp₁, hgrows, hhop⟩ := cross_spec hs hp hat hr ht
      rw [hcross] at hp₁ hgrows hhop
      have htarget : hop.target = target := by
        have hfst := congrArg Prod.fst hcross
        exact (congrArg Hop.target hfst).symm
      have hhops₁ : ∀ hop' ∈ hops ++ [hop], p₁.At s u hop'.path hop'.tableAlias hop'.target := by
        intro hop' hmem
        rcases List.mem_append.mp hmem with hmem | hmem
        · exact (hhops hop' hmem).grows hgrows
        · rw [List.mem_singleton.mp hmem, htarget]
          exact hhop
      obtain ⟨hp', hgrows', hknown⟩ := ih hp₁ hhops₁ hhop hrest h
      exact ⟨hp', hgrows.trans hgrows', hknown⟩
  | case5 => cases h

theorem Setting.resolve?_spec {path : Path} {res : Resolved} (hs : s.Safe) (hp : p.Rooted s)
    (h : s.resolve? p path u = some (res, p')) : p'.Rooted s ∧ p.Grows p' ∧ res.Known p' s u := by
  obtain ⟨steps, hw, hfollow⟩ := resolve?_eq_some.mp h
  exact JoinPlan.follow_spec hs hp (fun _ hmem => absurd hmem List.not_mem_nil) (JoinPlan.at_root p s u)
    (leads_walk hw) hfollow

/-! ### Tests -/

namespace Test

/-- The column of the row that a test looks at. -/
def column? : Test → Option ColumnRef
  | isNull c _ | compare c _ _ | member c _ _ | between c _ _ | like c _ => some c
  | constant _ => none
  | count _ _ parent _ _ | setEq _ _ parent _ => some parent

/-- The link table that a test looks at in a subquery, and its alias there. -/
def subquery? : Test → Option (LinkTable × String)
  | count links scratch _ _ _ | setEq links scratch _ _ => some (links, scratch)
  | _ => none

end Test

/-- A link table is that of a relation of the catalog. -/
def Catalog.Links (catalog : Catalog) (l : LinkTable) : Prop :=
  ∃ parent ∈ catalog.tables, ∃ r ∈ parent.relations, ∃ target, catalog.target? r = some target ∧ l = r.links target

/-- A test refers to a column of the root or of a chosen join, and counts the links of a relation of the catalog. -/
structure Test.Fits (t : Test) (p : JoinPlan) (s : Setting) (K : Nat → Join → Prop) : Prop where
  column : ∀ c ∈ t.column?, p.Serves s K c
  links : ∀ l ∈ t.subquery?, s.catalog.Links l.1 ∧ ∃ n : Nat, l.2 = "s" ++ toString n

theorem Test.Fits.grows {t : Test} (h : t.Fits p s (p.Current u)) (hgrows : p.Grows p') : t.Fits p' s (p'.Current u) :=
  ⟨fun c hc => (h.column c hc).grows hgrows, h.links⟩

namespace Predicate

variable {q : Predicate} {t : Test} {col : ColumnRef} {type : ScalarType}

theorem column?_columnTest (h : q.columnTest col type = .ok t) : (∀ c ∈ t.column?, c = col) ∧ t.subquery? = none := by
  unfold columnTest at h
  split at h
  all_goals try split at h
  all_goals try cases h
  all_goals exact ⟨fun c hc => by cases hc <;> rfl, rfl⟩

theorem column?_countTest {c : Comparison} {links : LinkTable} {scratch : String}
    (h : q.countTest c links scratch col = .ok t) : t.column? = some col ∧ t.subquery? = some (links, scratch) := by
  unfold countTest at h
  split at h
  all_goals cases h
  all_goals exact ⟨rfl, rfl⟩

theorem column?_setTest {links : LinkTable} {scratch : String} (h : q.setTest type links scratch col = .ok t) :
    t.column? = some col ∧ t.subquery? = some (links, scratch) := by
  unfold setTest at h
  split at h
  all_goals cases h
  exact ⟨rfl, rfl⟩

theorem fits_columnTest {K : Nat → Join → Prop} (h : q.columnTest col type = .ok t) (hcol : p.Serves s K col) :
    t.Fits p s K := by
  obtain ⟨hcolumn, hsub⟩ := column?_columnTest h
  refine ⟨fun c hc => hcolumn c hc ▸ hcol, fun l hl => ?_⟩
  rw [hsub] at hl
  cases hl

theorem testOf_spec {res : Resolved} (hs : s.Safe) (hp : p.Rooted s) (hknown : res.Known p s u)
    (h : q.testOf u p res = .ok (t, p')) : p'.Rooted s ∧ p.Grows p' ∧ t.Fits p' s (p'.Current u) := by
  cases res with
  | column hops tableAlias column =>
    obtain ⟨htest, rfl⟩ := testOf_column_eq_ok.mp h
    obtain ⟨-, path, table, hat, hc⟩ := hknown
    exact ⟨hp, JoinPlan.Grows.refl _, fits_columnTest htest (hat.serves (Option.isSome_iff_exists.mpr ⟨_, hc⟩))⟩
  | relation hops parentPath parentAlias parent r target =>
    obtain ⟨-, hat, hr, ht⟩ := hknown
    have hmem := hat.reaches.mem hs
    have hkey : p.Serves s (p.Current u) ⟨parentAlias, r.joinKey⟩ :=
      hat.serves (Catalog.joinKey_declared hmem (Catalog.mem_of_relation? hr))
    have hlinks : s.catalog.Links (r.links target) := ⟨parent, hmem, r, Catalog.mem_of_relation? hr, target, ht, rfl⟩
    have hscratch {test : Test} (hc : test.column? = some ⟨parentAlias, r.joinKey⟩)
        (hl : test.subquery? = some (r.links target, p.scratch.1)) :
        test.Fits p.scratch.2 s (p.scratch.2.Current u) := by
      refine ⟨fun c hmem => ?_, fun l hmem => ?_⟩
      · rw [hc] at hmem
        cases hmem
        exact hkey.grows p.grows_scratch
      · rw [hl] at hmem
        cases hmem
        exact ⟨hlinks, p.scratches, rfl⟩
    rcases testOf_relation_eq_ok.mp h with ⟨c, -, -, hcount, rfl⟩ | ⟨-, -, hset, rfl⟩ | ⟨hkeys, rfl⟩
    · obtain ⟨hc, hl⟩ := column?_countTest hcount
      exact ⟨hp.scratch, p.grows_scratch, hscratch hc hl⟩
    · obtain ⟨hc, hl⟩ := column?_setTest hset
      exact ⟨hp.scratch, p.grows_scratch, hscratch hc hl⟩
    · obtain ⟨hp', hgrows, hat'⟩ := JoinPlan.cross_spec hs hp hat hr ht
      exact ⟨hp', hgrows, fits_columnTest hkeys
        (hat'.serves (Catalog.primaryKey_declared (hat'.reaches.mem hs)))⟩

end Predicate

/-! ### Drafts -/

theorem Predicate.compile_spec {q : Predicate} {d d' : Draft} {t : Option Test} (hs : s.Safe) (hp : d.plan.Rooted s)
    (h : q.compile s u d = .ok (t, d')) :
    d'.plan.Rooted s ∧ d.plan.Grows d'.plan ∧ ∀ test ∈ t, test.Fits d'.plan s (d'.plan.Current u) := by
  rcases compile_eq_ok.mp h with ⟨-, rfl, hd⟩ | ⟨res, plan, test, plan', hres, htest, rfl, rfl⟩
  · rw [Setting.plan_unresolved hd]
    exact ⟨hp, JoinPlan.Grows.refl _, fun _ hmem => nomatch hmem⟩
  · obtain ⟨hp₁, hgrows, hknown⟩ := Setting.resolve?_spec hs hp hres
    obtain ⟨hp', hgrows', hfits⟩ := testOf_spec hs hp₁ hknown htest
    refine ⟨hp', hgrows.trans hgrows', fun test' hmem => ?_⟩
    cases hmem
    exact hfits

namespace Filter

mutual

/-- Compiling a node keeps the joins a tree, and its tests fit the plan after it. -/
theorem compile_spec (hs : s.Safe) : ∀ (node : Filter) (d d' : Draft) (c : Option Condition), d.plan.Rooted s →
    node.compile s u d = .ok (c, d') →
      d'.plan.Rooted s ∧ d.plan.Grows d'.plan ∧
        ∀ t ∈ Condition.testsOfAll c.toList, t.Fits d'.plan s (d'.plan.Current u)
  | all children, d, d', c, hp, h => by
    obtain ⟨parts, hparts, rfl⟩ := compile_all_eq_ok.mp h
    rw [Condition.testsOfAll_groupOf]
    exact compileAll_spec hs children d d' parts hp hparts
  | any children, d, d', c, hp, h => by
    obtain ⟨parts, hparts, rfl⟩ := compile_any_eq_ok.mp h
    rw [Condition.testsOfAll_groupOf]
    exact compileAll_spec hs children d d' parts hp hparts
  | not child, d, d', c, hp, h => by
    obtain ⟨part, hpart, rfl⟩ := compile_not_eq_ok.mp h
    rw [Condition.testsOfAll_not]
    exact compile_spec hs child d d' part hp hpart
  | leaf q, d, d', c, hp, h => by
    obtain ⟨t, htest, rfl⟩ := compile_leaf_eq_ok.mp h
    obtain ⟨hp', hgrows, hfits⟩ := q.compile_spec hs hp htest
    rw [Condition.testsOfAll_test]
    exact ⟨hp', hgrows, fun test hmem => hfits test (Option.mem_toList.mp hmem)⟩

theorem compileAll_spec (hs : s.Safe) : ∀ (nodes : List Filter) (d d' : Draft) (parts : List Condition),
    d.plan.Rooted s → compileAll s u nodes d = .ok (parts, d') →
      d'.plan.Rooted s ∧ d.plan.Grows d'.plan ∧
        ∀ t ∈ Condition.testsOfAll parts, t.Fits d'.plan s (d'.plan.Current u)
  | [], d, d', parts, hp, h => by
    obtain ⟨rfl, rfl⟩ := compileAll_nil_eq_ok.mp h
    exact ⟨hp, JoinPlan.Grows.refl _, fun t hmem => absurd hmem List.not_mem_nil⟩
  | node :: rest, d, d', parts, hp, h => by
    obtain ⟨c, d₁, more, hnode, hrest, rfl⟩ := compileAll_cons_eq_ok.mp h
    obtain ⟨hp₁, hgrows₁, hfits₁⟩ := compile_spec hs node d d₁ c hp hnode
    obtain ⟨hp', hgrows', hfits'⟩ := compileAll_spec hs rest d₁ d' more hp₁ hrest
    refine ⟨hp', hgrows₁.trans hgrows', fun t hmem => ?_⟩
    rw [Condition.testsOfAll_append, List.mem_append] at hmem
    rcases hmem with hmem | hmem
    · exact (hfits₁ t hmem).grows hgrows'
    · exact hfits' t hmem

end

theorem compileJson_spec {filter : Json} {d d' : Draft} {parts : List Condition} (hs : s.Safe) (hp : d.plan.Rooted s)
    (h : compileJson s u filter d = .ok (parts, d')) :
    d'.plan.Rooted s ∧ d.plan.Grows d'.plan ∧
      ∀ t ∈ Condition.testsOfAll parts, t.Fits d'.plan s (d'.plan.Current u) := by
  obtain ⟨nodes, -, h⟩ := bind_eq_ok.mp h
  exact compileAll_spec hs nodes d d' parts hp h

end Filter
/-! ### Sort keys -/

theorem SortTerm.keyOf_spec {t : SortTerm} {res : Resolved} {c : ColumnRef} (hs : s.Safe) (hp : p.Rooted s)
    (hknown : res.Known p s .forSort) (h : t.keyOf p res = .ok (c, p')) :
    p'.Rooted s ∧ p.Grows p' ∧ p'.Serves s (p'.Current .forSort) c := by
  cases res with
  | column hops tableAlias column =>
    obtain ⟨-, rfl, rfl⟩ := keyOf_column_eq_ok.mp h
    obtain ⟨-, path, table, hat, hc⟩ := hknown
    exact ⟨hp, JoinPlan.Grows.refl p', hat.serves (Option.isSome_iff_exists.mpr ⟨_, hc⟩)⟩
  | relation hops parentPath parentAlias parent r target =>
    obtain ⟨-, -, rfl, rfl⟩ := keyOf_relation_eq_ok.mp h
    obtain ⟨-, hat, hr, ht⟩ := hknown
    obtain ⟨hp', hgrows, hat'⟩ := JoinPlan.cross_spec hs hp hat hr ht
    exact ⟨hp', hgrows, hat'.serves (Catalog.primaryKey_declared (hat'.reaches.mem hs))⟩

theorem SortTerm.compile_spec {t : SortTerm} {d d' : Draft} {column : Option ColumnRef} (hs : s.Safe)
    (hp : d.plan.Rooted s) (h : t.compile s d = .ok (column, d')) :
    d'.plan.Rooted s ∧ d.plan.Grows d'.plan ∧ ∀ c ∈ column, d'.plan.Serves s (d'.plan.Current .forSort) c := by
  rcases compile_eq_ok.mp h with ⟨-, rfl, hd⟩ | ⟨res, plan, c, plan', hres, hkey, rfl, rfl⟩
  · rw [Setting.plan_unresolved hd]
    exact ⟨hp, JoinPlan.Grows.refl _, fun _ hmem => nomatch hmem⟩
  · obtain ⟨hp₁, hgrows, hknown⟩ := Setting.resolve?_spec hs hp hres
    obtain ⟨hp', hgrows', hserves⟩ := t.keyOf_spec hs hp₁ hknown hkey
    refine ⟨hp', hgrows.trans hgrows', fun c' hmem => ?_⟩
    cases hmem
    exact hserves

namespace SortKey

theorem mem_insert {keys : List SortKey} {k k' : SortKey} (h : k' ∈ insert keys k) : k' ∈ keys ∨ k' = k := by
  unfold insert at h
  split at h
  · exact Or.inl h
  · simpa using h

theorem compileAll_spec (hs : s.Safe) : ∀ {terms : List SortTerm} {keys keys' : List SortKey} {d d' : Draft},
    d.plan.Rooted s → (∀ k ∈ keys, d.plan.Serves s (d.plan.Current .forSort) k.column) →
      compileAll s terms keys d = .ok (keys', d') →
        d'.plan.Rooted s ∧ d.plan.Grows d'.plan ∧
          ∀ k ∈ keys', d'.plan.Serves s (d'.plan.Current .forSort) k.column
  | [], keys, keys', d, d', hp, hkeys, h => by
    cases h
    exact ⟨hp, JoinPlan.Grows.refl _, hkeys⟩
  | t :: rest, keys, keys', d, d', hp, hkeys, h => by
    obtain ⟨column, d₁, hterm, h⟩ := compileAll_cons_eq_ok.mp h
    obtain ⟨hp₁, hgrows, hcolumn⟩ := t.compile_spec hs hp hterm
    have hkeys₁ : ∀ k ∈ keys, d₁.plan.Serves s (d₁.plan.Current .forSort) k.column :=
      fun k hmem => (hkeys k hmem).grows hgrows
    cases column with
    | none =>
      obtain ⟨hp', hgrows', hserves⟩ := compileAll_spec hs hp₁ hkeys₁ h
      exact ⟨hp', hgrows.trans hgrows', hserves⟩
    | some c =>
      have hkeys₂ : ∀ k ∈ insert keys ⟨c, t.descending⟩, d₁.plan.Serves s (d₁.plan.Current .forSort) k.column := by
        intro k hmem
        rcases mem_insert hmem with hmem | rfl
        · exact hkeys₁ k hmem
        · exact hcolumn c rfl
      obtain ⟨hp', hgrows', hserves⟩ := compileAll_spec hs hp₁ hkeys₂ h
      exact ⟨hp', hgrows.trans hgrows', hserves⟩

end SortKey

/-- The primary key of the root is a column of it. -/
theorem Setting.Safe.rootKey (hs : s.Safe) : (s.root.column? s.root.primaryKey).isSome = true :=
  Catalog.primaryKey_declared (Catalog.mem_of_table? hs.root)

theorem SortKey.listOf_spec {terms : List SortTerm} {keys : List SortKey} {d d' : Draft} (hs : s.Safe)
    (hp : d.plan.Rooted s) (h : listOf s terms d = .ok (keys, d')) :
    d'.plan.Rooted s ∧ d.plan.Grows d'.plan ∧ ∀ k ∈ keys, d'.plan.Serves s (d'.plan.Current .forSort) k.column := by
  obtain ⟨own, hown, rfl⟩ := listOf_eq_ok.mp h
  obtain ⟨hp', hgrows, hserves⟩ := compileAll_spec hs hp (fun k hmem => absurd hmem List.not_mem_nil) hown
  refine ⟨hp', hgrows, fun k hmem => ?_⟩
  rcases mem_insert hmem with hmem | rfl
  · exact hserves k hmem
  · exact (JoinPlan.at_root _ s _).serves hs.rootKey

/-! ### Projections -/

namespace Projection

/-- Every selected column belongs to a table that the plan knows for the projection. -/
def Fits (q : Projection) (p : JoinPlan) (s : Setting) : Prop :=
  ∀ c ∈ q.columns, p.Serves s (p.Current .forProjection) c.ref

variable {q : Projection} {hops : List Hop} {tableAlias path : String} {table : Table}

theorem Fits.grows (h : q.Fits p s) (hgrows : p.Grows p') : q.Fits p' s :=
  fun c hmem => (h c hmem).grows hgrows

theorem Fits.slot {ref : ColumnRef} {type : ScalarType} (h : q.Fits p s)
    (hserves : p.Serves s (p.Current .forProjection) ref) : (q.slot ref type).2.Fits p s := by
  unfold Projection.slot
  split
  · exact h
  · intro c hmem
    rcases List.mem_append.mp hmem with hmem | hmem
    · exact h c hmem
    · rw [List.mem_singleton.mp hmem]
      exact hserves

/-- The plan knows the tables of the hops. -/
def Travelled (hops : List Hop) (p : JoinPlan) (s : Setting) : Prop :=
  ∀ hop ∈ hops, p.At s .forProjection hop.path hop.tableAlias hop.target

theorem Travelled.grows (h : Travelled hops p s) (hgrows : p.Grows p') : Travelled hops p' s :=
  fun hop hmem => (h hop hmem).grows hgrows

theorem Travelled.snoc {hop : Hop} (h : Travelled hops p s)
    (hat : p.At s .forProjection hop.path hop.tableAlias hop.target) : Travelled (hops ++ [hop]) p s := by
  intro hop' hmem
  rcases List.mem_append.mp hmem with hmem | hmem
  · exact h hop' hmem
  · rw [List.mem_singleton.mp hmem]
    exact hat

theorem Fits.linksOf (hs : s.Safe) (h : q.Fits p s) (hhops : Travelled hops p s) : (q.linksOf hops).2.Fits p s := by
  induction hops generalizing q with
  | nil => exact h
  | cons hop rest ih =>
    have hat := hhops hop List.mem_cons_self
    exact ih (h.slot (hat.serves (Catalog.primaryKey_declared (hat.reaches.mem hs))))
      fun hop' hmem => hhops hop' (List.mem_cons_of_mem _ hmem)

theorem Fits.addRecords (hs : s.Safe) (h : q.Fits p s) (hhops : Travelled hops p s) : (q.addRecords hops).Fits p s :=
  h.linksOf hs hhops

theorem Fits.addField {column : Column} (hs : s.Safe) (h : q.Fits p s) (hhops : Travelled hops p s)
    (hat : p.At s .forProjection path tableAlias table) (hc : (table.column? column.name).isSome = true) :
    (q.addField hops tableAlias column).Fits p s :=
  (h.linksOf hs hhops).slot (hat.serves hc)

theorem column?_isSome {column : Column} (h : column ∈ table.columns) : (table.column? column.name).isSome = true := by
  unfold Table.column?
  rw [List.find?_isSome]
  exact ⟨column, h, by simp⟩

theorem Fits.addFields (hs : s.Safe) (hhops : Travelled hops p s)
    (hat : p.At s .forProjection path tableAlias table) : ∀ {columns : List Column} {q : Projection}, q.Fits p s →
      (∀ column ∈ columns, column ∈ table.columns) →
        (columns.foldl (fun q column => q.addField hops tableAlias column) q).Fits p s
  | [], _, h, _ => h
  | column :: rest, q, h, hmem => by
    rw [List.foldl_cons]
    have hc := column?_isSome (hmem column List.mem_cons_self)
    exact Fits.addFields hs hhops hat (h.addField hs hhops hat hc)
      fun column' h' => hmem column' (List.mem_cons_of_mem _ h')

theorem addRelations_spec (hs : s.Safe) : ∀ {relations : List Relation} {q : Projection} {p : JoinPlan},
    p.Rooted s → q.Fits p s → Travelled hops p s → p.At s .forProjection path tableAlias table →
      (∀ r ∈ relations, r ∈ table.relations) →
        (addRelations s hops tableAlias path table relations q p).2.Rooted s ∧
          p.Grows (addRelations s hops tableAlias path table relations q p).2 ∧
            (addRelations s hops tableAlias path table relations q p).1.Fits
              (addRelations s hops tableAlias path table relations q p).2 s
  | [], q, p, hp, h, _, _, _ => ⟨hp, JoinPlan.Grows.refl p, h⟩
  | r :: rest, q, p, hp, h, hhops, hat, hmem => by
    have hrest : ∀ r' ∈ rest, r' ∈ table.relations := fun r' h' => hmem r' (List.mem_cons_of_mem _ h')
    have hr : table.relation? r.name = some r :=
      Catalog.relation?_name (hs.names.distinct table (hat.reaches.mem hs)) (hmem r List.mem_cons_self)
    rw [addRelations]
    cases ht : s.catalog.target? r with
    | none => exact addRelations_spec hs hp h hhops hat hrest
    | some target =>
      dsimp only
      split
      · exact addRelations_spec hs hp (fun c hc => h c hc) hhops hat hrest
      · obtain ⟨hp₁, hgrows, hat₁⟩ := JoinPlan.cross_spec (u := .forProjection) hs hp hat hr ht
        have hhops₁ := (hhops.grows hgrows).snoc hat₁
        obtain ⟨hp', hgrows', hfits⟩ := addRelations_spec hs hp₁ ((h.grows hgrows).addRecords hs hhops₁)
          (hhops.grows hgrows) (hat.grows hgrows) hrest
        exact ⟨hp', hgrows.trans hgrows', hfits⟩

theorem addAll_spec (hs : s.Safe) (hp : p.Rooted s) (h : q.Fits p s) (hhops : Travelled hops p s)
    (hat : p.At s .forProjection path tableAlias table) :
    (addAll s hops tableAlias path table q p).2.Rooted s ∧ p.Grows (addAll s hops tableAlias path table q p).2 ∧
      (addAll s hops tableAlias path table q p).1.Fits (addAll s hops tableAlias path table q p).2 s :=
  addRelations_spec hs hp ((h.addFields hs hhops hat fun _ hmem => hmem).addRecords hs hhops) hhops hat
    fun _ hmem => hmem

theorem addition_spec {path : Path} (hs : s.Safe) (hp : p.Rooted s) (hq : q.Fits p s) :
    (addition s path q p).2.Rooted s ∧ p.Grows (addition s path q p).2 ∧
      ∀ q' ∈ (addition s path q p).1, q'.Fits (addition s path q p).2 s := by
  unfold addition
  split
  · split
    · obtain ⟨hp', hgrows, hfits⟩ :=
        addAll_spec hs hp hq (fun _ hmem => absurd hmem List.not_mem_nil) (JoinPlan.at_root p s _)
      exact ⟨hp', hgrows, fun q' hq' => Option.some.inj hq' ▸ hfits⟩
    · split
      · rename_i hops parentPath parentAlias parent r target plan hres
        obtain ⟨hp₁, hgrows₁, hhops, hat, hr, ht⟩ := Setting.resolve?_spec hs hp hres
        obtain ⟨hp₂, hgrows₂, hat₂⟩ := JoinPlan.cross_spec (u := .forProjection) hs hp₁ hat hr ht
        have hhops₂ : Travelled hops _ s := Travelled.grows hhops hgrows₂
        obtain ⟨hp', hgrows', hfits⟩ := addAll_spec hs hp₂ ((hq.grows hgrows₁).grows hgrows₂) (hhops₂.snoc hat₂) hat₂
        exact ⟨hp', (hgrows₁.trans hgrows₂).trans hgrows', fun q' hq' => Option.some.inj hq' ▸ hfits⟩
      · rename_i plan hres
        obtain ⟨hp₁, hgrows₁, -⟩ := Setting.resolve?_spec hs hp hres
        exact ⟨hp₁, hgrows₁, fun _ hq' => nomatch hq'⟩
      · exact ⟨hp, JoinPlan.Grows.refl p, fun _ hq' => nomatch hq'⟩
  · split
    · rename_i hops tableAlias column plan hres
      obtain ⟨hp₁, hgrows₁, hhops, path, table, hat, hc⟩ := Setting.resolve?_spec hs hp hres
      have hfits := (hq.grows hgrows₁).addField hs hhops hat (Option.isSome_iff_exists.mpr ⟨_, hc⟩)
      exact ⟨hp₁, hgrows₁, fun q' hq' => Option.some.inj hq' ▸ hfits⟩
    · rename_i hops parentPath parentAlias parent r target plan hres
      obtain ⟨hp₁, hgrows₁, hhops, hat, hr, ht⟩ := Setting.resolve?_spec hs hp hres
      obtain ⟨hp₂, hgrows₂, hat₂⟩ := JoinPlan.cross_spec (u := .forProjection) hs hp₁ hat hr ht
      have hhops₂ : Travelled hops _ s := Travelled.grows hhops hgrows₂
      have hfits := ((hq.grows hgrows₁).grows hgrows₂).addRecords hs (hhops₂.snoc hat₂)
      exact ⟨hp₂, hgrows₁.trans hgrows₂, fun q' hq' => Option.some.inj hq' ▸ hfits⟩
    · exact ⟨hp, JoinPlan.Grows.refl p, fun _ hq' => nomatch hq'⟩

theorem addPath_spec {path : Path} {d d' : Draft} {q' : Projection} (hs : s.Safe) (hp : d.plan.Rooted s)
    (hq : q.Fits d.plan s) (h : addPath s path q d = .ok (q', d')) :
    d'.plan.Rooted s ∧ d.plan.Grows d'.plan ∧ q'.Fits d'.plan s := by
  obtain ⟨hp', hgrows, hfits⟩ := @addition_spec _ _ _ path hs hp hq
  rcases addPath_eq_ok.mp h with ⟨plan, hadd, rfl, hun⟩ | ⟨plan, hadd, rfl⟩
  · rw [hadd] at hp' hgrows
    rw [Setting.plan_unresolved hun]
    exact ⟨hp', hgrows, hq.grows hgrows⟩
  · rw [hadd] at hp' hgrows hfits
    exact ⟨hp', hgrows, hfits q' rfl⟩

theorem addPaths_spec (hs : s.Safe) : ∀ {paths : List Path} {q q' : Projection} {d d' : Draft}, d.plan.Rooted s →
    q.Fits d.plan s → addPaths s paths q d = .ok (q', d') →
      d'.plan.Rooted s ∧ d.plan.Grows d'.plan ∧ q'.Fits d'.plan s
  | [], q, q', d, d', hp, hq, h => by
    cases h
    exact ⟨hp, JoinPlan.Grows.refl _, hq⟩
  | path :: rest, q, q', d, d', hp, hq, h => by
    rw [addPaths] at h
    obtain ⟨⟨q₁, d₁⟩, hpath, h⟩ := bind_eq_ok.mp h
    obtain ⟨hp₁, hgrows₁, hq₁⟩ := addPath_spec hs hp hq hpath
    obtain ⟨hp', hgrows', hq'⟩ := addPaths_spec hs hp₁ hq₁ h
    exact ⟨hp', hgrows₁.trans hgrows', hq'⟩

theorem ofFields_spec {fields : List Path} {d d' : Draft} {q' : Projection} (hs : s.Safe) (hp : d.plan.Rooted s)
    (h : ofFields s fields d = .ok (q', d')) : d'.plan.Rooted s ∧ d.plan.Grows d'.plan ∧ q'.Fits d'.plan s := by
  obtain ⟨q₁, hpaths, rfl⟩ := ofFields_eq_ok.mp h
  have hstart : (start d.plan.root s.root).Fits d.plan s := by
    intro c hmem
    rw [List.mem_singleton.mp hmem]
    exact (JoinPlan.at_root _ s _).serves hs.rootKey
  obtain ⟨hp', hgrows, hq'⟩ := addPaths_spec hs hp hstart hpaths
  exact ⟨hp', hgrows, fun c hmem => hq' c hmem⟩

end Projection

/-! ### Aggregates -/

namespace AggregateRequest

variable {r : AggregateRequest}

theorem target_spec {call : AggregateCall} (hs : s.Safe) (hp : p.Rooted s) (h : r.target s p = .ok (call, p')) :
    p'.Rooted s ∧ p.Grows p' ∧ p'.Serves s (p'.Current .forAggregate) call.column := by
  rcases target_inv h with ⟨-, -, rfl, rfl⟩ | ⟨-, ⟨_, _, column, hres, -, rfl⟩ |
    ⟨_, _, _, _, relation, target, plan, hres, -, rfl, rfl⟩⟩
  · exact ⟨hp, JoinPlan.Grows.refl _, (JoinPlan.at_root _ s _).serves hs.rootKey⟩
  · obtain ⟨hp₁, hgrows₁, -, path, table, hat, hc⟩ := Setting.resolve?_spec hs hp hres
    exact ⟨hp₁, hgrows₁, hat.serves (Option.isSome_iff_exists.mpr ⟨_, hc⟩)⟩
  · obtain ⟨hp₁, hgrows₁, -, hat, hr, ht⟩ := Setting.resolve?_spec hs hp hres
    obtain ⟨hp₂, hgrows₂, hat₂⟩ := JoinPlan.cross_spec (u := .forAggregate) hs hp₁ hat hr ht
    exact ⟨hp₂, hgrows₁.trans hgrows₂, hat₂.serves (Catalog.primaryKey_declared (hat₂.reaches.mem hs))⟩

end AggregateRequest

/-- An aggregate refers to the joins that its target and its condition have reached. -/
structure AggregateTerm.Fits (t : AggregateTerm) (p : JoinPlan) (s : Setting) : Prop where
  column : p.Serves s (fun k _ => k ∈ t.targetJoins) t.call.column
  condition : ∀ test ∈ Condition.testsOfAll t.condition, test.Fits p s fun k _ => k ∈ t.conditionJoins
  targetJoins : p.Closed s fun k _ => k ∈ t.targetJoins
  conditionJoins : p.Closed s fun k _ => k ∈ t.conditionJoins

namespace AggregateRequest

variable {r : AggregateRequest}

/-- An aggregate fits every plan that extends the one after it. -/
theorem compile_spec {d d' : Draft} {t : AggregateTerm} (hs : s.Safe) (hp : d.plan.Rooted s)
    (h : r.compile s d = .ok (t, d')) :
    d'.plan.Rooted s ∧ d.plan.Extends d'.plan ∧ ∀ p', d'.plan.Extends p' → t.Fits p' s := by
  obtain ⟨call, plan, condition, d₁, htarget, hcondition, rfl, rfl⟩ := compile_eq_ok.mp h
  obtain ⟨hp₁, hgrows₁, hcolumn⟩ := target_spec hs hp.record htarget
  obtain ⟨hp₂, hgrows₂, htests⟩ := Filter.compileJson_spec hs hp₁.recorded.record hcondition
  have hrec₁ : plan.recording.isSome = true := hgrows₁.running
  have hrec₂ : d₁.plan.recording.isSome = true := hgrows₂.running
  have hext₁ : plan.Extends d₁.plan :=
    (plan.extends_recorded.trans plan.recorded.2.extends_record).trans hgrows₂.toExtends
  refine ⟨hp₂.recorded, ((d.plan.extends_record.trans hgrows₁.toExtends).trans hext₁).trans d₁.plan.extends_recorded,
    fun p' hext => ?_⟩
  have hext₂ := d₁.plan.extends_recorded.trans hext
  refine ⟨hcolumn.recorded hrec₁ (hext₁.trans hext₂), fun test hmem => ?_,
    hp₁.closed_recorded hs hrec₁ (hext₁.trans hext₂), hp₂.closed_recorded hs hrec₂ hext₂⟩
  have hfits := htests test hmem
  exact ⟨fun c hc => (hfits.column c hc).recorded hrec₂ hext₂, hfits.links⟩

theorem compileAll_spec (hs : s.Safe) : ∀ {rs : List AggregateRequest} {d d' : Draft} {terms : List AggregateTerm},
    d.plan.Rooted s → compileAll s rs d = .ok (terms, d') →
      d'.plan.Rooted s ∧ d.plan.Extends d'.plan ∧ ∀ t ∈ terms, ∀ p', d'.plan.Extends p' → t.Fits p' s
  | [], d, d', terms, hp, h => by
    cases h
    exact ⟨hp, JoinPlan.Extends.refl _, fun t hmem => absurd hmem List.not_mem_nil⟩
  | r :: rest, d, d', terms, hp, h => by
    obtain ⟨t, d₁, more, hterm, hrest, rfl⟩ := compileAll_cons_eq_ok.mp h
    obtain ⟨hp₁, hext₁, hfits₁⟩ := compile_spec hs hp hterm
    obtain ⟨hp', hext', hfits'⟩ := compileAll_spec hs hp₁ hrest
    refine ⟨hp', hext₁.trans hext', fun t' hmem p' hext => ?_⟩
    rcases List.mem_cons.mp hmem with rfl | hmem
    · exact hfits₁ p' (hext'.trans hext)
    · exact hfits' t' hmem p' hext

end AggregateRequest
/-! ### Parts -/

/-- The parts of a request refer to joins of their own usage. -/
structure CompiledParts.Fits (c : CompiledParts) (s : Setting) : Prop where
  rooted : c.draft.plan.Rooted s
  root : c.draft.plan.root = s.options.rootAlias
  columns : ∀ w, Usage.forProjection.meets w = true →
    ∀ col ∈ c.projection.columns, c.draft.plan.Serves s (JoinPlan.Needs w) col.ref
  filter : ∀ w, Usage.forFilter.meets w = true →
    ∀ t ∈ Condition.testsOfAll c.filter, t.Fits c.draft.plan s (JoinPlan.Needs w)
  sort : ∀ w, Usage.forSort.meets w = true → ∀ k ∈ c.sort, c.draft.plan.Serves s (JoinPlan.Needs w) k.column
  aggregates : ∀ t ∈ c.aggregates, t.Fits c.draft.plan s

theorem CompiledParts.compile_spec {request : FindRequest} {aggregates : List AggregateRequest} {c : CompiledParts}
    (hs : s.Safe) (h : compile s request aggregates = .ok c) : c.Fits s := by
  obtain ⟨d₁, d₂, d₃, hproj, hfilter, hsort, haggs⟩ := compile_eq_ok.mp h
  obtain ⟨hp₁, hgrows₁, hcolumns⟩ := Projection.ofFields_spec hs (JoinPlan.rooted_start _ s) hproj
  obtain ⟨hp₂, hgrows₂, htests⟩ := Filter.compileJson_spec hs hp₁ hfilter
  obtain ⟨hp₃, hgrows₃, hkeys⟩ := SortKey.listOf_spec hs hp₂ hsort
  obtain ⟨hp₄, hext₄, hterms⟩ := AggregateRequest.compileAll_spec hs hp₃ haggs
  have hext₃ := hgrows₃.toExtends.trans hext₄
  have hext₂ := hgrows₂.toExtends.trans hext₃
  refine ⟨hp₄, (hgrows₁.toExtends.trans hext₂).root, fun w hw col hmem => (hcolumns col hmem).needs hw hext₂,
    fun w hw t hmem => ?_, fun w hw k hmem => (hkeys k hmem).needs hw hext₄,
    fun t hmem => hterms t hmem _ (JoinPlan.Extends.refl _)⟩
  have hfits := htests t hmem
  exact ⟨fun col hcol => (hfits.column col hcol).needs hw hext₃, hfits.links⟩

end RecordService
