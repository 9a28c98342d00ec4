import Mathlib.Data.List.Pairwise
import Mathlib.Logic.Relation
import RecordService.Proofs.Plan.Isolated

/-! # Joins below their parents

The stages of a compilation may follow each other in any number and order (`Setting.Stage`). Whatever they join is below
the root or a join planned before (`JoinPlan.Hung`), and of what sorts needs, nothing leads to many records
(`JoinPlan.Orderly`). Where names are legible, the row that a FROM clause has for a table on the way of a sort term
therefore follows from the row of the root (`JoinPlan.Orderly.rows_trail`). -/

namespace RecordService

/-! ### Stages -/

/-- One stage of a compilation, from a draft to the next. -/
inductive Setting.Stage (s : Setting) : Draft → Draft → Prop
  | fields {fields : List Path} {q : Projection} {d d' : Draft} :
      Projection.ofFields s fields d = .ok (q, d') → Stage s d d'
  | filter {filter : Json} {parts : List Condition} {d d' : Draft} :
      Filter.compileJson s .forFilter filter d = .ok (parts, d') → Stage s d d'
  | sort {terms : List SortTerm} {keys : List SortKey} {d d' : Draft} :
      SortKey.listOf s terms d = .ok (keys, d') → Stage s d d'
  | aggregates {requests : List AggregateRequest} {terms : List AggregateTerm} {d d' : Draft} :
      AggregateRequest.compileAll s requests d = .ok (terms, d') → Stage s d d'

/-- Any number of stages in any order. -/
abbrev Setting.Stages (s : Setting) : Draft → Draft → Prop :=
  Relation.ReflTransGen s.Stage

namespace JoinPlan

variable {p p' : JoinPlan} {u : Usage} {xs : List Crossing} {path tableAlias : String} {r : Relation} {target : Table}
  {i k : Nat} {j j' : Join} {s : Setting}

/-! ### Parents -/

/-- The alias stands for the path: it is that of the root, or of a join before the place. -/
def KnownBefore (p : JoinPlan) (k : Nat) (path tableAlias : String) : Prop :=
  path = "" ∧ tableAlias = p.root ∨
    ∃ i q, i < k ∧ p.joins[i]? = some q ∧ q.path = path ∧ q.tableAlias = tableAlias

theorem KnownBefore.known (h : p.KnownBefore k path tableAlias) : p.Known path tableAlias := by
  rcases h with h | ⟨i, q, -, hq, hpath, halias⟩
  · exact Or.inl h
  · exact Or.inr ⟨q, List.mem_of_getElem? hq, hpath, halias⟩

theorem Known.before (h : p.Known path tableAlias) : p.KnownBefore p.joins.length path tableAlias := by
  rcases h with h | ⟨q, hq, hpath, halias⟩
  · exact Or.inl h
  · obtain ⟨i, hi⟩ := List.mem_iff_getElem?.mp hq
    exact Or.inr ⟨i, q, (List.getElem?_eq_some_iff.mp hi).1, hi, hpath, halias⟩

theorem KnownBefore.mono (h : p.KnownBefore k path tableAlias) (hext : p.Extends p') :
    p'.KnownBefore k path tableAlias := by
  rcases h with ⟨hpath, halias⟩ | ⟨i, q, hi, hq, hpath, halias⟩
  · exact Or.inl ⟨hpath, halias.trans hext.root.symm⟩
  · obtain ⟨v, hq', -⟩ := hext.joins i q hq
    exact Or.inr ⟨i, _, hi, hq', hpath, halias⟩

/-- Each join is below an alias that stands for its path without the last name. -/
def Hung (p : JoinPlan) : Prop :=
  ∀ k j, p.joins[k]? = some j → ∃ path, j.path = extendPath path j.relation ∧ p.KnownBefore k path j.parentAlias

theorem Hung.crosses (hp : p.Hung) (h : p.Crosses u xs p') : p'.Hung := by
  induction h with
  | refl => exact hp
  | scratch => exact hp
  | join p path tableAlias r target hknown =>
    have hext := (p.gains_join path tableAlias r target u).toExtends
    intro k j hj
    rcases join_getElem? hj with ⟨q, v, hq, rfl⟩ | ⟨rfl, rfl⟩
    · obtain ⟨above, hpath, hbefore⟩ := hp k q hq
      exact ⟨above, hpath, hbefore.mono hext⟩
    · exact ⟨path, rfl, hknown.before.mono hext⟩
  | append _ _ ih ih' => exact ih' (ih hp)

/-! ### Orderly plans -/

/-- What holds of a plan after any stages: besides what is said of joins elsewhere, that they are below their parents, and
that those which sorts need are of relations that a path crosses, all of them to-one. -/
structure Orderly (p : JoinPlan) (s : Setting) : Prop where
  regular : p.Regular
  traced : p.Traced s
  hung : p.Hung
  root : p.root = s.options.rootAlias
  sorted : ∀ path, p.Carries .forSort path → ∃ x, s.Names x ∧ x.relation.isMany = false ∧ x.path = path

theorem orderly_start (s : Setting) : (start s.options.rootAlias).Orderly s where
  regular := regular_start _
  traced := traced_start _ s
  hung k j hj := by cases hj
  root := rfl
  sorted path h := by
    obtain ⟨j, hj, -⟩ := h
    cases hj

namespace Orderly

theorem of_joins (hp : p.Orderly s) (hroot : p'.root = p.root) (hbyPath : p'.byPath = p.byPath)
    (hjoins : p'.joins = p.joins) : p'.Orderly s where
  regular := (Gains.of_joins hroot hbyPath hjoins).regular hp.regular
  traced := hp.traced.of_joins hjoins
  hung k j hj := by
    obtain ⟨path, hpath, hbefore⟩ := hp.hung k j (hjoins ▸ hj)
    exact ⟨path, hpath, hbefore.mono (.of_joins hroot hbyPath hjoins)⟩
  root := hroot.trans hp.root
  sorted path h := hp.sorted path (by rwa [Carries, hjoins] at h)

theorem crosses (hp : p.Orderly s) (h : p.Crosses u xs p') (hxs : ∀ x ∈ xs, s.Joinable x)
    (hsort : u.sort = true → ∀ x ∈ xs, s.Names x ∧ x.relation.isMany = false) : p'.Orderly s where
  regular := h.gains.regular hp.regular
  traced := hp.traced.crosses h hxs
  hung := hp.hung.crosses h
  root := h.gains.root.trans hp.root
  sorted path hcarries := by
    rcases (h.gains.carries hp.regular .forSort path).mp hcarries with hold | ⟨n, hn, hmeets, hpath⟩
    · exact hp.sorted path hold
    · obtain ⟨x, hx, rfl⟩ := List.mem_map.mp hn
      have husage : u.sort = true := by simpa [Usage.meets, Usage.forSort] using hmeets
      obtain ⟨hnames, hone⟩ := hsort husage x hx
      exact ⟨x, hnames, hone, hpath⟩

end Orderly
end JoinPlan

/-! ### The stages keep a plan orderly -/

section
variable {s : Setting} {d d' : Draft}

theorem Filter.compileJson_orderly {u : Usage} {filter : Json} {parts : List Condition} (hp : d.plan.Orderly s)
    (husage : u.sort = false) (h : compileJson s u filter d = .ok (parts, d')) :
    d'.plan.Orderly s ∧ d.plan.Extends d'.plan := by
  have hcrosses := compileJson_crosses hp.regular h
  refine ⟨hp.crosses hcrosses (fun x hx => ?_) fun hsort => ?_, hcrosses.gains.toExtends⟩
  · obtain ⟨leaf, -, hx⟩ := List.mem_flatMap.mp hx
    exact (Predicate.names_of_crossed hx).joinable
  · rw [husage] at hsort
    cases hsort

theorem Projection.ofFields_orderly {fields : List Path} {q : Projection} (hroot : s.root ∈ s.catalog.tables)
    (hp : d.plan.Orderly s) (h : ofFields s fields d = .ok (q, d')) :
    d'.plan.Orderly s ∧ d.plan.Extends d'.plan := by
  obtain ⟨xs, hcrosses, hjoinable⟩ := ofFields_crosses hroot hp.regular h
  refine ⟨hp.crosses hcrosses hjoinable fun hsort => ?_, hcrosses.gains.toExtends⟩
  cases hsort

/-- A sort term that compiles crosses to-one relations only. -/
theorem SortTerm.crossed_toOne {t : SortTerm} {column : Option Sql.ColumnRef} (hp : d.plan.Regular)
    (h : t.compile s d = .ok (column, d')) : ∀ x ∈ s.crossed t.path, x.relation.isMany = false := by
  rcases compile_eq_ok.mp h with ⟨hlost, -, -⟩ | ⟨res, plan, key, plan', hres, hkey, -, -⟩
  · rw [Setting.crossed_of_lost hlost]
    exact fun x hx => absurd hx List.not_mem_nil
  · obtain ⟨-, hcrossings, -, -⟩ := Setting.resolve?_found hp hres
    rw [← hcrossings, Resolved.crossings]
    -- the relations on the way are those the hops cross
    have hone (hmany : res.throughMany = false) : ∀ x ∈ res.hops.map Hop.crossing, x.relation.isMany = false := by
      simpa [Resolved.throughMany, Hop.crossing] using hmany
    cases res with
    | column hops tableAlias column =>
      obtain ⟨hmany, -, -⟩ := keyOf_column_eq_ok.mp hkey
      rw [Resolved.final, List.append_nil]
      exact hone hmany
    | relation hops parentPath parentAlias parent r target =>
      obtain ⟨hmany, hr, -, -⟩ := keyOf_relation_eq_ok.mp hkey
      exact List.forall_mem_append.mpr ⟨hone hmany, List.forall_mem_singleton.mpr hr⟩

theorem SortKey.crossed_toOne : ∀ {terms : List SortTerm} {keys keys' : List SortKey} {d d' : Draft}, d.plan.Regular →
    compileAll s terms keys d = .ok (keys', d') → ∀ t ∈ terms, ∀ x ∈ s.crossed t.path, x.relation.isMany = false
  | [], _, _, _, _, _, _, t, ht => absurd ht List.not_mem_nil
  | first :: rest, keys, keys', d, d', hp, h, t, ht => by
    obtain ⟨column, d₁, hterm, hrest⟩ := compileAll_cons_eq_ok.mp h
    rcases List.mem_cons.mp ht with rfl | ht
    · exact SortTerm.crossed_toOne hp hterm
    · exact crossed_toOne ((SortTerm.compile_crosses hp hterm).gains.regular hp) hrest t ht

theorem SortKey.listOf_orderly {terms : List SortTerm} {keys : List SortKey} (hp : d.plan.Orderly s)
    (h : listOf s terms d = .ok (keys, d')) : d'.plan.Orderly s ∧ d.plan.Extends d'.plan := by
  have hcrosses := listOf_crosses hp.regular h
  obtain ⟨own, hown, -⟩ := listOf_eq_ok.mp h
  refine ⟨hp.crosses hcrosses (fun x hx => ?_) fun _ x hx => ?_, hcrosses.gains.toExtends⟩
  · obtain ⟨t, -, hx⟩ := List.mem_flatMap.mp hx
    exact (Setting.names_of_crossed hx).joinable
  · obtain ⟨t, ht, hx⟩ := List.mem_flatMap.mp hx
    exact ⟨Setting.names_of_crossed hx, crossed_toOne hp.regular hown t ht x hx⟩

theorem AggregateRequest.compile_orderly {r : AggregateRequest} {term : AggregateTerm} (hp : d.plan.Orderly s)
    (h : r.compile s d = .ok (term, d')) : d'.plan.Orderly s := by
  obtain ⟨call, plan, condition, d₁, htarget, hcondition, -, rfl⟩ := compile_eq_ok.mp h
  have hrecord : d.plan.record.Orderly s := hp.of_joins rfl rfl rfl
  have hplan := hrecord.crosses (target_crosses hrecord.regular htarget)
    (fun x hx => (names_of_targetCrossed hx).joinable) nofun
  have hrecorded : plan.recorded.2.record.Orderly s := hplan.of_joins rfl rfl rfl
  have hdone := (Filter.compileJson_orderly (d := ⟨plan.recorded.2.record, d.skipped⟩) hrecorded rfl hcondition).1
  exact hdone.of_joins rfl rfl rfl

theorem AggregateRequest.compileAll_orderly : ∀ {requests : List AggregateRequest} {terms : List AggregateTerm}
    {d d' : Draft}, d.plan.Orderly s → compileAll s requests d = .ok (terms, d') →
      d'.plan.Orderly s ∧ d.plan.Extends d'.plan
  | [], _, d, _, hp, h => by
    cases h
    exact ⟨hp, .refl d.plan⟩
  | r :: rest, _, d, d', hp, h => by
    obtain ⟨term, d₁, more, hterm, hrest, -⟩ := compileAll_cons_eq_ok.mp h
    have hext := (compile_gains hp.regular hterm).toExtends
    obtain ⟨hp', hext'⟩ := compileAll_orderly (compile_orderly hp hterm) hrest
    exact ⟨hp', hext.trans hext'⟩

theorem Setting.Stage.orderly (hroot : s.root ∈ s.catalog.tables) (h : s.Stage d d') (hp : d.plan.Orderly s) :
    d'.plan.Orderly s ∧ d.plan.Extends d'.plan := by
  cases h with
  | fields h => exact Projection.ofFields_orderly hroot hp h
  | filter h => exact Filter.compileJson_orderly hp rfl h
  | sort h => exact SortKey.listOf_orderly hp h
  | aggregates h => exact AggregateRequest.compileAll_orderly hp h

theorem Setting.Stages.orderly (hroot : s.root ∈ s.catalog.tables) (h : s.Stages d d') (hp : d.plan.Orderly s) :
    d'.plan.Orderly s ∧ d.plan.Extends d'.plan := by
  induction h with
  | refl => exact ⟨hp, .refl d.plan⟩
  | tail _ hstage ih =>
    obtain ⟨hp', hext⟩ := ih
    obtain ⟨hp'', hext'⟩ := hstage.orderly hroot hp'
    exact ⟨hp'', hext.trans hext'⟩

end

/-! ### Rows of an orderly plan -/

namespace JoinPlan.Orderly

variable {p : JoinPlan} {s : Setting} {u : Usage} {path tableAlias tableAlias' : String} {i k : Nat} {j j' : Join}
  {hops : List Hop} {table : Table}

/-- Where names are legible, sorts need no join that leads to many records. -/
theorem toOne (hp : p.Orderly s) (hnames : s.catalog.Legible) (hroot : s.root ∈ s.catalog.tables) (hj : j ∈ p.joins)
    (hsort : j.usage.meets .forSort = true) : j.many = false := by
  obtain ⟨x, hx, hone, hpath⟩ := hp.sorted j.path ⟨j, hj, rfl, hsort⟩
  exact hp.traced.toOne hnames hroot hj hx hone hpath.symm

/-- Where names are legible, the relation of a join is no part of the path before it. -/
theorem name_of_join (hp : p.Orderly s) (hnames : s.catalog.Legible) (hroot : s.root ∈ s.catalog.tables)
    (hj : j ∈ p.joins) : '.' ∉ j.relation.toList ∧ j.path ≠ "" := by
  obtain ⟨x, ⟨-, chain, t, ht, hr, -, hpath⟩, hof⟩ := hp.traced.of j hj
  obtain ⟨hnonempty, hdotless⟩ := hnames t (s.mem_of_tableAt? hroot ht) _ (List.mem_map_of_mem hr)
  rw [hof.relation, hof.path, hpath, dotted_concat]
  exact ⟨hdotless, extendPath_ne_empty hnonempty⟩

theorem known_unique (hp : p.Orderly s) (hnames : s.catalog.Legible) (hroot : s.root ∈ s.catalog.tables)
    (h : p.Known path tableAlias) (h' : p.Known path tableAlias') : tableAlias = tableAlias' := by
  rcases h with ⟨rfl, rfl⟩ | ⟨q, hq, rfl, rfl⟩
  · rcases h' with ⟨-, rfl⟩ | ⟨q, hq, hpath, -⟩
    · rfl
    · exact absurd hpath (hp.name_of_join hnames hroot hq).2
  · rcases h' with ⟨hpath, -⟩ | ⟨q', hq', hpath, rfl⟩
    · exact absurd hpath (hp.name_of_join hnames hroot hq).2
    · rw [List.inj_on_of_nodup_map hp.regular.indexed.distinct hq' hq hpath]

/-- Where names are legible, the join of a relation on a trail is below the table before it. -/
theorem parent_eq (hp : p.Orderly s) (hnames : s.catalog.Legible) (hroot : s.root ∈ s.catalog.tables)
    (htrail : p.Trail s u hops path tableAlias table) {r : Relation} (hr : table.relation? r.name = some r)
    (hj : j ∈ p.joins) (hpath : j.path = extendPath path r.name) : j.parentAlias = tableAlias := by
  obtain ⟨k, hk⟩ := List.mem_iff_getElem?.mp hj
  obtain ⟨above, habove, hbefore⟩ := hp.hung k j hk
  have htable := s.mem_of_tableAt? hroot htrail.tableAt?
  have hname := (hnames table htable r.name (List.mem_map_of_mem (Catalog.mem_of_relation? hr))).2
  obtain ⟨rfl, -⟩ := extendPath_inj (hp.name_of_join hnames hroot hj).1 hname (habove.symm.trans hpath)
  exact hp.known_unique hnames hroot hbefore.known htrail.known

variable (halias : CompileOptions.aliasFault? s.options.rootAlias = none)
include halias

/-- What a join and those after it add is not the parent of the join. -/
theorem clause_ne_parent (hp : p.Orderly s) (hj : p.joins[i]? = some j) (hj' : p.joins[k]? = some j') (hle : i ≤ k) :
    ∀ clause ∈ j'.clauses, clause.tableAlias ≠ j.parentAlias := by
  intro clause hclause heq
  have hplace := hp.traced.clause_alias hp.regular hj' clause hclause
  obtain ⟨above, -, ⟨-, hparent⟩ | ⟨i', q, hlt, hq, -, hparent⟩⟩ := hp.hung i j hj
  · have hgenerated : CompileOptions.isGenerated clause.tableAlias.toList = true :=
      isGenerated_alias (k := k) (hplace.imp_right Or.inl)
    exact CompileOptions.rootAlias_ne halias hgenerated (heq.trans (hparent.trans hp.root))
  · have hbefore : clause.tableAlias = joinAlias i' := by
      rw [heq, ← hparent, hp.regular.aliases i' q hq]
    have hsame := alias_place hplace (Or.inl hbefore)
    omega

theorem pairwise_joins (hp : p.Orderly s) : p.joins.Pairwise fun j other =>
    ∀ clause ∈ other.clauses, clause.tableAlias ≠ j.tableAlias ∧ clause.tableAlias ≠ j.parentAlias := by
  refine List.pairwise_iff_getElem.mpr fun i k hi hk hlt clause hclause => ?_
  have hj := List.getElem?_eq_getElem hi
  have hj' := List.getElem?_eq_getElem hk
  refine ⟨fun heq => ?_, hp.clause_ne_parent halias hj hj' (Nat.le_of_lt hlt) clause hclause⟩
  have hsame := alias_place (hp.traced.clause_alias hp.regular hj' clause hclause) (Or.inl (heq.trans (hp.regular.aliases i _ hj)))
  omega

/-- Where to-one joins are functional, the row for a table on the way of a sort term follows from the row of the root, in
the same way for all FROM clauses that have the joins of sorts. -/
theorem rows_trail (hp : p.Orderly s) (hnames : s.catalog.Legible) (hroot : s.root ∈ s.catalog.tables) {db : Database}
    (hdb : ∀ j ∈ p.joins, j.many = false → j.Functional db)
    (htrail : p.Trail s .forSort hops path tableAlias table) :
    ∃ value : TableRow → TableRow, ∀ w, Usage.forSort.meets w = true → ∀ table : String,
      ∀ row ∈ (Source.mk table p.root (p.joinsFor w)).rows db, row tableAlias = value (row p.root) := by
  induction htrail with
  | root => exact ⟨id, fun _ _ _ _ _ => rfl⟩
  | @step hops path tableAlias table hop htrail hr _ hpath hstands ih =>
    obtain ⟨value, hvalue⟩ := ih
    obtain ⟨j, hj, hjpath, hjalias, hwithin⟩ := hstands
    have hone := hp.toOne hnames hroot hj (hwithin .forSort rfl)
    have hparent := hp.parent_eq hnames hroot htrail hr hj (hjpath.trans hpath)
    obtain ⟨k, hk⟩ := List.mem_iff_getElem?.mp hj
    -- the join adds its row for that of its parent, and no join after it changes either
    refine ⟨fun row => j.value db (value row), fun w hw from' row hrow => ?_⟩
    have hmem : j ∈ p.joinsFor w := List.mem_filter.mpr ⟨hj, hwithin w hw⟩
    obtain ⟨before, after, hjoins⟩ := List.append_of_mem hmem
    have hpairs := (hp.pairwise_joins halias).filter (·.usage.meets w)
    rw [← joinsFor, hjoins, List.pairwise_append, List.pairwise_cons] at hpairs
    have hrow' := Source.row_join hjoins (hdb j hj hone)
      (hp.clause_ne_parent halias hk hk (Nat.le_refl k)) hpairs.2.1.1 hrow
    rw [← hjalias, hrow', hparent, hvalue w hw from' row hrow]

end JoinPlan.Orderly
end RecordService
