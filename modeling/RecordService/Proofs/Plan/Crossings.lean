import Mathlib.Data.List.Nodup
import RecordService.Proofs.Plan.Clauses
import RecordService.Proofs.Plan.Known

/-! # Crossed relations

A path of a request crosses the relations that it names, in order (`Setting.crossed`). Resolving it joins each, one
after the other (`JoinPlan.Crosses`), so that the plan grows by their joins and by nothing else (`JoinPlan.Gains`); the
hops of the resolved path are those relations with the aliases of their joins (`JoinPlan.Trail`). Nothing is assumed of
the names of relations: joins are told apart by their dotted paths alone. -/

namespace RecordService

/-! ### What a path crosses -/

/-- A relation below a dotted path, and where it leads. -/
structure Crossing where
  /-- The dotted path up to and with the relation. -/
  path : String
  relation : Relation
  target : Table
deriving DecidableEq, Repr

/-- The relations that the steps of a walk cross, from the table at a dotted path. -/
def PathStep.crossings (path : String) : List PathStep → List Crossing
  | [] => []
  | .relation r target :: rest =>
    ⟨extendPath path r.name, r, target⟩ :: crossings (extendPath path r.name) rest
  | .column _ :: rest => crossings path rest

/-- The relations that a path of the root table crosses. -/
def Setting.crossed (s : Setting) (path : Path) : List Crossing :=
  ((walk s.catalog s.root path.segments).map (PathStep.crossings "")).getD []

/-- The dotted path of relation names from the root. -/
def dotted (names : List String) : String :=
  names.foldl extendPath ""

theorem dotted_concat (names : List String) (name : String) :
    dotted (names ++ [name]) = extendPath (dotted names) name := by
  rw [dotted, List.foldl_append]
  rfl

def Hop.crossing (h : Hop) : Crossing :=
  ⟨h.path, h.relation, h.target⟩

/-- The relation that a resolved path ends in, if it does. -/
def Resolved.final : Resolved → List Crossing
  | column _ _ _ => []
  | relation _ parentPath _ _ r target => [⟨extendPath parentPath r.name, r, target⟩]

/-- All relations on the way of a resolved path, one that it ends in included. -/
def Resolved.crossings (res : Resolved) : List Crossing :=
  res.hops.map Hop.crossing ++ res.final

/-! ### Joins gained -/

/-- A relation that a part of a request needs joined. -/
structure Need where
  usage : Usage
  crossing : Crossing

/-- The join is one of the crossed relation. -/
structure Join.Of (j : Join) (x : Crossing) : Prop where
  path : j.path = x.path
  relation : j.relation = x.relation.name
  many : j.many = x.relation.isMany
  table : j.table = x.target.name

theorem Join.Of.widen {j : Join} {x : Crossing} (h : j.Of x) (u : Usage) : { j with usage := u }.Of x :=
  ⟨h.path, h.relation, h.many, h.table⟩

namespace JoinPlan

/-- The table of places finds the joins, no two of which are of one path, and each has the alias of its place. -/
structure Regular (p : JoinPlan) : Prop where
  indexed : p.Indexed
  aliases : ∀ (k : Nat) (j : Join), p.joins[k]? = some j → j.tableAlias = joinAlias k

/-- The plan answers with the alias of the join of the path. -/
theorem Indexed.alias?_eq_some_iff {p : JoinPlan} (hp : p.Indexed) {path tableAlias : String} :
    p.alias? path = some tableAlias ↔ ∃ j ∈ p.joins, j.path = path ∧ j.tableAlias = tableAlias := by
  rw [alias?, Option.bind_eq_some_iff]
  constructor
  · rintro ⟨k, hk, halias⟩
    obtain ⟨j, hj, rfl⟩ := Option.map_eq_some_iff.mp halias
    obtain ⟨j', hj', hpath⟩ := hp.index?_iff.mp hk
    obtain rfl := Option.some.inj (hj.symm.trans hj')
    exact ⟨j, List.mem_of_getElem? hj, hpath, rfl⟩
  · rintro ⟨j, hj, rfl, rfl⟩
    obtain ⟨k, hk⟩ := List.mem_iff_getElem?.mp hj
    exact ⟨k, hp.index?_path hk, by rw [placeAlias?, hk, Option.map_some]⟩

/-- There is a join of the path for a part of the usage. -/
def Carries (p : JoinPlan) (w : Usage) (path : String) : Prop :=
  ∃ j ∈ p.joins, j.path = path ∧ j.usage.meets w = true

/-- There is a join of the path with the alias, for all of the usage. -/
def Stands (p : JoinPlan) (u : Usage) (path tableAlias : String) : Prop :=
  ∃ j ∈ p.joins, j.path = path ∧ j.tableAlias = tableAlias ∧ u.Within j.usage

/-- The plan grows by what is needed and by nothing else. -/
structure Gains (p p' : JoinPlan) (needs : List Need) : Prop extends p.Extends p' where
  regular : p.Regular → p'.Regular
  carries : p.Regular → ∀ w path, p'.Carries w path ↔
    p.Carries w path ∨ ∃ n ∈ needs, n.usage.meets w = true ∧ n.crossing.path = path
  origin : ∀ (k : Nat) (j' : Join), p'.joins[k]? = some j' →
    (∃ j, p.joins[k]? = some j ∧ j' = { j with usage := j'.usage }) ∨ ∃ n ∈ needs, j'.Of n.crossing

variable {p p' p'' : JoinPlan} {needs more : List Need} {u w : Usage} {path tableAlias : String}

theorem carries_iff : p.Carries w path ↔ ∃ (k : Nat) (j : Join), p.joins[k]? = some j ∧ j.path = path ∧
    j.usage.meets w = true := by
  constructor
  · rintro ⟨j, hj, hpath, hmeets⟩
    obtain ⟨k, hk⟩ := List.mem_iff_getElem?.mp hj
    exact ⟨k, j, hk, hpath, hmeets⟩
  · rintro ⟨k, j, hk, hpath, hmeets⟩
    exact ⟨j, List.mem_iff_getElem?.mpr ⟨k, hk⟩, hpath, hmeets⟩

namespace Gains

/-- A plan gains nothing if its joins stay. -/
theorem of_joins (hroot : p'.root = p.root) (hbyPath : p'.byPath = p.byPath) (hjoins : p'.joins = p.joins) :
    p.Gains p' [] where
  toExtends := .of_joins hroot hbyPath hjoins
  regular h := ⟨h.indexed.of_paths hbyPath (by rw [hjoins]), hjoins ▸ h.aliases⟩
  carries _ w path := by simp [Carries, hjoins]
  origin k j' hj' := Or.inl ⟨j', hjoins ▸ hj', rfl⟩

theorem refl (p : JoinPlan) : p.Gains p [] :=
  of_joins rfl rfl rfl

theorem trans (h : p.Gains p' needs) (h' : p'.Gains p'' more) : p.Gains p'' (needs ++ more) where
  toExtends := h.toExtends.trans h'.toExtends
  regular hp := h'.regular (h.regular hp)
  carries hp w path := by
    rw [h'.carries (h.regular hp), h.carries hp]
    constructor
    · rintro ((hold | ⟨n, hn, hmeets⟩) | ⟨n, hn, hmeets⟩)
      · exact Or.inl hold
      · exact Or.inr ⟨n, List.mem_append_left more hn, hmeets⟩
      · exact Or.inr ⟨n, List.mem_append_right needs hn, hmeets⟩
    · rintro (hold | ⟨n, hn, hmeets⟩)
      · exact Or.inl (Or.inl hold)
      · rcases List.mem_append.mp hn with hn | hn
        · exact Or.inl (Or.inr ⟨n, hn, hmeets⟩)
        · exact Or.inr ⟨n, hn, hmeets⟩
  origin k j'' hj'' := by
    rcases h'.origin k j'' hj'' with ⟨j', hj', hsame'⟩ | ⟨n, hn, hof⟩
    · rcases h.origin k j' hj' with ⟨j, hj, hsame⟩ | ⟨n, hn, hof⟩
      · refine Or.inl ⟨j, hj, ?_⟩
        rw [hsame', hsame]
      · refine Or.inr ⟨n, List.mem_append_left more hn, ?_⟩
        rw [hsame']
        exact hof.widen j''.usage
    · exact Or.inr ⟨n, List.mem_append_right needs hn, hof⟩

theorem append {a b : List Crossing} (h : p.Gains p' (a.map (Need.mk u))) (h' : p'.Gains p'' (b.map (Need.mk u))) :
    p.Gains p'' ((a ++ b).map (Need.mk u)) := by
  rw [List.map_append]
  exact h.trans h'

end Gains

theorem Stands.mono (h : p.Stands u path tableAlias) (hext : p.Extends p') : p'.Stands u path tableAlias := by
  obtain ⟨j, hj, hpath, halias, hwithin⟩ := h
  obtain ⟨k, hk⟩ := List.mem_iff_getElem?.mp hj
  obtain ⟨u', hk', hu'⟩ := hext.joins k j hk
  exact ⟨_, List.mem_iff_getElem?.mpr ⟨k, hk'⟩, hpath, halias, hwithin.trans hu'⟩

/-- A path has one alias. -/
theorem Stands.unique {tableAlias' : String} {u' : Usage} (hp : p.Regular) (h : p.Stands u path tableAlias)
    (h' : p.Stands u' path tableAlias') : tableAlias = tableAlias' := by
  obtain ⟨j, hj, hpath, rfl, -⟩ := h
  obtain ⟨j', hj', hpath', rfl, -⟩ := h'
  rw [List.inj_on_of_nodup_map hp.indexed.distinct hj hj' (hpath.trans hpath'.symm)]

/-! ### One join -/

variable {r : Relation} {target : Table}

/-- What is at a place after a relation is joined was there before, or is its join, planned after all others. -/
theorem join_getElem? {k : Nat} {j : Join} (h : (p.join path tableAlias r target u).2.joins[k]? = some j) :
    (∃ q v, p.joins[k]? = some q ∧ j = { q with usage := v }) ∨
      k = p.joins.length ∧ j = newJoin k (extendPath path r.name) tableAlias r target u := by
  cases hindex : p.index? (extendPath path r.name) with
  | some place =>
    simp only [join, hindex] at h
    change (p.joins.modify place _)[k]? = some j at h
    rw [List.getElem?_modify] at h
    obtain ⟨q, hq, rfl⟩ := Option.map_eq_some_iff.mp h
    exact Or.inl ⟨q, if place = k then q.usage.union u else q.usage, hq, by split <;> rfl⟩
  | none =>
    obtain ⟨-, -, hputs⟩ := join_of_none tableAlias target u hindex
    obtain ⟨rfl, rfl⟩ | ⟨-, h⟩ := hputs.getElem?_eq_some.mp h
    · exact Or.inr ⟨rfl, rfl⟩
    · exact Or.inl ⟨j, j.usage, h, rfl⟩

theorem extends_join (p : JoinPlan) (path tableAlias : String) (r : Relation) (target : Table) (u : Usage) :
    p.Extends (p.join path tableAlias r target u).2 := by
  cases h : p.index? (extendPath path r.name) with
  | some place =>
    simp only [join, h]
    refine ⟨rfl, id, fun k q hq => ?_⟩
    change ∃ v, (p.joins.modify place _)[k]? = _ ∧ _
    rw [List.getElem?_modify, hq]
    by_cases hk : place = k
    · exact ⟨q.usage.union u, by simp [hk], Usage.within_union_left q.usage u⟩
    · exact ⟨q.usage, by simp [hk], Usage.Within.refl q.usage⟩
  | none =>
    obtain ⟨-, -, hputs⟩ := join_of_none tableAlias target u h
    exact (hputs.grows fun q hq => by simp at hq).toExtends

theorem Regular.join (hp : p.Regular) (path tableAlias : String) (r : Relation) (target : Table) (u : Usage) :
    (p.join path tableAlias r target u).2.Regular := by
  refine ⟨hp.indexed.join path tableAlias r target u, fun k j hj => ?_⟩
  rcases join_getElem? hj with ⟨q, v, hq, rfl⟩ | ⟨-, rfl⟩
  · exact hp.aliases k q hq
  · rfl

/-- Joining a relation whose path is planned widens the usage of its join. -/
theorem carries_of_some (hp : p.Indexed) (tableAlias : String) (target : Table) (u w : Usage) (path' : String)
    {place : Nat} (h : p.index? (extendPath path r.name) = some place) :
    (p.join path tableAlias r target u).2.Carries w path' ↔
      p.Carries w path' ∨ u.meets w = true ∧ extendPath path r.name = path' := by
  obtain ⟨q, hq, hpath, -, hputs⟩ := join_of_some hp tableAlias target u h
  have hext := extends_join p path tableAlias r target u
  generalize (p.join path tableAlias r target u).2 = p' at hputs hext
  constructor
  · intro hcarries
    -- the join of the path meets what it met before and what is asked for now
    obtain ⟨k, j', hj', hpath', hmeets⟩ := carries_iff.mp hcarries
    rcases hputs.getElem?_eq_some.mp hj' with ⟨rfl, rfl⟩ | ⟨-, hj⟩
    · rw [Usage.meets_union, Bool.or_eq_true] at hmeets
      rcases hmeets with hmeets | hmeets
      · exact Or.inl (carries_iff.mpr ⟨k, q, hq, hpath', hmeets⟩)
      · exact Or.inr ⟨hmeets, hpath.symm.trans hpath'⟩
    · exact Or.inl (carries_iff.mpr ⟨k, j', hj, hpath', hmeets⟩)
  · rintro (hcarries | ⟨hmeets, rfl⟩)
    · obtain ⟨k, j, hj, hpath', hmeets⟩ := carries_iff.mp hcarries
      obtain ⟨u', hj', hwithin⟩ := hext.joins k j hj
      exact carries_iff.mpr ⟨k, _, hj', hpath', hwithin w hmeets⟩
    · exact carries_iff.mpr ⟨place, _, hputs.here, hpath, Usage.within_union_right q.usage u w hmeets⟩

/-- Joining a relation whose path is new adds its join at the end. -/
theorem carries_of_none (tableAlias : String) (target : Table) (u w : Usage) (path' : String)
    (h : p.index? (extendPath path r.name) = none) :
    (p.join path tableAlias r target u).2.Carries w path' ↔
      p.Carries w path' ∨ u.meets w = true ∧ extendPath path r.name = path' := by
  obtain ⟨-, hjoins, -⟩ := join_of_none tableAlias target u h
  simp only [Carries, hjoins, List.mem_append, List.mem_singleton, or_and_right, exists_or, exists_eq_left]
  exact or_congr_right and_comm

/-- Joining a relation gains that relation. -/
theorem gains_join (p : JoinPlan) (path tableAlias : String) (r : Relation) (target : Table) (u : Usage) :
    p.Gains (p.join path tableAlias r target u).2 [⟨u, ⟨extendPath path r.name, r, target⟩⟩] where
  toExtends := p.extends_join path tableAlias r target u
  regular hp := hp.join path tableAlias r target u
  carries hp w path' := by
    simp only [List.mem_singleton, exists_eq_left]
    cases h : p.index? (extendPath path r.name) with
    | some place => exact carries_of_some hp.indexed tableAlias target u w path' h
    | none => exact carries_of_none tableAlias target u w path' h
  origin k j' hj' := by
    rcases join_getElem? hj' with ⟨q, v, hq, rfl⟩ | ⟨-, rfl⟩
    · exact Or.inl ⟨q, hq, rfl⟩
    · exact Or.inr ⟨_, List.mem_singleton.mpr rfl, rfl, rfl, rfl, rfl⟩

/-- The alias that joining gives stands for the path. -/
theorem stands_join (hp : p.Regular) (path tableAlias : String) (r : Relation) (target : Table) (u : Usage) :
    (p.join path tableAlias r target u).2.Stands u (extendPath path r.name) (p.join path tableAlias r target u).1 := by
  cases h : p.index? (extendPath path r.name) with
  | some place =>
    obtain ⟨q, hq, hpath, halias, hputs⟩ := join_of_some hp.indexed tableAlias target u h
    exact ⟨_, List.mem_iff_getElem?.mpr ⟨place, hputs.here⟩, hpath, halias.symm, Usage.within_union_right q.usage u⟩
  | none =>
    obtain ⟨halias, -, hputs⟩ := join_of_none tableAlias target u h
    exact ⟨_, List.mem_iff_getElem?.mpr ⟨_, hputs.here⟩, rfl, halias.symm, Usage.Within.refl u⟩

/-! ### Joins in a row -/

/-- The alias stands for the path, whatever it is joined for: it is that of the root, or of a join. -/
def Known (p : JoinPlan) (path tableAlias : String) : Prop :=
  path = "" ∧ tableAlias = p.root ∨ ∃ j ∈ p.joins, j.path = path ∧ j.tableAlias = tableAlias

/-- These relations are joined for the usage, one after the other, each below an alias that is known; aliases of
subqueries may be given out in between. -/
inductive Crosses (u : Usage) : JoinPlan → List Crossing → JoinPlan → Prop where
  | refl (p : JoinPlan) : Crosses u p [] p
  | scratch (p : JoinPlan) : Crosses u p [] p.scratch.2
  | join (p : JoinPlan) (path tableAlias : String) (r : Relation) (target : Table) (hknown : p.Known path tableAlias) :
      Crosses u p [⟨extendPath path r.name, r, target⟩] (p.join path tableAlias r target u).2
  | append {p p' p'' : JoinPlan} {xs ys : List Crossing} :
      Crosses u p xs p' → Crosses u p' ys p'' → Crosses u p (xs ++ ys) p''

theorem Crosses.gains {xs : List Crossing} (h : p.Crosses u xs p') : p.Gains p' (xs.map (Need.mk u)) := by
  induction h with
  | refl p => exact Gains.refl p
  | scratch p => exact Gains.of_joins rfl rfl rfl
  | join p path tableAlias r target _ => exact p.gains_join path tableAlias r target u
  | append _ _ ih ih' => exact ih.append ih'

/-! ### Paths -/

variable {s : Setting} {hops : List Hop} {table : Table} {hop : Hop}

/-- The hops lead from the root through declared relations, each joined, to the table at the dotted path, which the
alias stands for. -/
inductive Trail (s : Setting) (p : JoinPlan) (u : Usage) : List Hop → String → String → Table → Prop where
  | root : Trail s p u [] "" p.root s.root
  | step {hops : List Hop} {path tableAlias : String} {table : Table} {hop : Hop} :
      Trail s p u hops path tableAlias table →
      table.relation? hop.relation.name = some hop.relation → s.catalog.target? hop.relation = some hop.target →
      hop.path = extendPath path hop.relation.name → p.Stands u hop.path hop.tableAlias →
      Trail s p u (hops ++ [hop]) hop.path hop.tableAlias hop.target

theorem Trail.mono (h : p.Trail s u hops path tableAlias table) (hext : p.Extends p') :
    p'.Trail s u hops path tableAlias table := by
  induction h with
  | root =>
    rw [← hext.root]
    exact .root
  | step _ hr ht hpath hstands ih => exact ih.step hr ht hpath (hstands.mono hext)

theorem Trail.known (h : p.Trail s u hops path tableAlias table) : p.Known path tableAlias := by
  cases h with
  | root => exact Or.inl ⟨rfl, rfl⟩
  | step _ _ _ _ hstands =>
    obtain ⟨j, hj, hpath, halias, -⟩ := hstands
    exact Or.inr ⟨j, hj, hpath, halias⟩

theorem Trail.path_eq (h : p.Trail s u hops path tableAlias table) : path = dotted (hops.map (·.relation.name)) := by
  induction h with
  | root => rfl
  | step _ _ _ hpath _ ih => rw [hpath, ih, List.map_append, List.map_singleton, dotted_concat]

/-- A trail passes each of its hops. -/
theorem Trail.split (h : p.Trail s u hops path tableAlias table) : ∀ {before after : List Hop} {hop : Hop},
    hops = before ++ hop :: after → ∃ path' tableAlias' table', p.Trail s u before path' tableAlias' table' ∧
      table'.relation? hop.relation.name = some hop.relation ∧
      p.Trail s u (before ++ [hop]) hop.path hop.tableAlias hop.target := by
  induction h with
  | root =>
    intro before after hop heq
    simp at heq
  | @step hops path tableAlias table last htrail hr ht hpath hstands ih =>
    intro before after hop heq
    rcases List.eq_nil_or_concat after with rfl | ⟨init, x, rfl⟩
    · obtain ⟨rfl, hlast⟩ := List.append_inj' heq rfl
      cases hlast
      exact ⟨path, tableAlias, table, htrail, hr, htrail.step hr ht hpath hstands⟩
    · rw [List.concat_eq_append, ← List.cons_append, ← List.append_assoc] at heq
      exact ih (List.append_inj' heq rfl).1

/-- The names of the relations of a trail settle where it leads and by which alias. -/
theorem Trail.unique (hp : p.Regular) (h : p.Trail s u hops path tableAlias table) :
    ∀ {hops' : List Hop} {path' tableAlias' : String} {table' : Table},
      p.Trail s u hops' path' tableAlias' table' → hops.map (·.relation.name) = hops'.map (·.relation.name) →
        path = path' ∧ tableAlias = tableAlias' ∧ table = table' := by
  induction h with
  | root =>
    rintro hops' path' tableAlias' table' (- | @⟨_, _, _, _, hop, _⟩) hnames
    · exact ⟨rfl, rfl, rfl⟩
    · simp at hnames
  | @step hops path tableAlias table hop htrail hr ht hpath hstands ih =>
    rintro hops' path' tableAlias' table' (- | @⟨_, _, _, _, hop', htrail', hr', ht', hpath', hstands'⟩) hnames
    · simp at hnames
    · rw [List.map_append, List.map_append] at hnames
      obtain ⟨hinit, hlast⟩ := List.append_inj' hnames rfl
      obtain ⟨rfl, rfl, rfl⟩ := ih htrail' hinit
      have hname : hop.relation.name = hop'.relation.name := List.head_eq_of_cons_eq hlast
      rw [hname, hr'] at hr
      have hrelation : hop'.relation = hop.relation := Option.some.inj hr
      rw [hpath, hname, ← hpath'] at hstands ⊢
      rw [hrelation, ht] at ht'
      exact ⟨rfl, hstands.unique hp hstands', Option.some.inj ht'⟩

/-- Crossing a relation joins it, and goes on with the trail. -/
theorem cross_trail (hp : p.Regular) (htrail : p.Trail s u hops path tableAlias table)
    (hr : table.relation? r.name = some r) (ht : s.catalog.target? r = some target) :
    (p.cross path tableAlias r target u).1.crossing = ⟨extendPath path r.name, r, target⟩ ∧
      p.Crosses u [(p.cross path tableAlias r target u).1.crossing] (p.cross path tableAlias r target u).2 ∧
      (p.cross path tableAlias r target u).2.Trail s u (hops ++ [(p.cross path tableAlias r target u).1])
        (p.cross path tableAlias r target u).1.path (p.cross path tableAlias r target u).1.tableAlias target := by
  have hcrosses := Crosses.join (u := u) p path tableAlias r target htrail.known
  have hstands := stands_join hp path tableAlias r target u
  refine ⟨rfl, hcrosses, ?_⟩
  exact (htrail.mono hcrosses.gains.toExtends).step hr ht rfl hstands

end JoinPlan

namespace Resolved

/-- The names on the way of a resolved path. -/
def names : Resolved → List String
  | column hops _ c => hops.map (·.relation.name) ++ [c.name]
  | relation hops _ _ _ r _ => hops.map (·.relation.name) ++ [r.name]

/-- The path ends in what the table at the end of its hops declares. -/
inductive Found (s : Setting) (p : JoinPlan) (u : Usage) : Resolved → Prop where
  | column {hops : List Hop} {path tableAlias : String} {table : Table} {c : Column} :
      p.Trail s u hops path tableAlias table → table.column? c.name = some c → Found s p u (.column hops tableAlias c)
  | relation {hops : List Hop} {path tableAlias : String} {table target : Table} {r : Relation} :
      p.Trail s u hops path tableAlias table →
      table.relation? r.name = some r → s.catalog.target? r = some target →
      Found s p u (.relation hops path tableAlias table r target)

end Resolved

open JoinPlan (Crosses Trail)

variable {s : Setting} {p p' : JoinPlan} {u : Usage} {res : Resolved}

/-- Following steps joins the relations on the way; one that the steps end in is left to the caller. -/
theorem JoinPlan.follow_found {hops : List Hop} {path tableAlias : String} {table : Table} {steps : List PathStep}
    (hp : p.Regular) (htrail : p.Trail s u hops path tableAlias table) (hleads : s.catalog.Leads table steps)
    (h : p.follow u hops path tableAlias table steps = some (res, p')) :
    (∃ more, res.hops = hops ++ more ∧ p.Crosses u (more.map Hop.crossing) p' ∧
      more.map Hop.crossing ++ res.final = PathStep.crossings path steps) ∧
      res.Found s p' u ∧ res.names = hops.map (·.relation.name) ++ steps.map PathStep.name := by
  -- along the steps: each one crossed is added to those before it
  fun_induction JoinPlan.follow p u hops path tableAlias table steps with
  | case1 => cases h
  | case2 p hops path tableAlias table c =>
    cases h
    cases hleads with
    | column hc => exact ⟨⟨[], (List.append_nil hops).symm, .refl _, rfl⟩, .column htrail hc, rfl⟩
  | case3 p hops path tableAlias table r target =>
    cases h
    cases hleads with
    | relation hr ht _ => exact ⟨⟨[], (List.append_nil hops).symm, .refl _, rfl⟩, .relation htrail hr ht, rfl⟩
  | case4 p hops path tableAlias table r target rest hne hop p₁ hcross ih =>
    cases hleads with
    | relation hr ht hrest =>
      obtain ⟨hcrossing, hcrosses, htrail₁⟩ := cross_trail hp htrail hr ht
      rw [hcross] at hcrossing hcrosses htrail₁
      have hrelation : hop.relation = r := congrArg Crossing.relation hcrossing
      have hpath : hop.path = extendPath path r.name := congrArg Crossing.path hcrossing
      obtain ⟨⟨more, hhops, hmore, hcrossings⟩, hfound, hnames⟩ := ih (hcrosses.gains.regular hp) htrail₁ hrest h
      refine ⟨⟨hop :: more, ?_, ?_, ?_⟩, hfound, ?_⟩
      · rw [hhops, List.append_assoc, List.singleton_append]
      · exact hcrosses.append hmore
      · rw [List.map_cons, List.cons_append, hcrossings, hcrossing, hpath, PathStep.crossings]
      · rw [hnames, List.map_append, List.append_assoc, List.map_singleton, hrelation, List.map_cons]
        rfl
  | case5 => cases h

/-- Resolving a path joins the relations that it crosses, except for one that it ends in. -/
theorem Setting.resolve?_found {path : Path} (hp : p.Regular) (h : s.resolve? p path u = some (res, p')) :
    p.Crosses u (res.hops.map Hop.crossing) p' ∧ res.crossings = s.crossed path ∧
      res.Found s p' u ∧ res.names = path.segments := by
  obtain ⟨steps, hw, hfollow⟩ := resolve?_eq_some.mp h
  obtain ⟨⟨more, hhops, hcrosses, hcrossings⟩, hfound, hnames⟩ :=
    JoinPlan.follow_found hp .root (leads_walk hw) hfollow
  rw [List.nil_append] at hhops
  refine ⟨hhops ▸ hcrosses, ?_, hfound, ?_⟩
  · rw [Resolved.crossings, hhops, hcrossings, crossed, hw]
    rfl
  · rw [hnames, names_walk hw]
    rfl

theorem PathStep.path_of_crossings {catalog : Catalog} {table : Table} {steps : List PathStep}
    (h : catalog.Leads table steps) (path : String) {k : Nat} {x : Crossing}
    (hx : (crossings path steps)[k]? = some x) : x.path = ((steps.map name).take (k + 1)).foldl extendPath path := by
  induction h generalizing path k with
  | nil => simp [crossings] at hx
  | column => simp [crossings] at hx
  | @relation table target r rest _ _ _ ih =>
    rw [crossings] at hx
    cases k with
    | zero =>
      cases hx
      rfl
    | succ k => exact ih (extendPath path r.name) hx

/-- The relations that a path crosses have the prefixes of the path for their dotted paths. -/
theorem Setting.path_of_crossed {path : Path} {k : Nat} {x : Crossing} (h : (s.crossed path)[k]? = some x) :
    x.path = dotted (path.segments.take (k + 1)) := by
  unfold crossed at h
  cases hw : walk s.catalog s.root path.segments with
  | none => simp [hw] at h
  | some steps =>
    simp only [hw, Option.map_some, Option.getD_some] at h
    rw [PathStep.path_of_crossings (leads_walk hw) "" h, names_walk hw]
    rfl

end RecordService
