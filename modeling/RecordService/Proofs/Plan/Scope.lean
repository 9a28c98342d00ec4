import RecordService.Proofs.Plan.Known
import Mathlib.Data.List.Nodup

/-! # Statements refer to what they bind

A statement is in scope (`FindPlan.Scoped`) when every join of each of its FROM clauses follows its parent, and every
column it refers to is one of a table that the FROM clause around it binds, under an alias that stands for nothing else
there. A FROM clause takes some of the joins of the plan; it is sound because the joins it takes are closed under
parents (`JoinPlan.sound_pick`). -/

namespace RecordService
open Sql

/-! ### Aliases -/

theorem toList_toString_nat (n : Nat) : (toString n).toList = Nat.toDigits 10 n := by
  rw [show (toString n : String) = n.repr from rfl, Nat.toList_repr]

theorem toDigits_inj {m n : Nat} (h : Nat.toDigits 10 m = Nat.toDigits 10 n) : m = n := by
  have hvalue := congrArg (fun ds => Nat.ofDigitChars 10 ds 0) h
  simpa using hvalue

theorem isDigit_of_mem {n : Nat} {c : Char} (h : c ∈ Nat.toDigits 10 n) : c.isDigit = true :=
  Nat.isDigit_of_mem_toDigits (by decide) (by decide) h

theorem isNumbered_toDigits (n : Nat) : CompileOptions.isNumbered (Nat.toDigits 10 n) = true := by
  have hne : Nat.toDigits 10 n ≠ [] := by
    intro h
    have hlen := Nat.length_toDigits_pos (b := 10) (n := n)
    rw [h] at hlen
    cases hlen
  simp only [CompileOptions.isNumbered, Bool.and_eq_true, Bool.not_eq_true', List.isEmpty_eq_false_iff,
    List.all_eq_true]
  exact ⟨hne, fun c hc => isDigit_of_mem hc⟩

namespace JoinPlan

theorem toList_joinAlias (k : Nat) : (joinAlias k).toList = 'j' :: Nat.toDigits 10 k := by
  rw [joinAlias, String.toList_append, toList_toString_nat]
  rfl

theorem toList_linkAlias (k : Nat) :
    (linkAlias (joinAlias k)).toList = 'j' :: (Nat.toDigits 10 k ++ ['_', 'l', 'i', 'n', 'k']) := by
  rw [linkAlias, String.toList_append, toList_joinAlias]
  rfl

theorem joinAlias_inj {k l : Nat} (h : joinAlias k = joinAlias l) : k = l := by
  have hlist := congrArg String.toList h
  rw [toList_joinAlias, toList_joinAlias] at hlist
  exact toDigits_inj (List.cons.inj hlist).2

theorem linkAlias_inj {k l : Nat} (h : linkAlias (joinAlias k) = linkAlias (joinAlias l)) : k = l := by
  have hlist := congrArg String.toList h
  rw [toList_linkAlias, toList_linkAlias] at hlist
  exact toDigits_inj (List.append_cancel_right (List.cons.inj hlist).2)

theorem joinAlias_ne_linkAlias (k l : Nat) : joinAlias k ≠ linkAlias (joinAlias l) := by
  intro h
  have hlist := congrArg String.toList h
  rw [toList_joinAlias, toList_linkAlias] at hlist
  have hmem : '_' ∈ Nat.toDigits 10 k := by
    rw [(List.cons.inj hlist).2]
    simp
  exact absurd (isDigit_of_mem hmem) (by decide)

/-- The aliases that joins and subqueries get. -/
theorem isGenerated_alias {name : String} {k : Nat}
    (h : name = joinAlias k ∨ name = linkAlias (joinAlias k) ∨ name = "s" ++ toString k) :
    CompileOptions.isGenerated name.toList = true := by
  have hnumbered := isNumbered_toDigits k
  rcases h with rfl | rfl | rfl
  · rw [toList_joinAlias]
    have hsuffix : ['_', 'l', 'i', 'n', 'k'].isSuffixOf (Nat.toDigits 10 k) = false := by
      rw [Bool.eq_false_iff]
      intro h
      have hmem : '_' ∈ Nat.toDigits 10 k := (List.isSuffixOf_iff_suffix.mp h).subset (by simp)
      exact absurd (isDigit_of_mem hmem) (by decide)
    simp [CompileOptions.isGenerated, CompileOptions.dropEnding, hsuffix, hnumbered]
  · rw [toList_linkAlias]
    have hsuffix : ['_', 'l', 'i', 'n', 'k'].isSuffixOf (Nat.toDigits 10 k ++ ['_', 'l', 'i', 'n', 'k']) = true :=
      List.isSuffixOf_iff_suffix.mpr (List.suffix_append _ _)
    simp only [CompileOptions.isGenerated, CompileOptions.dropEnding, hsuffix, if_true, List.length_append,
      List.length_cons, List.length_nil, Nat.add_sub_cancel, List.take_left']
    exact hnumbered
  · rw [String.toList_append, toList_toString_nat]
    simp [CompileOptions.isGenerated, hnumbered]

end JoinPlan

/-- The root's alias is none of those that compilation makes up. -/
theorem CompileOptions.rootAlias_ne {o : CompileOptions} (hfault : aliasFault? o.rootAlias = none) {name : String}
    (h : isGenerated name.toList = true) : name ≠ o.rootAlias := by
  rintro rfl
  unfold aliasFault? at hfault
  rw [h] at hfault
  split at hfault
  · cases hfault
  · split at hfault
    · cases hfault
    · cases hfault

theorem CompileOptions.aliasFault?_of_check {o : CompileOptions} (h : o.check = .ok ()) :
    aliasFault? o.rootAlias = none := by
  unfold check at h
  split at h
  · cases h
  · assumption

theorem Setting.Safe.rootAlias_ne {s : Setting} (hs : s.Safe) {name : String}
    (h : CompileOptions.isGenerated name.toList = true) : name ≠ s.options.rootAlias :=
  CompileOptions.rootAlias_ne hs.rootAlias h

/-! ### Scopes -/

/-- The aliases that a join brings into a FROM clause. -/
def Join.aliases (j : Join) : List String :=
  (j.link.map (·.tableAlias)).toList ++ [j.tableAlias]

namespace Source

def aliases (src : Source) : List String :=
  src.tableAlias :: src.joins.flatMap Join.aliases

/-- The FROM clause binds the alias to the table. -/
def Binds (src : Source) (tableAlias table : String) : Prop :=
  tableAlias = src.tableAlias ∧ table = src.table ∨ ∃ j ∈ src.joins, tableAlias = j.tableAlias ∧ table = j.table

/-- The FROM clause binds the alias of the column to a table that declares it. -/
def Declares (src : Source) (catalog : Catalog) (c : ColumnRef) : Prop :=
  ∃ table, src.Binds c.tableAlias table.name ∧ catalog.table? table.name = some table ∧
    (table.column? c.column).isSome = true

/-- Every join follows its parent, and joins by declared columns; no alias is bound twice. -/
structure Sound (src : Source) (catalog : Catalog) : Prop where
  distinct : src.aliases.Nodup
  parents : ∀ before j after, src.joins = before ++ j :: after →
    j.parentAlias = src.tableAlias ∨ ∃ i ∈ before, j.parentAlias = i.tableAlias
  keys : ∀ j ∈ src.joins,
    src.Declares catalog ⟨j.parentAlias, j.parentKey⟩ ∧ src.Declares catalog ⟨j.tableAlias, j.targetKey⟩

end Source

/-- A link table is a junction, or a table of the catalog that declares both columns. -/
def LinkTable.Declared (l : LinkTable) (catalog : Catalog) : Prop :=
  (∃ t ∈ catalog.tables, ∃ r ∈ t.relations, ∃ j, r.junction = some j ∧ l = ⟨j.table, j.sourceKey, j.targetKey⟩) ∨
    ∃ t, catalog.table? l.table = some t ∧ (t.column? l.parentKey).isSome = true ∧
      (t.column? l.targetKey).isSome = true

/-- The test looks at a declared column of the row, and at links under an alias that is not bound around it. -/
structure Test.Scoped (t : Test) (catalog : Catalog) (src : Source) : Prop where
  column : ∀ c ∈ t.column?, src.Declares catalog c
  links : ∀ l ∈ t.subquery?, l.1.Declared catalog ∧ l.2 ∉ src.aliases

/-- All tests of the conditions are in scope. -/
def Condition.Scoped (parts : List Condition) (catalog : Catalog) (src : Source) : Prop :=
  ∀ t ∈ testsOfAll parts, t.Scoped catalog src

/-- The subquery is in scope by itself, and its key around it too. -/
structure SemiJoin.Scoped (j : SemiJoin) (catalog : Catalog) (outer : Source) : Prop where
  outer : outer.Declares catalog j.key
  source : j.source.Sound catalog
  key : j.source.Declares catalog j.key
  conditions : Condition.Scoped j.conditions catalog j.source

structure KeyPage.Scoped (p : KeyPage) (catalog : Catalog) (outer : Source) : Prop where
  outer : outer.Declares catalog p.key
  source : p.source.Sound catalog
  key : p.source.Declares catalog p.key
  filter : Condition.Scoped p.filter catalog p.source
  sort : ∀ k ∈ p.sort, p.source.Declares catalog k.column

structure RowQuery.Scoped (q : RowQuery) (catalog : Catalog) : Prop where
  source : q.source.Sound catalog
  columns : ∀ c ∈ q.columns, q.source.Declares catalog c
  filter : Condition.Scoped q.filter catalog q.source
  sort : ∀ k ∈ q.sort, q.source.Declares catalog k.column
  relatedKeys : ∀ c ∈ q.relatedKeys, q.source.Declares catalog c
  page : ∀ page, q.paging = .keys page → page.Scoped catalog q.source

def CountQuery.Scoped (catalog : Catalog) : CountQuery → Prop
  | .all table => ∃ t, catalog.table? table = some t
  | .filtered key source filter =>
    source.Sound catalog ∧ source.Declares catalog key ∧ Condition.Scoped filter catalog source

def RowChoice.Scoped (catalog : Catalog) (outer : Source) : RowChoice → Prop
  | .meeting conditions => Condition.Scoped conditions catalog outer
  | .within records => records.Scoped catalog outer

structure AggregateSelect.Scoped (a : AggregateSelect) (catalog : Catalog) : Prop where
  source : a.source.Sound catalog
  column : a.source.Declares catalog a.call.column
  rows : a.rows.Scoped catalog a.source
  records : ∀ r ∈ a.records, r.Scoped catalog a.source

/-- Every statement of the plan is in scope. -/
structure FindPlan.Scoped (p : FindPlan) (catalog : Catalog) : Prop where
  data : p.data.Scoped catalog
  totalCount : ∀ q ∈ p.totalCount, q.Scoped catalog
  filterCount : ∀ q ∈ p.filterCount, q.Scoped catalog
  aggregate : ∀ q ∈ p.aggregate, ∀ a ∈ q.parts, a.Scoped catalog

/-! ### FROM clauses of a plan -/

namespace JoinPlan

variable {s : Setting} {p : JoinPlan} {keep : Join → Nat → Bool}

/-- The joins of a plan that a FROM clause takes. -/
def pick (p : JoinPlan) (keep : Join → Nat → Bool) : List Join :=
  (p.joins.zipIdx.filter fun x => keep x.1 x.2).map (·.1)

/-- The places that a FROM clause takes. -/
abbrev Kept (keep : Join → Nat → Bool) (k : Nat) (q : Join) : Prop :=
  keep q k = true

theorem joinsFor_eq (p : JoinPlan) (w : Usage) : p.joinsFor w = p.pick fun q _ => q.usage.meets w := by
  have h : p.joins = p.joins.zipIdx.map (·.1) := by simp
  unfold joinsFor pick
  conv => lhs; rw [h]
  rw [List.filter_map]
  rfl

theorem mem_pick {j : Join} : j ∈ p.pick keep ↔ ∃ i, p.joins[i]? = some j ∧ Kept keep i j := by
  simp only [pick, List.mem_map, List.mem_filter, Prod.exists, List.mem_zipIdx_iff_getElem?]
  constructor
  · rintro ⟨j, i, ⟨hj, hkeep⟩, rfl⟩
    exact ⟨i, hj, hkeep⟩
  · rintro ⟨i, hj, hkeep⟩
    exact ⟨j, i, ⟨hj, hkeep⟩, rfl⟩

/-- The places of the joins that are taken ascend. -/
theorem pairwise_pick (p : JoinPlan) (keep : Join → Nat → Bool) :
    (p.joins.zipIdx.filter fun x => keep x.1 x.2).Pairwise fun x y => x.2 < y.2 := by
  have h : (p.joins.zipIdx.map (·.2)).Pairwise (· < ·) := by
    rw [List.zipIdx_map_snd]
    exact List.pairwise_lt_range'
  exact (List.pairwise_map.mp h).filter _

/-- Of a join that is taken, all those taken that are planned before it come before it. -/
theorem pick_split {before after : List Join} {j : Join} (h : p.pick keep = before ++ j :: after) :
    ∃ i, p.joins[i]? = some j ∧ Kept keep i j ∧ ∀ k q, k < i → p.joins[k]? = some q → Kept keep k q → q ∈ before := by
  obtain ⟨xs, rest, hsplit, rfl, hrest⟩ := List.map_eq_append_iff.mp h
  obtain ⟨⟨j', i⟩, ys, rfl, rfl, rfl⟩ := List.map_eq_cons_iff.mp hrest
  have hpairs := p.pairwise_pick keep
  rw [hsplit, List.pairwise_append, List.pairwise_cons] at hpairs
  have hmem {q : Join} {k : Nat} : (q, k) ∈ xs ++ (j', i) :: ys ↔ p.joins[k]? = some q ∧ Kept keep k q := by
    rw [← hsplit, List.mem_filter, List.mem_zipIdx_iff_getElem?]
  obtain ⟨hj, hkeep⟩ := hmem.mp (List.mem_append_right xs List.mem_cons_self)
  refine ⟨i, hj, hkeep, fun k q hlt hq hk => ?_⟩
  rcases List.mem_append.mp (hmem.mpr ⟨hq, hk⟩) with hx | hx
  · exact List.mem_map_of_mem hx
  · rcases List.mem_cons.mp hx with heq | hx
    · cases heq
      exact absurd hlt (Nat.lt_irrefl _)
    · exact absurd (Nat.lt_trans hlt (hpairs.2.1.1 _ hx)) (Nat.lt_irrefl _)

theorem Grounded.aliases {i : Nat} {j : Join} {path : String} {parent target : Table} {r : Relation}
    (h : p.Grounded s i j path parent r target) {name : String} (hmem : name ∈ j.aliases) :
    name = joinAlias i ∨ name = linkAlias (joinAlias i) := by
  rw [h.join, Join.aliases, List.mem_append, List.mem_singleton] at hmem
  rcases hmem with hmem | rfl
  · obtain ⟨link, hlink, rfl⟩ := Option.map_eq_some_iff.mp (Option.mem_toList.mp hmem)
    obtain ⟨junction, -, rfl⟩ := Option.map_eq_some_iff.mp hlink
    exact Or.inr rfl
  · exact Or.inl rfl

theorem Grounded.nodup_aliases {i : Nat} {j : Join} {path : String} {parent target : Table} {r : Relation}
    (h : p.Grounded s i j path parent r target) : j.aliases.Nodup := by
  rw [h.join, Join.aliases]
  cases hj : r.junction with
  | none => simp [newJoin, hj]
  | some junction => simpa [newJoin, hj] using (joinAlias_ne_linkAlias i i).symm

/-- Aliases of different joins are different. -/
theorem alias_place {i k : Nat} {name : String} (hi : name = joinAlias i ∨ name = linkAlias (joinAlias i))
    (hk : name = joinAlias k ∨ name = linkAlias (joinAlias k)) : i = k := by
  rcases hi with rfl | rfl
  · rcases hk with h | h
    · exact joinAlias_inj h
    · exact absurd h (joinAlias_ne_linkAlias i k)
  · rcases hk with h | h
    · exact absurd h.symm (joinAlias_ne_linkAlias k i)
    · exact linkAlias_inj h

/-- The FROM clause of the root and of some of the joins. -/
def clause (p : JoinPlan) (s : Setting) (keep : Join → Nat → Bool) : Source :=
  ⟨s.root.name, p.root, p.pick keep⟩

theorem aliases_clause (hp : p.Rooted s) {name : String} (h : name ∈ (p.clause s keep).aliases) :
    name = p.root ∨ ∃ k, name = joinAlias k ∨ name = linkAlias (joinAlias k) := by
  rcases List.mem_cons.mp h with rfl | h
  · exact Or.inl rfl
  · obtain ⟨j, hj, hname⟩ := List.mem_flatMap.mp h
    obtain ⟨i, hi, -⟩ := mem_pick.mp hj
    obtain ⟨path, parent, r, target, hground⟩ := hp.grounded i j hi
    exact Or.inr ⟨i, hground.aliases hname⟩

/-- A subquery's alias is bound nowhere around it. -/
theorem scratch_not_mem_aliases (hs : s.Safe) (hp : p.Rooted s) (hroot : p.root = s.options.rootAlias) (n : Nat) :
    "s" ++ toString n ∉ (p.clause s keep).aliases := by
  intro h
  rcases aliases_clause hp h with h | ⟨k, h⟩
  · exact hs.rootAlias_ne (isGenerated_alias (Or.inr (Or.inr rfl))) (h.trans hroot)
  · have hfirst : ("s" ++ toString n).toList.head? = some 's' := by
      rw [String.toList_append]
      rfl
    rcases h with h | h
    · rw [h, toList_joinAlias] at hfirst
      cases hfirst
    · rw [h, toList_linkAlias] at hfirst
      cases hfirst

/-- Where each join has the aliases of its place, no alias is brought twice by joins that are taken. -/
theorem nodup_pick (hplaces : ∀ (k : Nat) (j : Join), p.joins[k]? = some j →
      j.aliases.Nodup ∧ ∀ name ∈ j.aliases, name = joinAlias k ∨ name = linkAlias (joinAlias k))
    (keep : Join → Nat → Bool) : ((p.pick keep).flatMap Join.aliases).Nodup := by
  rw [pick, List.flatMap_map, List.nodup_flatMap]
  have hplace : ∀ x ∈ p.joins.zipIdx.filter (fun x => keep x.1 x.2), p.joins[x.2]? = some x.1 := by
    intro x hx
    exact List.mem_zipIdx_iff_getElem?.mp (List.mem_filter.mp hx).1
  refine ⟨fun x hx => (hplaces x.2 x.1 (hplace x hx)).1,
    (p.pairwise_pick keep).imp_of_mem fun {x y} hx hy hlt name hx' hy' => ?_⟩
  exact absurd (alias_place ((hplaces x.2 x.1 (hplace x hx)).2 name hx') ((hplaces y.2 y.1 (hplace y hy)).2 name hy'))
    (Nat.ne_of_lt hlt)

theorem nodup_clause (hs : s.Safe) (hp : p.Rooted s) (hroot : p.root = s.options.rootAlias) :
    (p.clause s keep).aliases.Nodup := by
  refine List.nodup_cons.mpr ⟨fun h => ?_, nodup_pick (fun k j hj => ?_) keep⟩
  · obtain ⟨j, hj, hname⟩ := List.mem_flatMap.mp h
    obtain ⟨i, hi, -⟩ := mem_pick.mp hj
    obtain ⟨path, parent, r, target, hground⟩ := hp.grounded i j hi
    exact hs.rootAlias_ne (isGenerated_alias (k := i) ((hground.aliases hname).imp_right Or.inl)) hroot
  · obtain ⟨path, parent, r, target, hground⟩ := hp.grounded k j hj
    exact ⟨hground.nodup_aliases, fun name hname => hground.aliases hname⟩

/-- What the plan serves from the joins that are taken, the FROM clause declares. -/
theorem Serves.declares {c : ColumnRef} (hs : s.Safe) (hp : p.Rooted s) (h : p.Serves s (Kept keep) c) :
    (p.clause s keep).Declares s.catalog c := by
  obtain ⟨path, table, hreaches, hknows, hc⟩ := h
  refine ⟨table, ?_, hreaches.table? hs, hc⟩
  rcases hknows with ⟨rfl, halias⟩ | ⟨k, q, hq, rfl, halias, hk⟩
  · obtain rfl := hreaches.unique hs .root
    exact Or.inl ⟨halias, rfl⟩
  · obtain ⟨path, parent, r, target, hground⟩ := hp.grounded k q hq
    have htarget : s.Reaches q.path target := by
      rw [hground.join]
      exact hground.reaches.step hground.relation hground.leads
    obtain rfl := hreaches.unique hs htarget
    refine Or.inr ⟨q, mem_pick.mpr ⟨k, hq, hk⟩, ?_, ?_⟩
    · rw [halias, hground.join]
      rfl
    · rw [hground.join]
      rfl

/-- A join that is taken binds its target. -/
theorem Grounded.declares {i : Nat} {j : Join} {path column : String} {parent target : Table} {r : Relation}
    (h : p.Grounded s i j path parent r target) (hs : s.Safe) (hp : p.Rooted s) (hj : p.joins[i]? = some j)
    (hkeep : Kept keep i j) (hc : (target.column? column).isSome = true) :
    (p.clause s keep).Declares s.catalog ⟨j.tableAlias, column⟩ := by
  refine Serves.declares hs hp ⟨j.path, target, ?_, Or.inr ⟨i, j, hj, rfl, ?_, hkeep⟩, hc⟩
  · rw [h.join]
    exact h.reaches.step h.relation h.leads
  · rw [h.join]
    rfl

/-- A FROM clause is sound if the joins it takes are closed under parents. -/
theorem sound_clause (hs : s.Safe) (hp : p.Rooted s) (hroot : p.root = s.options.rootAlias)
    (hclosed : p.Closed s (Kept keep)) : (p.clause s keep).Sound s.catalog := by
  refine ⟨nodup_clause hs hp hroot, fun before j after hsplit => ?_, fun j hj => ?_⟩
  · obtain ⟨i, hj, hkeep, hbefore⟩ := pick_split hsplit
    obtain ⟨path, parent, r, target, hground⟩ := hp.grounded i j hj
    -- the parent of a join is the root, or a join that is kept and stands before it
    obtain ⟨-, hknows⟩ := hp.knows_and hs hground.parent (hclosed i j path parent r target hj hground hkeep)
    rcases hknows with ⟨-, hparent⟩ | ⟨k, q, hq, -, hparent, ⟨hlt, -⟩, hk⟩
    · exact Or.inl hparent
    · refine Or.inr ⟨q, hbefore k q hlt hq hk, ?_⟩
      obtain ⟨_, _, _, _, hground'⟩ := hp.grounded k q hq
      rw [hparent, hground'.join]
      rfl
  · obtain ⟨i, hj, hkeep⟩ := mem_pick.mp hj
    obtain ⟨path, parent, r, target, hground⟩ := hp.grounded i j hj
    have hmem := hground.reaches.mem hs
    have hrelation := Catalog.mem_of_relation? hground.relation
    constructor
    · refine Serves.declares hs hp
        ⟨path, parent, hground.reaches, hclosed i j path parent r target hj hground hkeep, ?_⟩
      rw [hground.join]
      exact Catalog.joinKey_declared hmem hrelation
    · refine hground.declares hs hp hj hkeep ?_
      rw [hground.join]
      exact Catalog.inverseKey_declared hmem hrelation hground.leads

end JoinPlan
/-! ### Statements of a plan -/

theorem Catalog.Links.declared {catalog : Catalog} {l : LinkTable} (h : catalog.Links l) : l.Declared catalog := by
  obtain ⟨parent, hparent, r, hr, target, ht, rfl⟩ := h
  cases hj : r.junction with
  | some j => exact Or.inl ⟨parent, hparent, r, hr, j, hj, by rw [Relation.links, hj]⟩
  | none =>
    refine Or.inr ⟨target, ?_, ?_⟩
    · rw [Relation.links, hj]
      exact Catalog.table?_name ht
    · rw [Relation.links, hj]
      exact ⟨Catalog.inverseKey_declared hparent hr ht, Catalog.primaryKey_declared (Catalog.mem_of_target? ht)⟩

section
variable {s : Setting} {p : JoinPlan} {keep : Join → Nat → Bool}

theorem Test.Fits.scoped {t : Test} (h : t.Fits p s (JoinPlan.Kept keep)) (hs : s.Safe) (hp : p.Rooted s)
    (hroot : p.root = s.options.rootAlias) : t.Scoped s.catalog (p.clause s keep) := by
  refine ⟨fun c hc => (h.column c hc).declares hs hp, fun l hl => ?_⟩
  obtain ⟨hlinks, n, hn⟩ := h.links l hl
  rw [hn]
  exact ⟨hlinks.declared, JoinPlan.scratch_not_mem_aliases hs hp hroot n⟩

/-- Which places of a recording a FROM clause takes. -/
theorem kept_places {places : List Nat} {k : Nat} {q : Join} :
    JoinPlan.Kept (fun _ k => places.contains k) k q ↔ k ∈ places :=
  List.contains_iff_mem

theorem JoinPlan.Serves.imp {K K' : Nat → Join → Prop} {c : ColumnRef} (h : p.Serves s K c)
    (hK : ∀ k q, K k q → K' k q) : p.Serves s K' c :=
  h.mono rfl fun k q hq hk => ⟨q, hq, rfl, hK k q hk⟩

theorem Test.Fits.imp {K K' : Nat → Join → Prop} {t : Test} (h : t.Fits p s K) (hK : ∀ k q, K k q → K' k q) :
    t.Fits p s K' :=
  ⟨fun c hc => (h.column c hc).imp hK, h.links⟩

theorem JoinPlan.Closed.congr {K K' : Nat → Join → Prop} (h : p.Closed s K) (hK : ∀ k q, K k q ↔ K' k q) :
    p.Closed s K' := fun i j path parent r target hj hground hi =>
  (h i j path parent r target hj hground ((hK i j).mpr hi)).mono rfl fun k q hq hk => ⟨q, hq, rfl, (hK k q).mp hk⟩

end

namespace CompiledParts

variable {c : CompiledParts} {s : Setting}

/-- The FROM clause for some parts of a request. -/
theorem source_joinsFor (c : CompiledParts) (s : Setting) (w : Usage) :
    c.source s (c.draft.plan.joinsFor w) = c.draft.plan.clause s fun q _ => q.usage.meets w := by
  rw [JoinPlan.joinsFor_eq]
  rfl

theorem declares_rootKey (hs : s.Safe) (joins : List Join) : (c.source s joins).Declares s.catalog (c.rootKey s) :=
  ⟨s.root, Or.inl ⟨rfl, rfl⟩, hs.root, hs.rootKey⟩

namespace Fits

variable (hs : s.Safe) (h : c.Fits s)
include hs h

theorem sound_joinsFor (w : Usage) : (c.source s (c.draft.plan.joinsFor w)).Sound s.catalog := by
  rw [source_joinsFor]
  exact JoinPlan.sound_clause hs h.rooted h.root (JoinPlan.closed_needs w)

theorem scoped_filter {w : Usage} (hw : Usage.forFilter.meets w = true) :
    Condition.Scoped c.filter s.catalog (c.source s (c.draft.plan.joinsFor w)) := by
  rw [source_joinsFor]
  exact fun t ht => (h.filter w hw t ht).scoped hs h.rooted h.root

theorem declares_sort {w : Usage} (hw : Usage.forSort.meets w = true) :
    ∀ k ∈ c.sort, (c.source s (c.draft.plan.joinsFor w)).Declares s.catalog k.column := by
  rw [source_joinsFor]
  exact fun k hk => (h.sort w hw k hk).declares hs h.rooted

theorem scoped_rowQuery (window : Window) : (c.rowQuery s window).Scoped s.catalog where
  source := sound_joinsFor hs h .forRows
  columns := by
    show ∀ col ∈ c.projection.columns.map (·.ref), (c.source s (c.draft.plan.joinsFor .forRows)).Declares s.catalog col
    rw [source_joinsFor]
    intro col hcol
    obtain ⟨selected, hselected, rfl⟩ := List.mem_map.mp hcol
    exact (h.columns .forRows (by decide) selected hselected).declares hs h.rooted
  filter := scoped_filter hs h (by decide)
  sort := declares_sort hs h (by decide)
  relatedKeys := by
    show ∀ col ∈ ((c.draft.plan.joinsFor .forRows).filter (·.many)).map
        fun j => (⟨j.tableAlias, j.primaryKey⟩ : ColumnRef),
      (c.source s (c.draft.plan.joinsFor .forRows)).Declares s.catalog col
    rw [source_joinsFor, JoinPlan.joinsFor_eq]
    intro col hcol
    obtain ⟨j, hj, rfl⟩ := List.mem_map.mp hcol
    obtain ⟨i, hi, hkeep⟩ := JoinPlan.mem_pick.mp (List.mem_filter.mp hj).1
    obtain ⟨path, parent, r, target, hground⟩ := h.rooted.grounded i j hi
    refine hground.declares hs h.rooted hi hkeep ?_
    rw [hground.join]
    exact Catalog.primaryKey_declared (Catalog.mem_of_target? hground.leads)
  page := by
    intro page hpage
    rcases c.rowQuery_paging s window with hrows | hkeys
    · rw [hrows] at hpage
      cases hpage
    · rw [hkeys] at hpage
      cases hpage
      exact ⟨declares_rootKey hs _, sound_joinsFor hs h _, declares_rootKey hs _, scoped_filter hs h (by decide),
        declares_sort hs h (by decide)⟩

theorem scoped_countQuery : (c.countQuery s).Scoped s.catalog :=
  ⟨sound_joinsFor hs h .forFilter, declares_rootKey hs _, scoped_filter hs h (by decide)⟩

theorem scoped_filtered (joins : List Join) : ∀ r ∈ c.filtered s, r.Scoped s.catalog (c.source s joins) := by
  intro r hr
  unfold filtered at hr
  split at hr
  · cases hr
  · rw [← Option.some.inj hr]
    exact ⟨declares_rootKey hs _, sound_joinsFor hs h .forFilter, declares_rootKey hs _,
      scoped_filter hs h (by decide)⟩

theorem scoped_aggregateSelect {t : AggregateTerm} (ht : t ∈ c.aggregates) :
    (c.aggregateSelect s t).Scoped s.catalog := by
  have hfits := h.aggregates t ht
  have hsound {places : List Nat} (hclosed : c.draft.plan.Closed s fun k _ => k ∈ places) :
      (c.source s (c.draft.plan.joinsAt places)).Sound s.catalog :=
    JoinPlan.sound_clause hs h.rooted h.root (hclosed.congr fun _ _ => kept_places.symm)
  rcases c.aggregateSelect_eq s t with heq | heq
  · rw [heq]
    refine ⟨hsound hfits.targetJoins, ?_, ?_, scoped_filtered hs h _⟩
    · exact (hfits.column.imp fun _ _ => kept_places.mpr).declares hs h.rooted
    · refine ⟨declares_rootKey hs _, hsound hfits.conditionJoins, declares_rootKey hs _, fun test htest => ?_⟩
      exact ((hfits.condition test htest).imp fun _ _ => kept_places.mpr).scoped hs h.rooted h.root
  · rw [heq]
    have hunion : c.draft.plan.Closed s fun k _ => k ∈ t.targetJoins ++ t.conditionJoins :=
      (hfits.targetJoins.union hfits.conditionJoins).congr fun _ _ => List.mem_append.symm
    refine ⟨hsound hunion, ?_, fun test htest => ?_, scoped_filtered hs h _⟩
    · exact (hfits.column.imp fun _ _ hk => kept_places.mpr (List.mem_append_left _ hk)).declares hs h.rooted
    · exact ((hfits.condition test htest).imp fun _ _ hk => kept_places.mpr (List.mem_append_right _ hk)).scoped hs
        h.rooted h.root

end Fits
end CompiledParts

/-- A setting of a catalog whose relation names suit dotted paths is safe. -/
theorem FindPlan.setting_safe {catalog : Catalog} {table : String} {options : CompileOptions} {s : Setting}
    (hnames : catalog.PathSafe) (h : setting catalog table options = .ok s) : s.Safe := by
  obtain ⟨hcheck, root, hroot, rfl⟩ := setting_eq_ok.mp h
  exact ⟨Catalog.table?_name hroot, CompileOptions.aliasFault?_of_check hcheck, hnames⟩

/-- Every statement of a compiled plan is in scope: each FROM clause joins parents first, and what a statement refers to
is a declared column of a table that is bound there. -/
theorem FindPlan.compile_scoped {catalog : Catalog} {table : String} {request : FindRequest} {options : CompileOptions}
    {p : FindPlan} (hnames : catalog.PathSafe) (h : FindPlan.compile catalog table request options = .ok p) :
    p.Scoped catalog := by
  obtain ⟨counts, aggregates, s, c, -, -, hsetting, hparts, rfl⟩ := compile_eq_ok.mp h
  have hs := setting_safe hnames hsetting
  have hfits := CompiledParts.compile_spec hs hparts
  obtain ⟨-, root, -, rfl⟩ := setting_eq_ok.mp hsetting
  refine ⟨hfits.scoped_rowQuery hs _, fun q hq => ?_, fun q hq => ?_, fun q hq a ha => ?_⟩
  · simp only [CompiledParts.plan, Option.mem_def, Option.ite_none_right_eq_some, Option.some.injEq] at hq
    rw [← hq.2]
    exact ⟨root, hs.root⟩
  · simp only [CompiledParts.plan, Option.mem_def, Option.ite_none_right_eq_some, Option.some.injEq] at hq
    rw [← hq.2]
    exact hfits.scoped_countQuery hs
  · simp only [CompiledParts.plan, CompiledParts.aggregateQuery, Option.mem_def, Option.ite_none_left_eq_some,
      Option.some.injEq] at hq
    rw [← hq.2] at ha
    obtain ⟨t, ht, rfl⟩ := List.mem_map.mp ha
    exact hfits.scoped_aggregateSelect hs ht

theorem Catalog.pathSafe_blog : Catalog.blog.PathSafe where
  distinct := by decide +kernel
  nonempty := by decide +kernel
  dotless := by decide +kernel

theorem compile_scoped_blog :
    ∃ p, FindPlan.compile .blog "posts" .sample .standard = .ok p ∧ p.Scoped .blog ∧
      p.data.source.aliases = ["r", "j0_link", "j0", "j1"] := by
  obtain ⟨p, hp⟩ := exists_eq_ok (x := FindPlan.compile .blog "posts" .sample .standard) (by decide +kernel)
  have haliases : (FindPlan.compile .blog "posts" .sample .standard).toOption.map (fun p => p.data.source.aliases) =
      some ["r", "j0_link", "j0", "j1"] := by
    decide +kernel
  rw [hp] at haliases
  exact ⟨p, hp, FindPlan.compile_scoped Catalog.pathSafe_blog hp, Option.some.inj haliases⟩

/-! ### Relations without a name

The path of a relation without a name is that of its own table, so the relations below it get the paths, and with them
the joins, of relations of the table itself. -/

/-- Two relations `x`, one of `a` and one of what the unnamed relation of `a` leads to. -/
def Catalog.unnamed : Catalog where
  tables :=
    [{ Table.start "a" with
        columns := [⟨"id", .int, false⟩, ⟨"bId", .int, true⟩]
        relations := [.direct "" .one "b" "bId" "id", .direct "x" .one "c" "id" "id"] },
      (Table.start "b").addRelation (.direct "x" .one "d" "id" "id"),
      Table.start "c",
      (Table.start "d").addColumn "v" .int false]
  sound := by decide +kernel

/-- The field `x` of `a`, and a filter on the other `x`. -/
def FindRequest.throughUnnamed : FindRequest :=
  { FindRequest.all with
    fields := ["x"]
    filter := .obj [("", .obj [("x", .obj [("v", .int 1)])])] }

/-- Names that are distinct and free of dots are not enough. -/
theorem not_compile_scoped_unnamed :
    (∀ t ∈ Catalog.unnamed.tables, (t.relations.map (·.name)).Nodup ∧ ∀ r ∈ t.relations, '.' ∉ r.name.toList) ∧
      ∃ p, FindPlan.compile .unnamed "a" .throughUnnamed .standard = .ok p ∧ ¬p.Scoped .unnamed := by
  obtain ⟨p, hp⟩ := exists_eq_ok (x := FindPlan.compile .unnamed "a" .throughUnnamed .standard) (by decide +kernel)
  have htests : (FindPlan.compile .unnamed "a" .throughUnnamed .standard).toOption.map
      (fun p => Condition.testsOfAll p.data.filter) = some [.compare ⟨"j0", "v"⟩ .eq (.int 1)] := by
    decide +kernel
  have hjoins : (FindPlan.compile .unnamed "a" .throughUnnamed .standard).toOption.map
      (fun p => (p.data.source.tableAlias, p.data.source.joins.map fun j => (j.tableAlias, j.table))) =
        some ("r", [("j0", "c"), ("j1", "b")]) := by
    decide +kernel
  rw [hp] at htests hjoins
  refine ⟨by decide +kernel, p, hp, fun hscoped => ?_⟩
  have htest : Test.compare ⟨"j0", "v"⟩ .eq (.int 1) ∈ Condition.testsOfAll p.data.filter := by
    rw [show Condition.testsOfAll p.data.filter = _ from Option.some.inj htests]
    exact List.mem_singleton.mpr rfl
  obtain ⟨hroot, hlist⟩ := Prod.mk.inj (Option.some.inj hjoins)
  obtain ⟨table, hbinds, htable, hc⟩ := (hscoped.data.filter _ htest).column ⟨"j0", "v"⟩ rfl
  -- The alias stands for `c`, which has no such column.
  have hname : table.name = "c" := by
    rcases hbinds with ⟨halias, -⟩ | ⟨j, hj, halias, hname⟩
    · rw [hroot] at halias
      exact absurd halias (by decide)
    · have hmem : (j.tableAlias, j.table) ∈ [("j0", "c"), ("j1", "b")] := hlist ▸ List.mem_map_of_mem hj
      rw [← halias, ← hname] at hmem
      simpa using hmem
  rw [hname] at htable
  have hmissing : (Catalog.unnamed.table? "c").bind (·.column? "v") = none := by decide +kernel
  rw [htable, Option.bind_some] at hmissing
  simp [hmissing] at hc

end RecordService
