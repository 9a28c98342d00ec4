import RecordService.Proofs.Plan.Isolated
import RecordService.Proofs.Plan.Represented
import RecordService.Proofs.Text.Folding

/-! # Aliases apart

A store takes two names for one that differ in the case of ASCII letters (`Sql.folded`). The names that compilation
makes up have no such letters in upper case (`MadeUp.folded`), so those of a FROM clause stay apart, whatever relations
are called. The alias of the root is no made-up name, but it may be one in other letters, and that alone makes a FROM
clause ambiguous (`FindPlan.compile_aliases`). -/

namespace RecordService
open Sql JoinPlan

/-- The name as a store compares it: without regard to the case of ASCII letters. -/
def Sql.folded (name : String) : String :=
  String.ofList (name.toList.map Char.toLower)

/-- The names that compilation makes up, for tables and for columns. -/
inductive MadeUp : String → Prop
  | join (k : Nat) : MadeUp (joinAlias k)
  | link (k : Nat) : MadeUp (linkAlias (joinAlias k))
  | subquery (k : Nat) : MadeUp ("s" ++ toString k)
  | page : MadeUp "w"
  | key : MadeUp "k"
  | sort (place : Nat) : MadeUp ("o" ++ toString place)
  | aggregate (place : Nat) : MadeUp ("a" ++ toString place)

namespace MadeUp

variable {name : String}

theorem reserved (h : MadeUp name) : name = "w" ∨ name = "k" ∨ CompileOptions.isGenerated name.toList = true := by
  cases h with
  | join k => exact .inr (.inr (isGenerated_alias (.inl rfl)))
  | link k => exact .inr (.inr (isGenerated_alias (.inr (.inl rfl))))
  | subquery k => exact .inr (.inr (isGenerated_alias (.inr (.inr rfl))))
  | page => exact .inl rfl
  | key => exact .inr (.inl rfl)
  | sort k | aggregate k =>
    refine .inr (.inr ?_)
    rw [String.toList_append, toList_toString_nat]
    simp [CompileOptions.isGenerated, isNumbered_toDigits k]

/-- Such a name is refused as an alias for the root. -/
theorem fault (h : MadeUp name) : CompileOptions.aliasFault? name ≠ none := by
  unfold CompileOptions.aliasFault?
  rcases h.reserved with rfl | rfl | hgenerated
  · decide
  · decide
  · rw [hgenerated]
    split
    · simp
    · split <;> simp

theorem folded (h : MadeUp name) : folded name = name := by
  -- digits have no case
  have hdigits (k : Nat) : ∀ c ∈ Nat.toDigits 10 k, c.toLower = c := by
    intro c hc
    have hdigit := isDigit_of_mem hc
    refine Text.toLower_eq_self (Bool.eq_false_iff.mpr fun hupper => ?_)
    have hbounds := Text.isUpper_iff.mp hupper
    simp only [Char.isDigit, Bool.and_eq_true, decide_eq_true_eq, ge_iff_le, UInt32.le_iff_toNat_le] at hdigit
    have hval : c.toNat = c.val.toNat := rfl
    have hlast : '9'.val.toNat = 57 := rfl
    omega
  have hname : ∀ c ∈ name.toList, c.toLower = c := by
    cases h with
    | join k =>
      rw [toList_joinAlias]
      exact List.forall_mem_cons.mpr ⟨by simp, hdigits k⟩
    | link k =>
      rw [toList_linkAlias]
      exact List.forall_mem_cons.mpr ⟨by simp, List.forall_mem_append.mpr ⟨hdigits k, by simp⟩⟩
    | page | key => simp
    | subquery k | sort k | aggregate k =>
      rw [String.toList_append, toList_toString_nat]
      exact List.forall_mem_append.mpr ⟨by simp, hdigits k⟩
  rw [Sql.folded, List.map_congr_left hname, List.map_id', String.ofList_toList]

/-- Of made-up names, the store tells all apart. -/
theorem folded_inj {name' : String} (h : MadeUp name) (h' : MadeUp name') (heq : Sql.folded name = Sql.folded name') :
    name = name' := by
  rwa [h.folded, h'.folded] at heq

end MadeUp

/-! ### FROM clauses -/

/-- The aliases of the FROM clause of a test's subquery. -/
def Condition.fromClauses (parts : List Condition) : List (List String) :=
  (testsOfAll parts).filterMap fun t => t.subquery?.map fun links => [links.2]

def SemiJoin.fromClauses (j : SemiJoin) : List (List String) :=
  j.source.aliases :: Condition.fromClauses j.conditions

/-- The keys are taken from a subquery, which is all that the FROM clause around it has. -/
def KeyPage.fromClauses (p : KeyPage) : List (List String) :=
  ["w"] :: p.source.aliases :: Condition.fromClauses p.filter

/-- The names of the columns of a subquery. -/
def KeyPage.columnNames (p : KeyPage) : List String :=
  "k" :: (List.range p.sort.length).map fun place => "o" ++ toString place

namespace RowQuery

def fromClauses (q : RowQuery) : List (List String) :=
  q.source.aliases :: Condition.fromClauses q.filter ++
    match q.paging with
    | .rows _ => []
    | .keys page => page.fromClauses

def columnNames (q : RowQuery) : List String :=
  match q.paging with
  | .rows _ => []
  | .keys page => page.columnNames

end RowQuery

/-- A count of all records has no aliases. -/
def CountQuery.fromClauses : CountQuery → List (List String)
  | .all _ => []
  | .filtered _ source filter => source.aliases :: Condition.fromClauses filter

def AggregateSelect.fromClauses (a : AggregateSelect) : List (List String) :=
  a.source.aliases ::
    (match a.rows with
    | .meeting conditions => Condition.fromClauses conditions
    | .within records => records.fromClauses) ++
    (a.records.map (·.fromClauses)).getD []

namespace FindPlan

/-- The aliases of every FROM clause of the statements of a plan, those of subqueries included. -/
def fromClauses (p : FindPlan) : List (List String) :=
  p.data.fromClauses ++ (p.totalCount.map (·.fromClauses)).getD [] ++ (p.filterCount.map (·.fromClauses)).getD [] ++
    (p.aggregate.map fun q => q.parts.flatMap (·.fromClauses)).getD []

/-- The names that its statements give to columns. -/
def columnNames (p : FindPlan) : List String :=
  p.data.columnNames ++
    (p.aggregate.map fun q => (List.range q.parts.length).map fun place => "a" ++ toString place).getD []

end FindPlan

/-! ### What the FROM clauses of a plan have -/

/-- The aliases are that of the root and made-up ones, each once. -/
def Apart (root : String) (aliases : List String) : Prop :=
  aliases.Nodup ∧ ∀ name ∈ aliases, name = root ∨ MadeUp name

namespace Apart

variable {root : String} {aliases : List String}

theorem single {name : String} (h : MadeUp name) : Apart root [name] :=
  ⟨List.nodup_singleton name, fun _ hmem => .inr (List.mem_singleton.mp hmem ▸ h)⟩

/-- The made-up ones are not one name for the store either. -/
theorem nodup_erase (h : Apart root aliases) : ((aliases.erase root).map folded).Nodup := by
  have hmadeUp : ∀ name ∈ aliases.erase root, MadeUp name := by
    intro name hname
    obtain ⟨hne, hmem⟩ := h.1.mem_erase_iff.mp hname
    exact (h.2 name hmem).resolve_left hne
  exact (h.1.erase root).map_on fun a ha b hb heq => (hmadeUp a ha).folded_inj (hmadeUp b hb) heq

/-- Nor are any two, unless the root's alias is a made-up name in other letters. -/
theorem nodup_folded (h : Apart root aliases) (hroot : ¬MadeUp (folded root)) : (aliases.map folded).Nodup := by
  have hne : ∀ {name}, MadeUp name → folded name ≠ folded root := by
    intro name hname heq
    rw [hname.folded] at heq
    exact hroot (heq ▸ hname)
  refine h.1.map_on fun a ha b hb heq => ?_
  rcases h.2 a ha with rfl | ha
  · rcases h.2 b hb with rfl | hb
    · rfl
    · exact absurd heq.symm (hne hb)
  · rcases h.2 b hb with rfl | hb
    · exact absurd heq (hne ha)
    · exact ha.folded_inj hb heq

end Apart

/-! ### Compiled requests -/

section
variable {s : Setting} {u : Usage}

/-- If the test of a predicate has a subquery, the link table goes by the next alias for one. -/
theorem Predicate.subquery_testOf {q : Predicate} {plan plan' : JoinPlan} {res : Resolved} {t : Test}
    (h : q.testOf u plan res = .ok (t, plan')) :
    t.subquery? = none ∨ ∃ links, t.subquery? = some (links, plan.scratch.1) := by
  cases res with
  | column hops tableAlias column => exact .inl (column?_columnTest (testOf_column_eq_ok.mp h).1).2
  | relation hops parentPath parentAlias parent r target =>
    rcases testOf_relation_eq_ok.mp h with ⟨c, -, -, hcount, -⟩ | ⟨-, -, hset, -⟩ | ⟨hkeys, -⟩
    · exact .inr ⟨_, (column?_countTest hcount).2⟩
    · exact .inr ⟨_, (column?_setTest hset).2⟩
    · exact .inl (column?_columnTest hkeys).2

theorem Setting.Contributes.apart {ps : List Predicate} {parts : List Condition} (h : s.Contributes u ps parts)
    (root : String) : ∀ f ∈ Condition.fromClauses parts, Apart root f := by
  obtain ⟨leaves, -, htests, hcompiled⟩ := h
  intro f hf
  obtain ⟨t, ht, hsub⟩ := List.mem_filterMap.mp hf
  obtain ⟨links, hlinks, rfl⟩ := Option.map_eq_some_iff.mp hsub
  rw [htests] at ht
  obtain ⟨leaf, hleaf, rfl⟩ := List.mem_map.mp ht
  obtain ⟨d, d', hcompile⟩ := hcompiled leaf hleaf
  rcases Predicate.compile_eq_ok.mp hcompile with ⟨-, hnone, -⟩ | ⟨res, plan, test, plan', -, htest, hsome, -⟩
  · cases hnone
  · rw [Option.some.inj hsome] at hlinks
    rcases Predicate.subquery_testOf htest with hnone | ⟨table, halias⟩
    · rw [hnone] at hlinks
      cases hlinks
    · rw [halias] at hlinks
      cases hlinks
      exact .single (.subquery plan.scratches)

/-- The joins of a plan bring the aliases of their places. -/
theorem JoinPlan.Traced.aliases {p : JoinPlan} (h : p.Traced s) (hp : p.Regular) (k : Nat) (j : Join)
    (hj : p.joins[k]? = some j) :
    j.aliases.Nodup ∧ ∀ name ∈ j.aliases, name = joinAlias k ∨ name = linkAlias (joinAlias k) := by
  have halias := hp.aliases k j hj
  have hlinked := h.linked j (List.mem_of_getElem? hj)
  cases hlink : j.link with
  | none => simp [Join.aliases, hlink, halias]
  | some link =>
    have hlinkAlias : link.tableAlias = linkAlias (joinAlias k) := halias ▸ hlinked link hlink
    simp [Join.aliases, hlink, halias, hlinkAlias, (joinAlias_ne_linkAlias k k).symm]

end

namespace CompiledParts

variable {s : Setting} {c : CompiledParts} {aggregates : List AggregateRequest}

/-- Whatever joins of the plan a FROM clause takes, its aliases are apart. -/
theorem Placed.apart_pick (h : c.Placed s aggregates)
    (halias : CompileOptions.aliasFault? s.options.rootAlias = none) (keep : Join → Nat → Bool) :
    Apart s.options.rootAlias (c.source s (c.draft.plan.pick keep)).aliases := by
  have hplaces := h.traced.aliases h.regular
  -- joins have made-up aliases, which the root's is none of
  have hmadeUp : ∀ name ∈ (c.draft.plan.pick keep).flatMap Join.aliases, MadeUp name := by
    intro name hname
    obtain ⟨j, hj, hname⟩ := List.mem_flatMap.mp hname
    obtain ⟨k, hk, -⟩ := mem_pick.mp hj
    rcases (hplaces k j hk).2 name hname with rfl | rfl
    · exact .join k
    · exact .link k
  have hcons : (c.source s (c.draft.plan.pick keep)).aliases =
      s.options.rootAlias :: (c.draft.plan.pick keep).flatMap Join.aliases := by
    rw [← h.root]
    rfl
  rw [hcons]
  have hfresh : s.options.rootAlias ∉ (c.draft.plan.pick keep).flatMap Join.aliases := by
    intro hmem
    exact (hmadeUp _ hmem).fault halias
  refine ⟨List.nodup_cons.mpr ⟨hfresh, nodup_pick hplaces keep⟩, fun name hname => ?_⟩
  exact (List.mem_cons.mp hname).imp_right (hmadeUp name)

section
variable (h : c.Placed s aggregates) (halias : CompileOptions.aliasFault? s.options.rootAlias = none)
  (hfilter : ∀ f ∈ Condition.fromClauses c.filter, Apart s.options.rootAlias f)
include h halias

theorem Placed.apart_joinsFor (w : Usage) :
    Apart s.options.rootAlias (c.source s (c.draft.plan.joinsFor w)).aliases := by
  rw [joinsFor_eq]
  exact h.apart_pick halias _

theorem Placed.apart_joinsAt (places : List Nat) :
    Apart s.options.rootAlias (c.source s (c.draft.plan.joinsAt places)).aliases :=
  h.apart_pick halias fun _ k => places.contains k

include hfilter

theorem Placed.apart_rowQuery (window : Window) :
    (∀ f ∈ (c.rowQuery s window).fromClauses, Apart s.options.rootAlias f) ∧
      ∀ name ∈ (c.rowQuery s window).columnNames, MadeUp name := by
  have hsource := h.apart_joinsFor halias
  have hparts : (c.rowQuery s window).source.aliases = (c.source s (c.draft.plan.joinsFor .forRows)).aliases ∧
      (c.rowQuery s window).filter = c.filter := ⟨rfl, rfl⟩
  unfold RowQuery.fromClauses RowQuery.columnNames
  rw [hparts.1, hparts.2]
  rcases c.rowQuery_paging s window with hpaging | hpaging
  · rw [hpaging]
    simpa using ⟨hsource .forRows, hfilter⟩
  · rw [hpaging]
    refine ⟨fun f hf => ?_, fun name hname => ?_⟩
    · simp only [KeyPage.fromClauses, List.cons_append, List.mem_cons, List.mem_append] at hf
      rcases hf with rfl | hf | rfl | rfl | hf
      · exact hsource .forRows
      · exact hfilter f hf
      · exact .single .page
      · exact hsource _
      · exact hfilter f hf
    · simp only [KeyPage.columnNames, List.mem_cons, List.mem_map] at hname
      rcases hname with rfl | ⟨place, -, rfl⟩
      · exact .key
      · exact .sort place

theorem Placed.apart_filtered : ∀ r ∈ c.filtered s, ∀ f ∈ r.fromClauses, Apart s.options.rootAlias f := by
  intro r hr
  unfold filtered at hr
  split at hr
  · cases hr
  · cases hr
    exact List.forall_mem_cons.mpr ⟨h.apart_joinsFor halias _, hfilter⟩

theorem Placed.apart_aggregateSelect {t : AggregateTerm}
    (hcondition : ∀ f ∈ Condition.fromClauses t.condition, Apart s.options.rootAlias f) :
    ∀ f ∈ (c.aggregateSelect s t).fromClauses, Apart s.options.rootAlias f := by
  have hsource := h.apart_joinsAt halias
  have hrecords : ∀ f ∈ ((c.filtered s).map (·.fromClauses)).getD [], Apart s.options.rootAlias f := by
    cases hfiltered : c.filtered s with
    | none => exact fun f hf => absurd hf List.not_mem_nil
    | some r => exact h.apart_filtered halias hfilter r hfiltered
  intro f hf
  rcases c.aggregateSelect_eq s t with heq | heq
  · rw [heq] at hf
    simp only [AggregateSelect.fromClauses, SemiJoin.fromClauses, List.cons_append, List.mem_cons,
      List.mem_append] at hf
    rcases hf with rfl | rfl | hf | hf
    · exact hsource _
    · exact hsource _
    · exact hcondition f hf
    · exact hrecords f hf
  · rw [heq] at hf
    simp only [AggregateSelect.fromClauses, List.cons_append, List.mem_cons, List.mem_append] at hf
    rcases hf with rfl | hf | hf
    · exact hsource _
    · exact hcondition f hf
    · exact hrecords f hf

end
end CompiledParts

theorem AggregateRequest.apart_conditions {s : Setting} {requests : List AggregateRequest} {terms : List AggregateTerm}
    {d d' : Draft} (h : compileAll s requests d = .ok (terms, d')) (root : String) :
    ∀ t ∈ terms, ∀ f ∈ Condition.fromClauses t.condition, Apart root f := by
  have hall := compileAll_contributes h
  clear h
  induction hall with
  | nil => exact fun t ht => absurd ht List.not_mem_nil
  | cons hfirst _ ih => exact List.forall_mem_cons.mpr ⟨hfirst.apart root, ih⟩

namespace FindPlan

variable {catalog : Catalog} {table : String} {request : FindRequest} {options : CompileOptions} {p : FindPlan}

/-- The FROM clauses of a compiled plan have the root's alias and made-up ones, each once, and columns are given made-up
names. -/
theorem apart_of_compile (h : compile catalog table request options = .ok p) :
    (∀ f ∈ p.fromClauses, Apart options.rootAlias f) ∧ ∀ name ∈ p.columnNames, MadeUp name := by
  obtain ⟨counts, aggregates, s, c, -, -, hsetting, hc, rfl⟩ := compile_eq_ok.mp h
  obtain ⟨hcheck, root, htable, rfl⟩ := setting_eq_ok.mp hsetting
  have halias := CompileOptions.aliasFault?_of_check hcheck
  have hplaced := CompiledParts.compile_placed (Catalog.mem_of_table? htable) hc
  obtain ⟨d₁, d₂, d₃, -, hfilter, -, haggregates⟩ := CompiledParts.compile_eq_ok.mp hc
  have hconditions := AggregateRequest.apart_conditions haggregates options.rootAlias
  have hfilter := (Filter.compileJson_contributes hfilter).apart options.rootAlias
  obtain ⟨hdata, hcolumns⟩ := hplaced.apart_rowQuery halias hfilter
    (Window.ofPage request.page request.limit options.defaultLimit)
  constructor
  · intro f hf
    simp only [fromClauses, List.mem_append] at hf
    rcases hf with ((hf | hf) | hf) | hf
    · exact hdata f hf
    · simp only [CompiledParts.plan] at hf
      split at hf <;> cases hf
    · simp only [CompiledParts.plan] at hf
      split at hf
      · exact List.forall_mem_cons.mpr ⟨hplaced.apart_joinsFor halias _, hfilter⟩ f hf
      · cases hf
    · simp only [CompiledParts.plan, CompiledParts.aggregateQuery] at hf
      split at hf
      · cases hf
      · obtain ⟨a, ha, hf⟩ := List.mem_flatMap.mp hf
        obtain ⟨t, ht, rfl⟩ := List.mem_map.mp ha
        exact hplaced.apart_aggregateSelect halias hfilter (hconditions t ht) f hf
  · intro name hname
    rcases List.mem_append.mp hname with hname | hname
    · exact hcolumns name hname
    · simp only [CompiledParts.plan, CompiledParts.aggregateQuery] at hname
      split at hname
      · cases hname
      · obtain ⟨place, -, rfl⟩ := List.mem_map.mp hname
        exact .aggregate place

/-- The root's alias is none that compilation makes up, but the store may take it for one: exactly if it is a made-up
name once its letters are in lower case. The made-up aliases of a FROM clause are always apart for the store. -/
theorem compile_aliases (h : compile catalog table request options = .ok p) :
    (∀ f ∈ p.fromClauses, f.Nodup ∧ (∀ name ∈ f, name = options.rootAlias ∨ MadeUp name) ∧
      ((f.erase options.rootAlias).map folded).Nodup) ∧
    (∀ name ∈ p.columnNames, MadeUp name) ∧
    (∀ name, MadeUp name → name ≠ options.rootAlias ∧
      (folded name = folded options.rootAlias ↔ name = folded options.rootAlias)) ∧
    (¬MadeUp (folded options.rootAlias) → ∀ f ∈ p.fromClauses, (f.map folded).Nodup) := by
  obtain ⟨hclauses, hcolumns⟩ := apart_of_compile h
  obtain ⟨counts, aggregates, s, c, -, -, hsetting, -, -⟩ := compile_eq_ok.mp h
  have halias := CompileOptions.aliasFault?_of_check (setting_eq_ok.mp hsetting).1
  refine ⟨fun f hf => ⟨(hclauses f hf).1, (hclauses f hf).2, (hclauses f hf).nodup_erase⟩, hcolumns,
    fun name hname => ⟨?_, by rw [hname.folded]⟩, fun hroot f hf => (hclauses f hf).nodup_folded hroot⟩
  rintro rfl
  exact hname.fault halias

end FindPlan

/-- The sample takes a page of keys, counts, and aggregates under its filter. -/
theorem compile_aliases_sample :
    ∃ p, FindPlan.compile .blog "posts" .sample .standard = .ok p ∧ p.columnNames = ["k", "o0", "o1", "a0"] ∧
      ∀ f ∈ p.fromClauses, (f.map folded).Nodup := by
  obtain ⟨p, hp⟩ := exists_eq_ok (x := FindPlan.compile .blog "posts" .sample .standard) (by decide +kernel)
  have hcolumns : (FindPlan.compile .blog "posts" .sample .standard).toOption.map (·.columnNames) =
      some ["k", "o0", "o1", "a0"] := by
    decide +kernel
  rw [hp] at hcolumns
  obtain ⟨-, -, -, hapart⟩ := FindPlan.compile_aliases hp
  have hroot : ¬MadeUp (folded "r") := fun h => h.fault (by decide +kernel)
  exact ⟨p, hp, Option.some.inj hcolumns, hapart hroot⟩

/-- The options with an alias for the root that is accepted, and that a store takes for the alias of the first join. -/
def CompileOptions.upper : CompileOptions :=
  { standard with rootAlias := "J0" }

theorem not_compile_aliases_upper :
    CompileOptions.upper.check = .ok () ∧
      ∃ p, FindPlan.compile .blog "posts" { FindRequest.all with fields := ["author.name"] } .upper = .ok p ∧
        ["J0", "j0"] ∈ p.fromClauses ∧ ¬(["J0", "j0"].map folded).Nodup := by
  obtain ⟨p, hp⟩ := exists_eq_ok
    (x := FindPlan.compile .blog "posts" { FindRequest.all with fields := ["author.name"] } .upper) (by decide +kernel)
  have hclauses : (FindPlan.compile .blog "posts" { FindRequest.all with fields := ["author.name"] }
      .upper).toOption.map (·.fromClauses) = some [["J0", "j0"]] := by
    decide +kernel
  rw [hp] at hclauses
  have hclauses : p.fromClauses = [["J0", "j0"]] := Option.some.inj hclauses
  exact ⟨by decide +kernel, p, hp, hclauses ▸ List.mem_singleton_self _, by decide +kernel⟩

end RecordService
