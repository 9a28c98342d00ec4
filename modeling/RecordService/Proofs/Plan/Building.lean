import Mathlib.Logic.Relation
import RecordService.Proofs.Plan.Shown

/-! # How a projection is built

Whatever a field list says, its projection is built in steps of five kinds (`Projection.Adds`): relations are joined, a
column is selected, related records are added, those of a table's own relation among them, and a link is deferred once
the key that it needs is there. What every step keeps holds of the projection of every field list
(`Projection.addPaths_builds`). Nothing is assumed of the names of relations and columns. -/

namespace RecordService
open JoinPlan (Trail)

/-! ### Tables along chains -/

/-- The table at the end of a chain of relation names. -/
def Catalog.tableAt? (catalog : Catalog) (table : Table) : List String → Option Table
  | [] => some table
  | name :: rest => ((table.relation? name).bind catalog.target?).bind (catalog.tableAt? · rest)

/-- The table at the end of a chain from the root. -/
def Setting.tableAt? (s : Setting) (chain : List String) : Option Table :=
  s.catalog.tableAt? s.root chain

theorem Catalog.tableAt?_append (catalog : Catalog) (before after : List String) (table : Table) :
    catalog.tableAt? table (before ++ after) = (catalog.tableAt? table before).bind (catalog.tableAt? · after) := by
  induction before generalizing table with
  | nil => rfl
  | cons name rest ih => simp only [List.cons_append, tableAt?, ih, Option.bind_assoc]

theorem Setting.tableAt?_concat (s : Setting) (chain : List String) (name : String) :
    s.tableAt? (chain ++ [name]) =
      (s.tableAt? chain).bind fun t => (t.relation? name).bind s.catalog.target? := by
  rw [tableAt?, Catalog.tableAt?_append]
  refine congrArg (Option.bind _) (funext fun t => ?_)
  simp [Catalog.tableAt?]

variable {s : Setting} {plan plan' : JoinPlan} {u : Usage} {hops : List Hop} {path tableAlias : String} {table : Table}

theorem Setting.mem_of_tableAt? (hroot : s.root ∈ s.catalog.tables) {chain : List String}
    (h : s.tableAt? chain = some table) : table ∈ s.catalog.tables := by
  rcases List.eq_nil_or_concat chain with rfl | ⟨init, last, rfl⟩
  · cases h
    exact hroot
  · rw [List.concat_eq_append, tableAt?_concat] at h
    obtain ⟨before, -, h⟩ := Option.bind_eq_some_iff.mp h
    obtain ⟨r, -, h⟩ := Option.bind_eq_some_iff.mp h
    exact Catalog.mem_of_target? h

theorem JoinPlan.Trail.tableAt? (h : plan.Trail s u hops path tableAlias table) :
    s.tableAt? (hops.map (·.relation.name)) = some table := by
  induction h with
  | root => rfl
  | step _ hr ht _ _ ih =>
    rw [List.map_append, List.map_singleton, Setting.tableAt?_concat, ih, Option.bind_some, hr, Option.bind_some, ht]

theorem JoinPlan.Trail.mem (h : plan.Trail s u hops path tableAlias table) (hroot : s.root ∈ s.catalog.tables) :
    table ∈ s.catalog.tables := by
  cases h with
  | root => exact hroot
  | step _ _ ht _ _ => exact Catalog.mem_of_target? ht

/-- The relation is the one that the table at the end of a chain has for its name, below the dotted path of the
chain. -/
def Setting.Names (s : Setting) (x : Crossing) : Prop :=
  s.catalog.target? x.relation = some x.target ∧ ∃ chain t, s.tableAt? chain = some t ∧
    t.relation? x.relation.name = some x.relation ∧ x.path = dotted (chain ++ [x.relation.name])

/-- The relation is one of the table at the end of a chain, below the dotted path of the chain; if it is to-many, the
one that the table has for its name. -/
def Setting.Joinable (s : Setting) (x : Crossing) : Prop :=
  s.catalog.target? x.relation = some x.target ∧ ∃ chain t, s.tableAt? chain = some t ∧ x.relation ∈ t.relations ∧
    (x.relation.isMany = true → t.relation? x.relation.name = some x.relation) ∧
    x.path = dotted (chain ++ [x.relation.name])

theorem Setting.Names.joinable {x : Crossing} (h : s.Names x) : s.Joinable x := by
  obtain ⟨htarget, chain, t, ht, hr, hpath⟩ := h
  exact ⟨htarget, chain, t, ht, Catalog.mem_of_relation? hr, fun _ => hr, hpath⟩

theorem PathStep.names_of_crossings {steps : List PathStep} (hleads : s.catalog.Leads table steps) :
    ∀ (chain : List String) {x : Crossing}, s.tableAt? chain = some table → x ∈ crossings (dotted chain) steps →
      s.Names x := by
  induction hleads with
  | nil => exact fun _ _ _ hx => absurd hx List.not_mem_nil
  | column => exact fun _ _ _ hx => absurd hx List.not_mem_nil
  | @relation table target r rest hr ht _ ih =>
    intro chain x htable hx
    rcases List.mem_cons.mp hx with rfl | hx
    · exact ⟨ht, chain, table, htable, hr, (dotted_concat chain r.name).symm⟩
    · refine ih (chain ++ [r.name]) ?_ (dotted_concat chain r.name ▸ hx)
      rw [Setting.tableAt?_concat, htable, Option.bind_some, hr, Option.bind_some, ht]

/-- The relations that a path crosses are those that the tables on its way have for its names. -/
theorem Setting.names_of_crossed {field : Path} {x : Crossing} (h : x ∈ s.crossed field) : s.Names x := by
  unfold crossed at h
  cases hw : walk s.catalog s.root field.segments with
  | none => simp [hw] at h
  | some steps =>
    rw [hw] at h
    exact PathStep.names_of_crossings (leads_walk hw) [] rfl h

/-! ### Fields of shapes -/

namespace Projection

variable {q q' : Projection} {ok : String → Prop} {chain : List String} {column : Column}

/-- The shape has records at the end of the chain, with a field of the name. -/
def HasField (q : Projection) (chain : List String) (name : String) : Prop :=
  ∃ node, q.shape.at? chain = some node ∧ name ∈ node.fields.map (·.name)

theorem HasField.mono {name : String} (h : q.HasField chain name) (hshape : q.shape.Within q'.shape) :
    q'.HasField chain name := by
  obtain ⟨node, hnode, hname⟩ := h
  obtain ⟨node', hnode', hsub⟩ := hshape.fields chain node hnode
  exact ⟨node', hnode', List.map_subset _ hsub hname⟩

theorem names_linksOf (q : Projection) (hops : List Hop) :
    (q.linksOf hops).1.map (·.name) = hops.map (·.relation.name) :=
  names_of_linked (linksOf_spec hops q).2.1

theorem shape_addRecords (q : Projection) (hops : List Hop) :
    (q.addRecords hops).shape = q.shape.grow id (q.linksOf hops).1 :=
  congrArg (Shape.grow id (q.linksOf hops).1) (linksOf_spec hops q).2.2.1

/-- The place that a column has when it is added below hops. -/
def placeOf (q : Projection) (hops : List Hop) (tableAlias : String) (column : Column) : Nat :=
  ((q.linksOf hops).2.slot ⟨tableAlias, column.name⟩ column.type).1

theorem shape_addField (q : Projection) (hops : List Hop) (tableAlias : String) (column : Column) :
    (q.addField hops tableAlias column).shape =
      q.shape.grow (Shape.addField column.name (q.placeOf hops tableAlias column)) (q.linksOf hops).1 := by
  obtain ⟨-, -, hshape, -⟩ := (q.linksOf hops).2.slot_spec ⟨tableAlias, column.name⟩ column.type
  exact congrArg (Shape.grow _ (q.linksOf hops).1) (hshape.trans (linksOf_spec hops q).2.2.1)

theorem deferred_addRecords (q : Projection) (hops : List Hop) : (q.addRecords hops).deferred = q.deferred :=
  (linksOf_spec hops q).2.2.2

theorem deferred_addField (q : Projection) (hops : List Hop) (tableAlias : String) (column : Column) :
    (q.addField hops tableAlias column).deferred = q.deferred :=
  ((q.linksOf hops).2.slot_spec ⟨tableAlias, column.name⟩ column.type).2.2.2.trans (deferred_addRecords q hops)

theorem within_addRecords (q : Projection) (hops : List Hop) : q.shape.Within (q.addRecords hops).shape := by
  rw [shape_addRecords]
  exact Shape.within_grow Shape.addsFields_id _ _

theorem within_addField (q : Projection) (hops : List Hop) (tableAlias : String) (column : Column) :
    q.shape.Within (q.addField hops tableAlias column).shape := by
  rw [shape_addField]
  exact Shape.within_grow (Shape.addsFields_addField _ _) _ _

theorem hasField_addField (q : Projection) (hops : List Hop) (tableAlias : String) (column : Column) :
    (q.addField hops tableAlias column).HasField (hops.map (·.relation.name)) column.name := by
  obtain ⟨node, hnode⟩ := Shape.at?_grow (Shape.addField column.name (q.placeOf hops tableAlias column))
    (q.linksOf hops).1 q.shape
  rw [names_linksOf, ← shape_addField] at hnode
  obtain ⟨f, hf, hname⟩ := Shape.mem_addField column.name (q.placeOf hops tableAlias column) node
  exact ⟨_, hnode, List.mem_map.mpr ⟨f, hf, hname⟩⟩

/-! ### Steps -/

/-- One step in which a projection and its joins are built. The names of the relations on the way are `ok`. -/
inductive Adds (s : Setting) (ok : String → Prop) : Projection × JoinPlan → Projection × JoinPlan → Prop
  /-- Relations are joined. -/
  | joins {q : Projection} {plan plan' : JoinPlan} {xs : List Crossing} :
      plan.Crosses .forProjection xs plan' → (∀ x ∈ xs, s.Joinable x) →
      Adds s ok (q, plan) (q, plan')
  /-- A column of the table at the end of hops is selected. -/
  | field {q : Projection} {plan : JoinPlan} {hops : List Hop} {path tableAlias : String} {table : Table}
      {column : Column} :
      plan.Trail s .forProjection hops path tableAlias table → (∀ hop ∈ hops, ok hop.relation.name) →
      table.column? column.name = some column →
      Adds s ok (q, plan) (q.addField hops tableAlias column, plan)
  /-- The records at the end of hops are added. -/
  | records {q : Projection} {plan : JoinPlan} {hops : List Hop} {path tableAlias : String} {table : Table} :
      plan.Trail s .forProjection hops path tableAlias table → (∀ hop ∈ hops, ok hop.relation.name) →
      Adds s ok (q, plan) (q.addRecords hops, plan)
  /-- The records of a relation, whatever its name, of the table at the end of hops are added. -/
  | related {q : Projection} {plan : JoinPlan} {hops : List Hop} {path tableAlias : String} {table : Table}
      {hop : Hop} :
      plan.Trail s .forProjection hops path tableAlias table → (∀ hop ∈ hops, ok hop.relation.name) →
      hop.relation ∈ table.relations → s.catalog.target? hop.relation = some hop.target →
      hop.path = extendPath path hop.relation.name → plan.Stands .forProjection hop.path hop.tableAlias →
      Adds s ok (q, plan) (q.addRecords (hops ++ [hop]), plan)
  /-- A to-many relation of the table at the end of hops is deferred. -/
  | deferred {q : Projection} {plan : JoinPlan} {hops : List Hop} {path tableAlias : String} {table target : Table}
      {r : Relation} :
      plan.Trail s .forProjection hops path tableAlias table → (∀ hop ∈ hops, ok hop.relation.name) →
      r ∈ table.relations → s.catalog.target? r = some target → r.isMany = true →
      q.HasField (hops.map (·.relation.name)) r.joinKey →
      Adds s ok (q, plan)
        ({ q with deferred := q.deferred ++ [.ofRelation (hops.map (·.relation.name)) table r target] }, plan)

/-- The one projection and its joins become the other step by step. -/
abbrev Builds (s : Setting) (ok : String → Prop) : Projection × JoinPlan → Projection × JoinPlan → Prop :=
  Relation.ReflTransGen (Adds s ok)

theorem Adds.within {a b : Projection × JoinPlan} (h : Adds s ok a b) : a.1.shape.Within b.1.shape := by
  cases h with
  | joins => exact .refl _
  | field => exact within_addField ..
  | records => exact within_addRecords ..
  | related => exact within_addRecords ..
  | deferred => exact .refl _

theorem Builds.within {a b : Projection × JoinPlan} (h : Builds s ok a b) : a.1.shape.Within b.1.shape := by
  induction h with
  | refl => exact .refl _
  | tail _ hadds ih => exact ih.trans hadds.within

/-- Whatever is added, relations are joined one after the other. -/
theorem Builds.crosses {a b : Projection × JoinPlan} (h : Builds s ok a b) :
    ∃ xs, a.2.Crosses .forProjection xs b.2 ∧ ∀ x ∈ xs, s.Joinable x := by
  induction h with
  | refl => exact ⟨[], .refl a.2, fun x hx => absurd hx List.not_mem_nil⟩
  | tail _ hadds ih =>
    obtain ⟨xs, hxs, hnames⟩ := ih
    cases hadds with
    | @joins q plan plan' ys hys hmore =>
      exact ⟨xs ++ ys, hxs.append hys, fun x hx => (List.mem_append.mp hx).elim (hnames x) (hmore x)⟩
    | field => exact ⟨xs, hxs, hnames⟩
    | records => exact ⟨xs, hxs, hnames⟩
    | related => exact ⟨xs, hxs, hnames⟩
    | deferred => exact ⟨xs, hxs, hnames⟩

/-! ### Field lists -/

/-- A column that is selected already is added in whatever type. -/
theorem addField_congr {column' : Column} (hname : column.name = column'.name)
    (hselected : ⟨tableAlias, column.name⟩ ∈ q.columns.map (·.ref)) :
    q.addField hops tableAlias column = q.addField hops tableAlias column' := by
  have hsome : ∃ place, (q.linksOf hops).2.columns.findIdx? (·.ref == ⟨tableAlias, column'.name⟩) = some place := by
    rw [← Option.isSome_iff_exists, List.findIdx?_isSome, List.any_eq_true]
    obtain ⟨c, hc, href⟩ := List.mem_map.mp hselected
    exact ⟨c, (linksOf_spec hops q).1.subset hc, by simp [href, hname]⟩
  obtain ⟨place, hplace⟩ := hsome
  simp only [addField, slot, hname, hplace]

theorem columns_addField (q : Projection) (hops : List Hop) (tableAlias : String) (column : Column) :
    q.columns <+: (q.addField hops tableAlias column).columns ∧
      ⟨tableAlias, column.name⟩ ∈ (q.addField hops tableAlias column).columns.map (·.ref) := by
  obtain ⟨hcols, hselects, -, -⟩ := (q.linksOf hops).2.slot_spec ⟨tableAlias, column.name⟩ column.type
  refine ⟨(linksOf_spec hops q).1.trans hcols, ?_⟩
  obtain ⟨c, hc, href⟩ := Option.map_eq_some_iff.mp hselects
  exact List.mem_map.mpr ⟨c, List.mem_of_getElem? hc, href⟩

/-- A column is added as the table declares its name: if there is an earlier one of the name, that one is selected. -/
theorem addField_adds {before rest : List Column} (htrail : plan.Trail s .forProjection hops path tableAlias table)
    (hok : ∀ hop ∈ hops, ok hop.relation.name) (hcolumns : table.columns = before ++ column :: rest)
    (hbefore : ∀ c ∈ before, ⟨tableAlias, c.name⟩ ∈ q.columns.map (·.ref)) :
    Adds s ok (q, plan) (q.addField hops tableAlias column, plan) := by
  have hcolumn : table.column? column.name =
      (before.find? (·.name == column.name)).or (some column) := by
    rw [Table.column?, hcolumns, List.find?_append, List.find?_cons, beq_self_eq_true]
  cases hfound : before.find? (·.name == column.name) with
  | none =>
    rw [hfound, Option.none_or] at hcolumn
    exact .field htrail hok hcolumn
  | some earlier =>
    rw [hfound, Option.some_or] at hcolumn
    have hname := Catalog.name_of_column? hcolumn
    have hselected := hbefore earlier (List.mem_of_find?_eq_some hfound)
    rw [addField_congr hname.symm (hname ▸ hselected)]
    exact .field htrail hok (hname ▸ hcolumn)

theorem addFields_builds (htrail : plan.Trail s .forProjection hops path tableAlias table)
    (hok : ∀ hop ∈ hops, ok hop.relation.name) : ∀ (columns before : List Column) {q : Projection},
      table.columns = before ++ columns → (∀ c ∈ before, ⟨tableAlias, c.name⟩ ∈ q.columns.map (·.ref)) →
        Builds s ok (q, plan) (columns.foldl (fun q column => q.addField hops tableAlias column) q, plan) ∧
          ∀ c ∈ columns, (columns.foldl (fun q column => q.addField hops tableAlias column) q).HasField
            (hops.map (·.relation.name)) c.name
  | [], _, _, _, _ => ⟨.refl, fun c hc => absurd hc List.not_mem_nil⟩
  -- on the columns that are left: those before them are selected already
  | column :: rest, before, q, hcolumns, hbefore => by
    have hadds := addField_adds htrail hok hcolumns hbefore
    obtain ⟨hcolumns', hselected⟩ := columns_addField q hops tableAlias column
    obtain ⟨hbuilds, hfields⟩ := addFields_builds htrail hok rest (before ++ [column])
      (q := q.addField hops tableAlias column) (by rw [hcolumns, List.append_assoc, List.singleton_append])
      fun c hc => by
        rcases List.mem_append.mp hc with hc | hc
        · exact List.map_subset _ hcolumns'.subset (hbefore c hc)
        · exact List.mem_singleton.mp hc ▸ hselected
    refine ⟨.head hadds hbuilds, fun c hc => ?_⟩
    rcases List.mem_cons.mp hc with rfl | hc
    · exact (hasField_addField q hops tableAlias c).mono hbuilds.within
    · exact hfields c hc

theorem addRelations_builds (hok : ∀ hop ∈ hops, ok hop.relation.name) :
    ∀ {relations : List Relation} {q : Projection} {plan : JoinPlan}, plan.Regular →
      plan.Trail s .forProjection hops path tableAlias table → (∀ r ∈ relations, r ∈ table.relations) →
        (∀ r ∈ relations, q.HasField (hops.map (·.relation.name)) r.joinKey) →
          Builds s ok (q, plan) (addRelations s hops tableAlias path table relations q plan)
  | [], _, _, _, _, _, _ => .refl
  | r :: rest, q, plan, hp, htrail, hmem, hkeys => by
    have hr := hmem r List.mem_cons_self
    have hrest : ∀ r' ∈ rest, r' ∈ table.relations := fun r' h' => hmem r' (List.mem_cons_of_mem _ h')
    have hkeys' : ∀ r' ∈ rest, q.HasField (hops.map (·.relation.name)) r'.joinKey :=
      fun r' h' => hkeys r' (List.mem_cons_of_mem _ h')
    rw [addRelations]
    cases ht : s.catalog.target? r with
    | none => exact addRelations_builds hok hp htrail hrest hkeys'
    | some target =>
      cases hmany : r.isMany with
      | true =>
        refine Relation.ReflTransGen.head ?_ (addRelations_builds hok hp htrail hrest hkeys')
        exact .deferred htrail hok hr ht hmany (hkeys r List.mem_cons_self)
      | false =>
        have hcrosses := JoinPlan.Crosses.join (u := .forProjection) plan path tableAlias r target htrail.known
        have hgains := hcrosses.gains
        have hstands := JoinPlan.stands_join hp path tableAlias r target .forProjection
        have htrail' := htrail.mono hgains.toExtends
        have hrelated : Adds s ok (q, (plan.cross path tableAlias r target .forProjection).2)
            (q.addRecords (hops ++ [(plan.cross path tableAlias r target .forProjection).1]), _) :=
          .related htrail' hok hr ht rfl hstands
        have hjoinable : s.Joinable ⟨extendPath path r.name, r, target⟩ := by
          refine ⟨ht, _, table, htrail.tableAt?, hr, fun htrue => ?_, by rw [dotted_concat, ← htrail.path_eq]⟩
          rw [hmany] at htrue
          cases htrue
        refine .head (.joins hcrosses (List.forall_mem_singleton.mpr hjoinable)) (.head hrelated ?_)
        exact addRelations_builds hok (hgains.regular hp) htrail' hrest fun r' h' =>
          (hkeys' r' h').mono (within_addRecords _ _)

theorem addAll_builds (hroot : s.root ∈ s.catalog.tables) (hok : ∀ hop ∈ hops, ok hop.relation.name)
    (hp : plan.Regular) (htrail : plan.Trail s .forProjection hops path tableAlias table) :
    Builds s ok (q, plan) (addAll s hops tableAlias path table q plan) := by
  obtain ⟨hcolumns, hfields⟩ := addFields_builds htrail hok table.columns [] (q := q) rfl
    fun c hc => absurd hc List.not_mem_nil
  refine hcolumns.trans (.head (.records htrail hok) ?_)
  refine addRelations_builds hok hp htrail (fun _ hr => hr) fun r hr => ?_
  obtain ⟨c, hc⟩ := Option.isSome_iff_exists.mp (Catalog.joinKey_declared (htrail.mem hroot) hr)
  rw [← Catalog.name_of_column? hc]
  exact (hfields c (List.mem_of_find?_eq_some hc)).mono (within_addRecords _ _)

/-- What a path stands for is added step by step, and so is what stays of a path that is dropped. -/
theorem Addition.builds {field : Path} {q' : Projection} (hroot : s.root ∈ s.catalog.tables) (hp : plan.Regular)
    (h : Addition s field q plan q' plan') (hok : ∀ name ∈ field.segments, ok name) :
    plan'.Regular ∧ Builds s ok (q, plan) (q', plan') := by
  have hjoinable : ∀ x ∈ s.named field, s.Joinable x := fun x hx => (Setting.names_of_crossed hx).joinable
  have hpassed {hops : List Hop} (hnames : ∀ name ∈ hops.map (·.relation.name), name ∈ field.segments) :
      ∀ hop ∈ hops, ok hop.relation.name :=
    fun hop hhop => hok _ (hnames _ (List.mem_map_of_mem hhop))
  cases h with
  | nothing _ hcrosses => exact ⟨hcrosses.gains.regular hp, .single (.joins hcrosses hjoinable)⟩
  | everything _ _ hcrosses htrail hnames =>
    have hp' := hcrosses.gains.regular hp
    refine ⟨(addAll_gains ..).regular hp', .head (.joins hcrosses hjoinable) (addAll_builds hroot ?_ hp' htrail)⟩
    refine hpassed fun name hname => ?_
    rw [hnames] at hname
    exact List.dropLast_subset _ hname
  | field _ _ hcrosses htrail hnames hc =>
    refine ⟨hcrosses.gains.regular hp, .head (.joins hcrosses hjoinable) (.single (.field htrail ?_ hc))⟩
    exact hpassed fun name hname => hnames ▸ List.mem_append_left _ hname
  | records _ _ hcrosses _ _ htrail hnames =>
    refine ⟨hcrosses.gains.regular hp, .head (.joins hcrosses hjoinable) (.single (.records htrail ?_))⟩
    refine hpassed fun name hname => ?_
    rwa [List.map_append, List.map_singleton, hnames] at hname

theorem addPaths_builds (hroot : s.root ∈ s.catalog.tables) : ∀ {fields : List Path} {q q' : Projection}
    {d d' : Draft}, d.plan.Regular → (∀ field ∈ fields, ∀ name ∈ field.segments, ok name) →
      addPaths s fields q d = .ok (q', d') → d'.plan.Regular ∧ Builds s ok (q, d.plan) (q', d'.plan)
  | [], q, q', d, d', hp, _, h => by
    cases h
    exact ⟨hp, .refl⟩
  | field :: rest, q, q', d, d', hp, hok, h => by
    obtain ⟨⟨q₁, d₁⟩, hfirst, hrest⟩ := bind_eq_ok.mp h
    obtain ⟨hp₁, hbuilds⟩ := (addPath_inv hp hfirst).builds hroot hp (hok field List.mem_cons_self)
    obtain ⟨hp', hbuilds'⟩ := addPaths_builds hroot hp₁
      (fun other hother => hok other (List.mem_cons_of_mem _ hother)) hrest
    exact ⟨hp', hbuilds.trans hbuilds'⟩

/-- A field list joins relations one after the other, whatever they are called. -/
theorem addPaths_crosses {fields : List Path} {q q' : Projection} {d d' : Draft} (hroot : s.root ∈ s.catalog.tables)
    (hp : d.plan.Regular) (h : addPaths s fields q d = .ok (q', d')) :
    ∃ xs, d.plan.Crosses .forProjection xs d'.plan ∧ ∀ x ∈ xs, s.Joinable x := by
  have hany : ∀ field ∈ fields, ∀ name ∈ field.segments, True := fun _ _ _ _ => trivial
  exact (addPaths_builds hroot hp hany h).2.crosses

theorem ofFields_crosses {fields : List Path} {q : Projection} {d d' : Draft} (hroot : s.root ∈ s.catalog.tables)
    (hp : d.plan.Regular) (h : ofFields s fields d = .ok (q, d')) :
    ∃ xs, d.plan.Crosses .forProjection xs d'.plan ∧ ∀ x ∈ xs, s.Joinable x := by
  obtain ⟨q₁, hadd, -⟩ := ofFields_eq_ok.mp h
  exact addPaths_crosses hroot hp hadd

end Projection

/-! ### Chains of a projection -/

/-- Each name is that of a relation of the table that the names before it lead to. -/
def Setting.Follows (s : Setting) (names : List String) : Prop :=
  ∀ before name after, names = before ++ name :: after →
    ∃ t r, s.tableAt? before = some t ∧ r ∈ t.relations ∧ r.name = name

theorem Setting.Follows.concat {names : List String} {r : Relation} (h : s.Follows names)
    (htable : s.tableAt? names = some table) (hr : r ∈ table.relations) : s.Follows (names ++ [r.name]) := by
  intro before name after heq
  rcases List.eq_nil_or_concat after with rfl | ⟨init, last, rfl⟩
  · obtain ⟨rfl, hname⟩ := List.append_inj' heq rfl
    cases hname
    exact ⟨table, r, htable, hr, rfl⟩
  · rw [List.concat_eq_append, ← List.cons_append, ← List.append_assoc] at heq
    exact h before name init (List.append_inj' heq rfl).1

theorem JoinPlan.Trail.follows (h : plan.Trail s u hops path tableAlias table) :
    s.Follows (hops.map (·.relation.name)) := by
  induction h with
  | root =>
    intro before name after heq
    simp at heq
  | step htrail hr _ _ _ ih =>
    rw [List.map_append, List.map_singleton]
    exact ih.concat htrail.tableAt? (Catalog.mem_of_relation? hr)

namespace Projection

variable {q : Projection} {ok : String → Prop}

/-- The relations of the shape and the deferred ones are those of the tables along their chains, and the keys of the
latter are among the fields. -/
structure Charted (q : Projection) (s : Setting) : Prop where
  relations : ∀ chain node name b, q.shape.at? chain = some node → node.branch? name = some b →
    ∃ t r, s.tableAt? chain = some t ∧ r ∈ t.relations ∧ r.name = name
  deferred : ∀ l ∈ q.deferred, ∃ t r target, s.tableAt? l.parentChain = some t ∧ r ∈ t.relations ∧
    s.catalog.target? r = some target ∧ r.isMany = true ∧ l = .ofRelation l.parentChain t r target ∧
    q.HasField l.parentChain r.joinKey

/-- A shape that grows along followed names has relations of the tables only. -/
theorem Charted.grow {q' : Projection} {change : Shape → Shape} {added : List FieldSlot} {links : List ShapeLink}
    (h : q.Charted s) (hchange : Shape.AddsFields change added) (hshape : q'.shape = q.shape.grow change links)
    (hdeferred : q'.deferred = q.deferred) (hfollows : s.Follows (links.map (·.name))) : q'.Charted s := by
  have hevery : q.shape.Every (fun _ _ => True) fun chain name _ =>
      ∃ t r, s.tableAt? chain = some t ∧ r ∈ t.relations ∧ r.name = name :=
    ⟨fun _ _ _ _ _ => trivial, h.relations⟩
  have hgrown : (q.shape.grow change links).Every _ _ := Shape.every_grow hchange hevery
    (fun before link after heq => ⟨hfollows _ _ (after.map (·.name)) (by simp [heq]), trivial⟩) fun _ _ => trivial
  rw [← hshape] at hgrown
  refine ⟨hgrown.branches, fun l hl => ?_⟩
  obtain ⟨t, r, target, ht, hr, htarget, hmany, heq, hfield⟩ := h.deferred l (hdeferred ▸ hl)
  refine ⟨t, r, target, ht, hr, htarget, hmany, heq, hfield.mono ?_⟩
  rw [hshape]
  exact Shape.within_grow hchange _ _

theorem Adds.charted {a b : Projection × JoinPlan} (hadds : Adds s ok a b) (h : a.1.Charted s) : b.1.Charted s := by
  cases hadds with
  | joins => exact h
  | @field q plan hops _ tableAlias _ column htrail _ _ =>
    refine h.grow (Shape.addsFields_addField _ _) (shape_addField q hops tableAlias column)
      (deferred_addField ..) ?_
    rw [names_linksOf]
    exact htrail.follows
  | @records q plan hops _ _ _ htrail _ =>
    refine h.grow Shape.addsFields_id (shape_addRecords q hops) (deferred_addRecords ..) ?_
    rw [names_linksOf]
    exact htrail.follows
  | @related q plan hops _ _ _ hop htrail _ hr _ _ _ =>
    refine h.grow Shape.addsFields_id (shape_addRecords q (hops ++ [hop])) (deferred_addRecords ..) ?_
    rw [names_linksOf, List.map_append, List.map_singleton]
    exact htrail.follows.concat htrail.tableAt? hr
  | deferred htrail _ hr ht hmany hkey =>
    refine ⟨h.relations, fun l hl => ?_⟩
    rcases List.mem_append.mp hl with hl | hl
    · exact h.deferred l hl
    · rw [List.mem_singleton.mp hl]
      exact ⟨_, _, _, htrail.tableAt?, hr, ht, hmany, rfl, hkey⟩

theorem Builds.charted {a b : Projection × JoinPlan} (hbuilds : Builds s ok a b) (h : a.1.Charted s) :
    b.1.Charted s := by
  induction hbuilds with
  | refl => exact h
  | tail _ hadds ih => exact hadds.charted ih

theorem charted_start (rootAlias : String) (root : Table) : (start rootAlias root).Charted s := by
  have hbare : (Shape.ofKey root.primaryKey 0).Every (fun _ _ => True) fun _ _ _ => False := Shape.every_ofKey trivial
  exact ⟨fun chain node name b hnode hb => (hbare.branches chain node name b hnode hb).elim,
    fun l hl => absurd hl List.not_mem_nil⟩

/-- The projection of a field list, before links are dropped, is built step by step. -/
theorem ofFields_builds {fields : List Path} {d d' : Draft} {p : Projection} (hroot : s.root ∈ s.catalog.tables)
    (hp : d.plan.Regular) (hok : ∀ field ∈ fieldPaths fields, ∀ name ∈ field.segments, ok name)
    (h : ofFields s fields d = .ok (p, d')) :
    ∃ q, d'.plan.Regular ∧ Builds s ok (start d.plan.root s.root, d.plan) (q, d'.plan) ∧
      p = { q with deferred := keepDeferred q.shape [] q.deferred } := by
  obtain ⟨q, hadd, rfl⟩ := ofFields_eq_ok.mp h
  obtain ⟨hp', hbuilds⟩ := addPaths_builds hroot hp hok hadd
  exact ⟨q, hp', hbuilds, rfl⟩

end Projection
end RecordService
