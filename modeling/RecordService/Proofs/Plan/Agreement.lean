import Mathlib.Data.List.Induction
import RecordService.Proofs.Plan.Building
import RecordService.Proofs.Plan.Tidiness
import RecordService.Proofs.Plan.Traceless
import RecordService.Proofs.Text.Splitting

/-! # Select list and shape agree

The projection of a field list selects no column twice, and its shape says where every cell stands
(`Projection.ofFields_agrees`): the key and the fields of the records at the end of a chain of relations are read from
the columns of the table there, under the alias of the chain, in the types that the table declares; relations and
deferred links are those of that table. Two tables may have the same columns and two chains the same table: that no
cell is read from another's place comes from the aliases, each of which stands for one chain
(`JoinPlan.Located.eq_chain`). -/

namespace RecordService
open JoinPlan (Trail Located)

/-! ### Dotted paths -/

/-- Names that dotted paths tell apart wherever they stand. -/
def Legible (names : List String) : Prop :=
  ∀ n ∈ names, n ≠ "" ∧ '.' ∉ n.toList

theorem dotted_inj {names names' : List String} (h : Legible names) (h' : Legible names')
    (heq : dotted names = dotted names') : names = names' := by
  induction names using List.reverseRecOn generalizing names' with
  | nil =>
    rcases List.eq_nil_or_concat names' with rfl | ⟨init', last', rfl⟩
    · rfl
    · rw [List.concat_eq_append, dotted_concat] at heq
      exact absurd heq.symm (extendPath_ne_empty (h' last' (by simp)).1)
  | append_singleton init last ih =>
    rcases List.eq_nil_or_concat names' with rfl | ⟨init', last', rfl⟩
    · rw [dotted_concat] at heq
      exact absurd heq (extendPath_ne_empty (h last (by simp)).1)
    · rw [List.concat_eq_append] at h' heq ⊢
      rw [dotted_concat, dotted_concat] at heq
      obtain ⟨hinit, hlast⟩ := extendPath_inj (h last (by simp)).2 (h' last' (by simp)).2 heq
      rw [hlast, ih (fun n hn => h n (List.mem_append_left _ hn)) (fun n hn => h' n (List.mem_append_left _ hn)) hinit]

/-- A last name may be empty. -/
theorem dotted_concat_inj {names names' : List String} {last last' : String} (h : Legible names)
    (h' : Legible names') (hlast : '.' ∉ last.toList) (hlast' : '.' ∉ last'.toList)
    (heq : dotted (names ++ [last]) = dotted (names' ++ [last'])) : names ++ [last] = names' ++ [last'] := by
  rw [dotted_concat, dotted_concat] at heq
  obtain ⟨hinit, rfl⟩ := extendPath_inj hlast hlast' heq
  rw [dotted_inj h h' hinit]

/-! ### Aliases -/

/-- Relation names without dots. -/
def Catalog.Dotless (catalog : Catalog) : Prop :=
  ∀ t ∈ catalog.tables, ∀ r ∈ t.relations, '.' ∉ r.name.toList

/-- The alias of the records at the end of a chain of relations: the root's, or that of the join of the dotted path. -/
def JoinPlan.aliasAt? (p : JoinPlan) (chain : List String) : Option String :=
  if chain.isEmpty then some p.root else p.alias? (dotted chain)

section
variable {s : Setting} {p p' : JoinPlan} {u u' : Usage} {hops : List Hop} {path tableAlias : String}
  {table table' : Table} {chain chain' : List String}

theorem JoinPlan.Trail.dotless (hdots : s.catalog.Dotless) (hroot : s.root ∈ s.catalog.tables)
    (h : p.Trail s u hops path tableAlias table) : ∀ n ∈ hops.map (·.relation.name), '.' ∉ n.toList := by
  induction h with
  | root => exact fun n hn => absurd hn List.not_mem_nil
  | @step hops path tableAlias table hop htrail hr _ _ _ ih =>
    intro n hn
    rw [List.map_append, List.map_singleton] at hn
    rcases List.mem_append.mp hn with hn | hn
    · exact ih n hn
    · rw [List.mem_singleton.mp hn]
      exact hdots table (htrail.mem hroot) _ (Catalog.mem_of_relation? hr)

theorem JoinPlan.Stands.alias? (hp : p.Regular) (h : p.Stands u path tableAlias) : p.alias? path = some tableAlias := by
  obtain ⟨j, hj, hpath, halias, -⟩ := h
  exact hp.indexed.alias?_eq_some_iff.mpr ⟨j, hj, hpath, halias⟩

theorem JoinPlan.Located.aliasAt? (hp : p.Regular) (h : p.Located s u chain tableAlias table) :
    p.aliasAt? chain = some tableAlias := by
  obtain ⟨hops, path, htrail, rfl⟩ := h
  have hpath := htrail.path_eq
  cases htrail with
  | root => rfl
  | step _ _ _ _ hstands =>
    rw [hpath] at hstands
    rw [JoinPlan.aliasAt?, hstands.alias? hp]
    simp

theorem JoinPlan.Located.tableAt? (h : p.Located s u chain tableAlias table) : s.tableAt? chain = some table := by
  obtain ⟨hops, path, htrail, rfl⟩ := h
  exact htrail.tableAt?

theorem JoinPlan.Stands.place (hp : p.Regular) (h : p.Stands u path tableAlias) :
    ∃ (k : Nat) (j : Join), p.joins[k]? = some j ∧ j.path = path ∧ tableAlias = joinAlias k := by
  obtain ⟨j, hj, hpath, rfl, -⟩ := h
  obtain ⟨k, hk⟩ := List.mem_iff_getElem?.mp hj
  exact ⟨k, j, hk, hpath, hp.aliases k j hk⟩

/-- An alias stands for one path. -/
theorem JoinPlan.Stands.eq_path {path' : String} (hp : p.Regular) (h : p.Stands u path tableAlias)
    (h' : p.Stands u' path' tableAlias) : path = path' := by
  obtain ⟨k, j, hj, rfl, halias⟩ := h.place hp
  obtain ⟨k', j', hj', rfl, halias'⟩ := h'.place hp
  rw [joinAlias_inj (halias.symm.trans halias'), hj'] at hj
  rw [Option.some.inj hj]

/-- What tells the aliases of a plan apart: names without dots, a root alias that no join has, and joins of one path
each. -/
structure JoinPlan.Clear (p : JoinPlan) (s : Setting) : Prop where
  dotless : s.catalog.Dotless
  mem : s.root ∈ s.catalog.tables
  rootAlias : CompileOptions.aliasFault? s.options.rootAlias = none
  root : p.root = s.options.rootAlias
  regular : p.Regular

/-- An alias stands for one chain of relations. -/
theorem JoinPlan.Located.eq_chain (hclear : p.Clear s) (h : p.Located s u chain tableAlias table)
    (h' : p.Located s u' chain' tableAlias table') (hchain : ∀ n ∈ chain.dropLast, n ≠ "")
    (hchain' : ∀ n ∈ chain'.dropLast, n ≠ "") : chain = chain' := by
  have hp := hclear.regular
  have hne (k : Nat) : joinAlias k ≠ p.root :=
    hclear.root ▸ CompileOptions.rootAlias_ne hclear.rootAlias (isGenerated_alias (Or.inl rfl))
  obtain ⟨hops, path, htrail, rfl⟩ := h
  obtain ⟨hops', path', htrail', rfl⟩ := h'
  have hdotless := htrail.dotless hclear.dotless hclear.mem
  have hdotless' := htrail'.dotless hclear.dotless hclear.mem
  have hpath := htrail.path_eq
  have hpath' := htrail'.path_eq
  -- the root has its own alias; any other is that of a join, and so of one path
  cases htrail with
  | root =>
    generalize halias : p.root = tableAlias at htrail'
    cases htrail' with
    | root => rfl
    | step _ _ _ _ hstands =>
      obtain ⟨k, -, -, -, hk⟩ := hstands.place hp
      exact absurd (halias.trans hk).symm (hne k)
  | @step before _ _ _ hop _ _ _ _ hstands =>
    generalize hsame : hop.tableAlias = tableAlias at htrail'
    cases htrail' with
    | root =>
      obtain ⟨k, -, -, -, hk⟩ := hstands.place hp
      exact absurd (hk.symm.trans hsame) (hne k)
    | @step before' _ _ _ hop' _ _ _ _ hstands' =>
      rw [hstands.eq_path hp (hsame ▸ hstands')] at hpath
      rw [List.map_append, List.map_singleton] at hdotless hdotless' hpath hpath' hchain hchain'
      rw [List.dropLast_concat] at hchain hchain'
      rw [List.map_append, List.map_append, List.map_singleton, List.map_singleton]
      -- names without dots can be told from their path
      exact dotted_concat_inj (fun n hn => ⟨hchain n hn, hdotless n (List.mem_append_left _ hn)⟩)
        (fun n hn => ⟨hchain' n hn, hdotless' n (List.mem_append_left _ hn)⟩)
        (hdotless _ List.mem_concat_self) (hdotless' _ List.mem_concat_self) (hpath.symm.trans hpath')
end

/-! ### The select list -/

namespace Projection

variable {q q' : Projection} {plan plan' : JoinPlan} {s : Setting} {hops : List Hop} {path tableAlias : String}
  {table : Table} {ref : Sql.ColumnRef} {type : ScalarType}

/-- The column is one of the table at a chain, under the alias of the chain and in the type that the table declares. -/
def Declared (plan : JoinPlan) (s : Setting) (c : SelectColumn) : Prop :=
  ∃ chain table column, (∀ n ∈ chain.dropLast, n ≠ "") ∧ plan.Located s .forProjection chain c.ref.tableAlias table ∧
    table.column? c.ref.column = some column ∧ c.type = column.type

/-- The columns are declared, and none is selected twice. -/
structure Filed (columns : List SelectColumn) (plan : JoinPlan) (s : Setting) : Prop where
  distinct : (columns.map (·.ref)).Nodup
  declared : ∀ c ∈ columns, Declared plan s c

theorem Declared.mono {c : SelectColumn} (h : Declared plan s c) (hext : plan.Extends plan') : Declared plan' s c := by
  obtain ⟨chain, table, column, hnames, hlocated, hcolumn⟩ := h
  exact ⟨chain, table, column, hnames, hlocated.mono hext, hcolumn⟩

theorem Filed.slot (h : Filed q.columns plan s) (hnew : Declared plan s ⟨ref, type⟩) :
    Filed (q.slot ref type).2.columns plan s := by
  unfold Projection.slot
  split
  · exact h
  · rename_i hnone
    refine ⟨?_, fun c hc => ?_⟩
    · rw [List.map_append, List.nodup_append]
      refine ⟨h.distinct, List.nodup_singleton _, fun other hother added hadded heq => ?_⟩
      obtain ⟨c, hc, rfl⟩ := List.mem_map.mp hother
      rw [List.map_singleton, List.mem_singleton] at hadded
      simpa [heq, hadded] using List.findIdx?_eq_none_iff.mp hnone c hc
    · rcases List.mem_append.mp hc with hc | hc
      · exact h.declared c hc
      · exact List.mem_singleton.mp hc ▸ hnew

theorem Filed.linksOf : ∀ {hops : List Hop} {q : Projection}, Filed q.columns plan s →
    (∀ hop ∈ hops, Declared plan s ⟨⟨hop.tableAlias, hop.target.primaryKey⟩, hop.target.primaryType⟩) →
      Filed (q.linksOf hops).2.columns plan s
  | [], _, h, _ => h
  | hop :: rest, q, h, hhops => by
    have hfirst := h.slot (hhops hop List.mem_cons_self)
    have hrest := Filed.linksOf hfirst fun other hother => hhops other (List.mem_cons_of_mem hop hother)
    exact hrest

/-- Names that are not empty, the last one excepted, are so up to each hop. -/
theorem names_of_split {before after : List Hop} {hop : Hop}
    (hnames : ∀ n ∈ ((before ++ hop :: after).map (·.relation.name)).dropLast, n ≠ "") :
    ∀ n ∈ ((before ++ [hop]).map (·.relation.name)).dropLast, n ≠ "" := by
  intro n hn
  refine hnames n ?_
  rw [List.map_append, List.map_singleton, List.dropLast_concat] at hn
  rw [List.map_append, List.map_cons, List.dropLast_append_cons]
  exact List.mem_append_left _ hn

/-- The hops of a trail lead to declared keys. -/
theorem declared_hop (hroot : s.root ∈ s.catalog.tables)
    (htrail : plan.Trail s .forProjection hops path tableAlias table)
    (hnames : ∀ n ∈ (hops.map (·.relation.name)).dropLast, n ≠ "") :
    ∀ hop ∈ hops, Declared plan s ⟨⟨hop.tableAlias, hop.target.primaryKey⟩, hop.target.primaryType⟩ := by
  intro hop hhop
  obtain ⟨before, after, rfl⟩ := List.append_of_mem hhop
  obtain ⟨path', tableAlias', table', -, -, hhere⟩ := htrail.split rfl
  obtain ⟨column, hcolumn⟩ := Option.isSome_iff_exists.mp (Catalog.primaryKey_declared (hhere.mem hroot))
  refine ⟨_, hop.target, column, names_of_split hnames, ⟨_, _, hhere, rfl⟩, hcolumn, ?_⟩
  rw [Table.primaryType, hcolumn]
  rfl

/-! ### Keys of records -/

/-- The links of hops are those of their relations, with the keys of their targets, each at its place. -/
theorem linksOf_split : ∀ {hops : List Hop} {q : Projection} {before after : List ShapeLink} {link : ShapeLink},
    (q.linksOf hops).1 = before ++ link :: after → ∃ passed hop ahead, hops = passed ++ hop :: ahead ∧
      before.map (·.name) = passed.map (·.relation.name) ∧
        link = ⟨hop.relation.name, hop.relation.isMany, hop.target.primaryKey, link.keySlot⟩
  | [], q, before, after, link, h => by simp [linksOf] at h
  | hop :: rest, q, before, after, link, h => by
    cases before with
    | nil =>
      obtain ⟨rfl, -⟩ := List.cons.inj h
      exact ⟨[], hop, rest, rfl, rfl, rfl⟩
    | cons first before =>
      obtain ⟨rfl, hrest⟩ := List.cons.inj h
      obtain ⟨passed, next, ahead, rfl, hnames, hlink⟩ := linksOf_split hrest
      refine ⟨hop :: passed, next, ahead, rfl, ?_, hlink⟩
      rw [List.map_cons, hnames]
      rfl

/-- The records at the end of a chain have the key of the table there, as their first field. -/
def KeyFits (s : Setting) (chain : List String) (keyName : String) (keySlot : Nat) (fields : List FieldSlot) : Prop :=
  (∀ n ∈ chain.dropLast, n ≠ "") ∧
    ∃ t, s.tableAt? chain = some t ∧ keyName = t.primaryKey ∧ fields.head? = some ⟨keyName, keySlot⟩

/-- All records of the shape have their keys. -/
def Keyed (q : Projection) (s : Setting) : Prop :=
  ∀ chain node, q.shape.at? chain = some node → KeyFits s chain node.keyName node.keySlot node.fields

theorem Keyed.grow {change : Shape → Shape} (h : q.Keyed s) (hrelations : ∀ s, (change s).relations = s.relations)
    (hkey : ∀ s, (change s).keyName = s.keyName ∧ (change s).keySlot = s.keySlot)
    (hfields : ∀ s : Shape, s.fields <+: (change s).fields) (hshape : q'.shape = q.shape.grow change (q.linksOf hops).1)
    (htrail : plan.Trail s .forProjection hops path tableAlias table)
    (hnames : ∀ n ∈ (hops.map (·.relation.name)).dropLast, n ≠ "") : q'.Keyed s := by
  unfold Keyed
  rw [hshape]
  refine Shape.nodes_grow hrelations h (fun before link after heq => ?_) fun node hnode => ?_
  · obtain ⟨passed, hop, ahead, rfl, hbefore, hlink⟩ := linksOf_split heq
    obtain ⟨-, -, -, -, -, hhere⟩ := htrail.split rfl
    have hchain : before.map (·.name) ++ [link.name] = (passed ++ [hop]).map (·.relation.name) := by
      rw [hbefore, hlink, List.map_append, List.map_singleton]
    rw [hchain]
    exact ⟨names_of_split hnames, hop.target, hhere.tableAt?, congrArg ShapeLink.keyName hlink, rfl⟩
  · obtain ⟨hchain, t, ht, hname, hhead⟩ := hnode
    rw [(hkey node).1, (hkey node).2]
    refine ⟨hchain, t, ht, hname, ?_⟩
    obtain ⟨more, hmore⟩ := hfields node
    rw [← hmore, List.head?_append, hhead]
    rfl

theorem filed_start {rootAlias : String} (hroot : s.root ∈ s.catalog.tables) :
    Filed (start rootAlias s.root).columns (.start rootAlias) s := by
  obtain ⟨column, hcolumn⟩ := Option.isSome_iff_exists.mp (Catalog.primaryKey_declared hroot)
  refine ⟨List.nodup_singleton _, fun c hc => ?_⟩
  rw [List.mem_singleton.mp hc]
  refine ⟨[], s.root, column, fun n hn => absurd hn List.not_mem_nil, ⟨[], "", .root, rfl⟩, hcolumn, ?_⟩
  rw [Table.primaryType, hcolumn]
  rfl

theorem keyed_start (rootAlias : String) : (start rootAlias s.root).Keyed s := by
  intro chain node hnode
  cases chain with
  | nil =>
    cases hnode
    exact ⟨fun n hn => absurd hn List.not_mem_nil, s.root, rfl, rfl, rfl⟩
  | cons name rest => cases hnode

theorem Filed.addRecords (h : Filed q.columns plan s) (hroot : s.root ∈ s.catalog.tables)
    (htrail : plan.Trail s .forProjection hops path tableAlias table)
    (hnames : ∀ n ∈ (hops.map (·.relation.name)).dropLast, n ≠ "") : Filed (q.addRecords hops).columns plan s :=
  Filed.linksOf h (declared_hop hroot htrail hnames)

theorem Filed.addField {column : Column} (h : Filed q.columns plan s) (hroot : s.root ∈ s.catalog.tables)
    (htrail : plan.Trail s .forProjection hops path tableAlias table)
    (hcolumn : table.column? column.name = some column)
    (hnames : ∀ n ∈ (hops.map (·.relation.name)).dropLast, n ≠ "") :
    Filed (q.addField hops tableAlias column).columns plan s :=
  (h.addRecords hroot htrail hnames).slot (q := (q.linksOf hops).2)
    ⟨_, table, column, hnames, ⟨hops, path, htrail, rfl⟩, hcolumn, rfl⟩

theorem Keyed.addRecords (h : q.Keyed s) (htrail : plan.Trail s .forProjection hops path tableAlias table)
    (hnames : ∀ n ∈ (hops.map (·.relation.name)).dropLast, n ≠ "") : (q.addRecords hops).Keyed s :=
  h.grow (fun _ => rfl) (fun _ => ⟨rfl, rfl⟩) (fun _ => List.prefix_rfl) (shape_addRecords q hops) htrail hnames

theorem Keyed.addField (column : Column) (h : q.Keyed s)
    (htrail : plan.Trail s .forProjection hops path tableAlias table)
    (hnames : ∀ n ∈ (hops.map (·.relation.name)).dropLast, n ≠ "") : (q.addField hops tableAlias column).Keyed s := by
  refine h.grow (Shape.addsFields_addField _ _).relations (fun node => ?_) (fun node => ?_)
    (shape_addField q hops tableAlias column) htrail hnames
  · unfold Shape.addField
    split <;> exact ⟨rfl, rfl⟩
  · unfold Shape.addField
    split
    · exact List.prefix_rfl
    · exact List.prefix_append _ _

/-- What every step keeps of the select list and the keys. -/
theorem Adds.filed {a b : Projection × JoinPlan} (hdistinct : s.catalog.Distinct) (hroot : s.root ∈ s.catalog.tables)
    (hadds : Adds s (· ≠ "") a b) (hfiled : Filed a.1.columns a.2 s) (hkeyed : a.1.Keyed s) :
    Filed b.1.columns b.2 s ∧ b.1.Keyed s := by
  have hlast {hops : List Hop} (hok : ∀ hop ∈ hops, hop.relation.name ≠ "") :
      ∀ n ∈ (hops.map (·.relation.name)).dropLast, n ≠ "" := by
    intro n hn
    obtain ⟨hop, hhop, rfl⟩ := List.mem_map.mp (List.dropLast_subset _ hn)
    exact hok hop hhop
  cases hadds with
  | joins hcrosses =>
    exact ⟨⟨hfiled.distinct, fun c hc => (hfiled.declared c hc).mono hcrosses.gains.toExtends⟩, hkeyed⟩
  | field htrail hok hcolumn =>
    exact ⟨hfiled.addField hroot htrail hcolumn (hlast hok), hkeyed.addField _ htrail (hlast hok)⟩
  | records htrail hok =>
    exact ⟨hfiled.addRecords hroot htrail (hlast hok), hkeyed.addRecords htrail (hlast hok)⟩
  | @related q plan hops _ _ _ hop htrail hok hr ht hpath hstands =>
    have hrelation := Catalog.relation?_name (hdistinct _ (htrail.mem hroot)) hr
    have htrail' := htrail.step hrelation ht hpath hstands
    -- a relation that a star stands for may have the empty name
    have hnames : ∀ n ∈ ((hops ++ [hop]).map (·.relation.name)).dropLast, n ≠ "" := by
      intro n hn
      rw [List.map_append, List.map_singleton, List.dropLast_concat] at hn
      obtain ⟨other, hother, rfl⟩ := List.mem_map.mp hn
      exact hok other hother
    exact ⟨hfiled.addRecords hroot htrail' hnames, hkeyed.addRecords htrail' hnames⟩
  | deferred => exact ⟨hfiled, hkeyed⟩

theorem Builds.filed {a b : Projection × JoinPlan} (hdistinct : s.catalog.Distinct) (hroot : s.root ∈ s.catalog.tables)
    (hbuilds : Builds s (· ≠ "") a b) (hfiled : Filed a.1.columns a.2 s) (hkeyed : a.1.Keyed s) :
    Filed b.1.columns b.2 s ∧ b.1.Keyed s := by
  induction hbuilds with
  | refl => exact ⟨hfiled, hkeyed⟩
  | tail _ hadds ih => exact hadds.filed hdistinct hroot ih.1 ih.2

/-! ### Agreement -/

/-- A place of the select list has the column of the name of a table, under the alias and in its declared type. -/
def Reads (columns : List SelectColumn) (slot : Nat) (tableAlias : String) (t : Table) (name : String) : Prop :=
  ∃ column, t.column? name = some column ∧ columns[slot]? = some ⟨⟨tableAlias, name⟩, column.type⟩

/-- The records at the end of a chain are read from the columns of the table there, under the alias of the chain, the
key first; their relations are relations of the table, and none has the name of a field. -/
structure Agrees (columns : List SelectColumn) (plan : JoinPlan) (s : Setting) (chain : List String) (node : Shape) :
    Prop where
  reads : ∃ t tableAlias, s.tableAt? chain = some t ∧ plan.aliasAt? chain = some tableAlias ∧
    node.keyName = t.primaryKey ∧ Reads columns node.keySlot tableAlias t t.primaryKey ∧
    node.fields.head? = some ⟨node.keyName, node.keySlot⟩ ∧
    (∀ f ∈ node.fields, Reads columns f.slot tableAlias t f.name) ∧
    ∀ b ∈ node.relations, ∃ r, t.relation? b.name = some r ∧ b.many = r.isMany
  distinct : (node.relations.map (·.name)).Nodup
  apart : ∀ b ∈ node.relations, ∀ f ∈ node.fields, b.name ≠ f.name

/-- The link has a place of its own below records that have its key, in the type that the link says. -/
def Attached (q : Projection) (l : DeferredLink) : Prop :=
  q.shape.isJoined l.parentChain l.name = false ∧ ∃ node f column, q.shape.at? l.parentChain = some node ∧
    f ∈ node.fields ∧ f.name = l.parentField ∧ q.columns[f.slot]? = some column ∧ column.type = l.parentType

/-- A selected column under the alias of a chain is the one that the table there declares. -/
theorem Filed.reads {chain : List String} {slot : Nat} {name : String} (h : Filed q.columns plan s)
    (hclear : plan.Clear s) (hlocated : plan.Located s .forProjection chain tableAlias table)
    (hchain : ∀ n ∈ chain.dropLast, n ≠ "") (hselects : q.Selects slot ⟨tableAlias, name⟩) :
    Reads q.columns slot tableAlias table name := by
  obtain ⟨c, hc, href⟩ := Option.map_eq_some_iff.mp hselects
  obtain ⟨chain', table', column, hchain', hlocated', hcolumn, htype⟩ := h.declared c (List.mem_of_getElem? hc)
  rw [href] at hlocated' hcolumn
  obtain rfl := hlocated.eq_chain hclear hlocated' hchain hchain'
  obtain ⟨-, rfl⟩ := hlocated.unique hclear.regular hlocated'
  refine ⟨column, hcolumn, ?_⟩
  rw [hc, ← href, ← htype]

theorem Sound.agrees {chain : List String} {node : Shape} (h : q.Sound plan s) (hclear : plan.Clear s)
    (hplain : q.Plain) (hfiled : Filed q.columns plan s) (hkeyed : q.Keyed s)
    (hnode : q.shape.at? chain = some node) : Agrees q.columns plan s chain node := by
  obtain ⟨hchain, t, ht, hkeyName, hhead⟩ := hkeyed chain node hnode
  have hkey : ⟨node.keyName, node.keySlot⟩ ∈ node.fields := List.mem_of_head? hhead
  -- the key is a field too, and says what table is at the end of the chain
  obtain ⟨tableAlias, table, hlocated, -⟩ := h.shape.fields chain node hnode _ hkey
  obtain rfl : table = t := Option.some.inj (hlocated.tableAt?.symm.trans ht)
  have hfields : ∀ f ∈ node.fields, Reads q.columns f.slot tableAlias table f.name := by
    intro f hf
    obtain ⟨tableAlias', table', hlocated', hselects⟩ := h.shape.fields chain node hnode f hf
    obtain ⟨rfl, rfl⟩ := hlocated.unique hclear.regular hlocated'
    exact hfiled.reads hclear hlocated hchain hselects
  have hown := hplain node (Shape.mem_nodes_of_at? hnode)
  have hrelations : ∀ b ∈ node.relations, ∃ r, table.relation? b.name = some r ∧ b.many = r.isMany := by
    intro b hb
    obtain ⟨tableAlias', table', r, hlocated', hr, hmany⟩ :=
      h.shape.branches chain node b.name b hnode (Catalog.find?_name hown.relations hb)
    obtain ⟨-, rfl⟩ := hlocated.unique hclear.regular hlocated'
    exact ⟨r, hr, hmany⟩
  refine ⟨⟨table, tableAlias, ht, hlocated.aliasAt? hclear.regular, hkeyName, hkeyName ▸ hfields _ hkey, hhead, hfields,
    hrelations⟩, hown.relations, fun b hb f hf heq => ?_⟩
  -- a table has no column and relation of one name
  obtain ⟨r, hr, -⟩ := hrelations b hb
  obtain ⟨column, hcolumn, -⟩ := hfields f hf
  have hnone := Catalog.column?_relation (hlocated.mem hclear.mem) (Catalog.mem_of_relation? hr)
  rw [Catalog.name_of_relation? hr, heq, hcolumn] at hnone
  cases hnone

/-- Deferred links that are kept have chains of their own, none of which is joined. -/
theorem keepDeferred_distinct (shape : Shape) : ∀ (kept links : List DeferredLink),
    (kept.map (·.chain)).Nodup → (∀ l ∈ kept, shape.isJoined l.parentChain l.name = false) →
      ((keepDeferred shape kept links).map (·.chain)).Nodup ∧
        ∀ l ∈ keepDeferred shape kept links, shape.isJoined l.parentChain l.name = false
  | kept, [], hkept, hjoined => ⟨hkept, hjoined⟩
  | kept, l :: rest, hkept, hjoined => by
    rw [keepDeferred]
    split
    · exact keepDeferred_distinct shape kept rest hkept hjoined
    · rename_i hnew
      rw [Bool.or_eq_true, not_or, Bool.not_eq_true, Bool.not_eq_true] at hnew
      refine keepDeferred_distinct shape (kept ++ [l]) rest ?_ fun l' hl' => ?_
      · rw [List.map_append, List.nodup_append]
        refine ⟨hkept, List.nodup_singleton _, fun other hother added hadded heq => ?_⟩
        obtain ⟨l', hl', rfl⟩ := List.mem_map.mp hother
        rw [List.map_singleton, List.mem_singleton] at hadded
        have hsame := List.any_eq_false.mp hnew.1 l' hl'
        simp [heq, hadded] at hsame
      · rcases List.mem_append.mp hl' with hl' | hl'
        · exact hjoined l' hl'
        · exact List.mem_singleton.mp hl' ▸ hnew.2

theorem Charted.attached {l : DeferredLink} (h : q.Charted s) (hl : l ∈ q.deferred)
    (hagrees : ∀ chain node, q.shape.at? chain = some node → Agrees q.columns plan s chain node)
    (hjoined : q.shape.isJoined l.parentChain l.name = false) : q.Attached l := by
  obtain ⟨t, r, target, ht, -, -, -, hlink, node, hnode, hkey⟩ := h.deferred l hl
  obtain ⟨f, hf, hname⟩ := List.mem_map.mp hkey
  obtain ⟨t', tableAlias, ht', -, -, -, -, hfields, -⟩ := (hagrees _ node hnode).reads
  obtain rfl : t' = t := Option.some.inj (ht'.symm.trans ht)
  obtain ⟨column, hcolumn, hselected⟩ := hfields f hf
  refine ⟨hjoined, node, f, _, hnode, hf, hname.trans (congrArg DeferredLink.parentField hlink).symm, hselected, ?_⟩
  rw [hname] at hcolumn
  rw [hlink, DeferredLink.ofRelation, hcolumn]
  rfl

end Projection

/-! ### Field lists -/

theorem Path.segment_ne_empty {fields : List String} {path : Path}
    (h : path ∈ Projection.fieldPaths (Path.listOf fields)) :
    ∀ name ∈ path.segments, name ≠ "" := by
  unfold Projection.fieldPaths at h
  split at h
  · rw [List.mem_singleton.mp h]
    simp
  · obtain ⟨text, -, rfl⟩ := List.mem_map.mp h
    exact fun name hname => (Text.mem_pieces hname).1.ne_empty

/-- Select list and shape of a field list agree, whatever it says and in whatever order, if relation names are unique in
their tables and have no dots. No column is selected twice. The records at the end of each chain of relations are read
from columns of the table there, under the alias of the chain and in their declared types, the key first; their
relations have names of their own and are to one or to many as the table says. No two deferred links have one place,
none is joined, and each has its key among the fields of its parents. -/
theorem Projection.ofFields_agrees {catalog : Catalog} {table : String} {options : CompileOptions} {s : Setting}
    {fields : List String} {d : Draft} {q : Projection} (hdistinct : catalog.Distinct) (hdots : catalog.Dotless)
    (hsetting : FindPlan.setting catalog table options = .ok s)
    (h : ofFields s (Path.listOf fields) ⟨.start options.rootAlias, []⟩ = .ok (q, d)) :
    (q.columns.map (·.ref)).Nodup ∧
      (∀ chain node, q.shape.at? chain = some node → Agrees q.columns d.plan s chain node) ∧
      (q.deferred.map fun l => (l.parentChain, l.name)).Nodup ∧ ∀ l ∈ q.deferred, q.Attached l := by
  obtain ⟨hcheck, root, htable, rfl⟩ := FindPlan.setting_eq_ok.mp hsetting
  have hmem : root ∈ catalog.tables := Catalog.mem_of_table? htable
  have hstart := JoinPlan.regular_start options.rootAlias
  obtain ⟨q₁, hadd, rfl⟩ := ofFields_eq_ok.mp h
  obtain ⟨hp, hbuilds⟩ := addPaths_builds hmem hstart (fun _ => Path.segment_ne_empty) hadd
  obtain ⟨-, hext, hsound, -, -⟩ := addPaths_shows hdistinct hmem hstart (sound_start _ _) hadd
  have hclear : d.plan.Clear ⟨catalog, root, options⟩ :=
    ⟨hdots, hmem, CompileOptions.aliasFault?_of_check hcheck, hext.root, hp⟩
  have hbare : (start options.rootAlias root).Plain := Shape.plain_ofKey root.primaryKey 0
  have hplain := hbare.addPaths hadd
  obtain ⟨hfiled, hkeyed⟩ := hbuilds.filed hdistinct hmem (filed_start hmem) (keyed_start _)
  have hagrees : ∀ chain node, q₁.shape.at? chain = some node →
      Agrees q₁.columns d.plan ⟨catalog, root, options⟩ chain node :=
    fun chain node hnode => hsound.agrees hclear hplain hfiled hkeyed hnode
  have hcharted := hbuilds.charted (charted_start _ _)
  obtain ⟨hchains, hjoined⟩ := keepDeferred_distinct q₁.shape [] q₁.deferred List.nodup_nil fun l hl =>
    absurd hl List.not_mem_nil
  refine ⟨hfiled.distinct, hagrees, ?_, fun l hl => ?_⟩
  · refine List.Nodup.of_map (fun place : List String × String => place.1 ++ [place.2]) ?_
    rw [List.map_map]
    exact hchains
  · have hmember := (subset_keepDeferred q₁.shape [] q₁.deferred).2 hl
    exact hcharted.attached hmember hagrees (hjoined l hl)

theorem ofFields_agrees_blog : ∃ q d,
    Projection.ofFields .blog (Path.listOf ["*, author.*", "tags"]) ⟨.start CompileOptions.standard.rootAlias, []⟩ =
        .ok (q, d) ∧
      (q.columns.map (·.ref)).Nodup ∧
      (∀ chain node, q.shape.at? chain = some node → Projection.Agrees q.columns d.plan .blog chain node) ∧
      (∀ l ∈ q.deferred, q.Attached l) ∧ q.deferred.map (·.path) = ["author.posts"] := by
  have hdistinct : Catalog.blog.Distinct := by
    unfold Catalog.Distinct
    decide +kernel
  have hdots : Catalog.blog.Dotless := by
    unfold Catalog.Dotless
    decide +kernel
  obtain ⟨⟨q, d⟩, h⟩ := exists_eq_ok (x := Projection.ofFields .blog (Path.listOf ["*, author.*", "tags"])
    ⟨.start CompileOptions.standard.rootAlias, []⟩) (by decide +kernel)
  have hpaths : (Projection.ofFields .blog (Path.listOf ["*, author.*", "tags"])
      ⟨.start CompileOptions.standard.rootAlias, []⟩).toOption.map (·.1.deferred.map (·.path)) =
        some ["author.posts"] := by
    decide +kernel
  rw [h] at hpaths
  obtain ⟨hcolumns, hagrees, -, hattached⟩ :=
    Projection.ofFields_agrees hdistinct hdots FindPlan.setting_blog h
  exact ⟨q, d, h, hcolumns, hagrees, hattached, Option.some.inj hpaths⟩

end RecordService
