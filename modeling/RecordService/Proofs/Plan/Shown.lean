import Mathlib.Data.List.Forall2
import RecordService.Proofs.Plan.Needed
import RecordService.Proofs.Plan.Shapes

/-! # What a projection shows

While the paths of a field list are added, the projection only grows (`Projection.Grows`), and all that it has is of the
catalog (`Projection.Sound`): a field is read from the column of its name of the table at its chain of relations, under
the alias that stands for the chain. In the end it shows every path that is not dropped
(`Projection.ofFields_shows`). -/

namespace RecordService
open JoinPlan (Gains Trail)

/-- No two relations of a table have one name. -/
def Catalog.Distinct (catalog : Catalog) : Prop :=
  ∀ t ∈ catalog.tables, (t.relations.map (·.name)).Nodup

/-- A chain of relation names leads to the table, which is joined for the usage and known by the alias. -/
def JoinPlan.Located (p : JoinPlan) (s : Setting) (u : Usage) (chain : List String) (tableAlias : String)
    (table : Table) : Prop :=
  ∃ hops path, p.Trail s u hops path tableAlias table ∧ hops.map (·.relation.name) = chain

namespace JoinPlan.Located

variable {p p' : JoinPlan} {s : Setting} {u : Usage} {chain : List String} {tableAlias tableAlias' : String}
  {table table' : Table}

theorem mono (h : p.Located s u chain tableAlias table) (hext : p.Extends p') :
    p'.Located s u chain tableAlias table := by
  obtain ⟨hops, path, htrail, hnames⟩ := h
  exact ⟨hops, path, htrail.mono hext, hnames⟩

theorem unique (hp : p.Regular) (h : p.Located s u chain tableAlias table)
    (h' : p.Located s u chain tableAlias' table') : tableAlias = tableAlias' ∧ table = table' := by
  obtain ⟨hops, path, htrail, hnames⟩ := h
  obtain ⟨hops', path', htrail', hnames'⟩ := h'
  obtain ⟨-, halias, htable⟩ := htrail.unique hp htrail' (hnames.trans hnames'.symm)
  exact ⟨halias, htable⟩

theorem mem (h : p.Located s u chain tableAlias table) (hroot : s.root ∈ s.catalog.tables) :
    table ∈ s.catalog.tables := by
  obtain ⟨hops, path, htrail, -⟩ := h
  cases htrail with
  | root => exact hroot
  | step _ _ ht _ _ => exact Catalog.mem_of_target? ht

end JoinPlan.Located

/-! ### Projections -/

namespace Projection

/-- The cells at a place are those of the column. -/
def Selects (q : Projection) (place : Nat) (ref : Sql.ColumnRef) : Prop :=
  (q.columns[place]?).map (·.ref) = some ref

/-- A field of the records at the end of a chain is read from the column of its name. -/
def FieldFits (q : Projection) (plan : JoinPlan) (s : Setting) (chain : List String) (f : FieldSlot) : Prop :=
  ∃ tableAlias table, plan.Located s .forProjection chain tableAlias table ∧ q.Selects f.slot ⟨tableAlias, f.name⟩

/-- A relation of the records at the end of a chain is one of their table. -/
def RelationFits (plan : JoinPlan) (s : Setting) (chain : List String) (name : String) (many : Bool) : Prop :=
  ∃ tableAlias table r, plan.Located s .forProjection chain tableAlias table ∧ table.relation? name = some r ∧
    many = r.isMany

/-- A link is that of a to-many relation of the table at its chain. -/
def LinkFits (plan : JoinPlan) (s : Setting) (l : DeferredLink) : Prop :=
  ∃ tableAlias table r target, plan.Located s .forProjection l.parentChain tableAlias table ∧
    table.relation? r.name = some r ∧ s.catalog.target? r = some target ∧ r.isMany = true ∧
    l = .ofRelation l.parentChain table r target

/-- All that the projection has is of the catalog. -/
structure Sound (q : Projection) (plan : JoinPlan) (s : Setting) : Prop where
  shape : q.shape.Every (q.FieldFits plan s) (RelationFits plan s)
  deferred : ∀ l ∈ q.deferred, LinkFits plan s l

/-- The other projection has all that the one has. -/
structure Grows (q q' : Projection) : Prop where
  columns : q.columns <+: q'.columns
  shape : q.shape.Within q'.shape
  deferred : q.deferred ⊆ q'.deferred

variable {q q' q'' : Projection} {plan plan' : JoinPlan} {s : Setting} {chain : List String}

theorem Grows.refl (q : Projection) : q.Grows q :=
  ⟨List.prefix_rfl, .refl _, fun _ h => h⟩

theorem Grows.trans (h : q.Grows q') (h' : q'.Grows q'') : q.Grows q'' :=
  ⟨h.columns.trans h'.columns, h.shape.trans h'.shape, fun _ hl => h'.deferred (h.deferred hl)⟩

theorem Selects.mono {place : Nat} {ref : Sql.ColumnRef} (h : q.Selects place ref) (hcols : q.columns <+: q'.columns) :
    q'.Selects place ref := by
  obtain ⟨c, hc, rfl⟩ := Option.map_eq_some_iff.mp h
  obtain ⟨more, hmore⟩ := hcols
  obtain ⟨hlt, -⟩ := List.getElem?_eq_some_iff.mp hc
  rw [Selects, ← hmore, List.getElem?_append_left hlt, hc, Option.map_some]

theorem FieldFits.mono {f : FieldSlot} (h : q.FieldFits plan s chain f) (hcols : q.columns <+: q'.columns)
    (hext : plan.Extends plan') : q'.FieldFits plan' s chain f := by
  obtain ⟨tableAlias, table, hlocated, hselects⟩ := h
  exact ⟨tableAlias, table, hlocated.mono hext, hselects.mono hcols⟩

theorem RelationFits.mono {name : String} {many : Bool} (h : RelationFits plan s chain name many)
    (hext : plan.Extends plan') : RelationFits plan' s chain name many := by
  obtain ⟨tableAlias, table, r, hlocated, hr⟩ := h
  exact ⟨tableAlias, table, r, hlocated.mono hext, hr⟩

theorem LinkFits.mono {l : DeferredLink} (h : LinkFits plan s l) (hext : plan.Extends plan') : LinkFits plan' s l := by
  obtain ⟨tableAlias, table, r, target, hlocated, hr⟩ := h
  exact ⟨tableAlias, table, r, target, hlocated.mono hext, hr⟩

theorem Sound.mono (h : q.Sound plan s) (hext : plan.Extends plan') : q.Sound plan' s :=
  ⟨h.shape.imp (fun _ _ hf => hf.mono List.prefix_rfl hext) fun _ _ _ hr => hr.mono hext,
    fun l hl => (h.deferred l hl).mono hext⟩

/-! ### Selecting -/

theorem slot_spec (q : Projection) (ref : Sql.ColumnRef) (type : ScalarType) :
    q.columns <+: (q.slot ref type).2.columns ∧ (q.slot ref type).2.Selects (q.slot ref type).1 ref ∧
      (q.slot ref type).2.shape = q.shape ∧ (q.slot ref type).2.deferred = q.deferred := by
  unfold slot
  split
  · rename_i place hplace
    obtain ⟨hlt, href, -⟩ := List.findIdx?_eq_some_iff_getElem.mp hplace
    refine ⟨List.prefix_rfl, ?_, rfl, rfl⟩
    rw [Selects, List.getElem?_eq_getElem hlt, Option.map_some, beq_iff_eq.mp href]
  · refine ⟨List.prefix_append _ _, ?_, rfl, rfl⟩
    rw [Selects, List.getElem?_concat_length]
    rfl

/-- The link is that of the hop, and its key is selected. -/
structure Linked (q : Projection) (hop : Hop) (link : ShapeLink) : Prop where
  name : link.name = hop.relation.name
  many : link.many = hop.relation.isMany
  key : q.Selects link.keySlot ⟨hop.tableAlias, link.keyName⟩

theorem Linked.mono {hop : Hop} {link : ShapeLink} (h : q.Linked hop link) (hcols : q.columns <+: q'.columns) :
    q'.Linked hop link :=
  ⟨h.name, h.many, h.key.mono hcols⟩

theorem linksOf_spec : ∀ (hops : List Hop) (q : Projection),
    q.columns <+: (q.linksOf hops).2.columns ∧ List.Forall₂ (q.linksOf hops).2.Linked hops (q.linksOf hops).1 ∧
      (q.linksOf hops).2.shape = q.shape ∧ (q.linksOf hops).2.deferred = q.deferred
  | [], q => ⟨List.prefix_rfl, .nil, rfl, rfl⟩
  | hop :: rest, q => by
    obtain ⟨hcols, hkey, hshape, hdeferred⟩ :=
      q.slot_spec ⟨hop.tableAlias, hop.target.primaryKey⟩ hop.target.primaryType
    obtain ⟨hcols', hlinked, hshape', hdeferred'⟩ :=
      linksOf_spec rest (q.slot ⟨hop.tableAlias, hop.target.primaryKey⟩ hop.target.primaryType).2
    exact ⟨hcols.trans hcols', .cons ⟨rfl, rfl, hkey.mono hcols'⟩ hlinked, hshape'.trans hshape,
      hdeferred'.trans hdeferred⟩

theorem names_of_linked {hops : List Hop} {links : List ShapeLink} (h : List.Forall₂ q.Linked hops links) :
    links.map (·.name) = hops.map (·.relation.name) := by
  induction h with
  | nil => rfl
  | cons hlinked _ ih => rw [List.map_cons, List.map_cons, ih, hlinked.name]

/-! ### Growing -/

variable {hops : List Hop} {path tableAlias : String} {table : Table}

/-- A shape that grows along hops, with fields added at their end, stays sound. -/
theorem Sound.grow {change : Shape → Shape} {added : List FieldSlot} {links : List ShapeLink} (h : q.Sound plan s)
    (hcols : q.columns <+: q'.columns) (hshape : q'.shape = q.shape.grow change links)
    (hdeferred : q'.deferred = q.deferred) (hlinked : List.Forall₂ q'.Linked hops links)
    (hchange : Shape.AddsFields change added) (htrail : plan.Trail s .forProjection hops path tableAlias table)
    (hadded : ∀ f ∈ added, q'.Selects f.slot ⟨tableAlias, f.name⟩) : q'.Sound plan s := by
  refine ⟨?_, hdeferred ▸ h.deferred⟩
  have hold : q.shape.Every (q'.FieldFits plan s) (RelationFits plan s) :=
    h.shape.imp (fun _ _ hf => hf.mono hcols (.refl plan)) fun _ _ _ hr => hr
  rw [hshape]
  refine Shape.every_grow hchange hold (fun before link after hlinks => ?_) fun f hf => ?_
  · -- The hop of a link is passed by the trail.
    subst hlinks
    have hbefore := List.forall₂_take_append hops before (link :: after) hlinked
    have hrest := List.forall₂_drop_append hops before (link :: after) hlinked
    have hsplit := (List.take_append_drop before.length hops).symm
    generalize hops.take before.length = passed at hbefore hsplit
    generalize hops.drop before.length = ahead at hrest hsplit
    cases hrest with
    | @cons hop _ more _ hhop _ =>
      obtain ⟨path', tableAlias', table', htrail', hr, hnext⟩ := htrail.split hsplit
      rw [names_of_linked hbefore, hhop.name]
      refine ⟨⟨tableAlias', table', hop.relation, ⟨passed, path', htrail', rfl⟩, hr, hhop.many⟩, hop.tableAlias,
        hop.target, ⟨_, _, hnext, ?_⟩, hhop.key⟩
      rw [List.map_append, List.map_singleton]
  · rw [names_of_linked hlinked]
    exact ⟨tableAlias, table, ⟨hops, path, htrail, rfl⟩, hadded f hf⟩

/-- The projection has a field of the name for the records at the end of the chain, read from that column of their
table. -/
def ShowsField (q : Projection) (plan : JoinPlan) (s : Setting) (chain : List String) (name : String) : Prop :=
  ∃ node, q.shape.at? chain = some node ∧ ∃ f ∈ node.fields, f.name = name ∧ q.FieldFits plan s chain f

/-- The projection has a relation of the name, to one or to many, for the records at the end of the chain. -/
def ShowsRelation (q : Projection) (chain : List String) (name : String) (many : Bool) : Prop :=
  ∃ node b, q.shape.at? chain = some node ∧ node.branch? name = some b ∧ b.many = many

theorem ShowsField.mono {name : String} (h : q.ShowsField plan s chain name) (hgrows : q.Grows q')
    (hext : plan.Extends plan') : q'.ShowsField plan' s chain name := by
  obtain ⟨node, hnode, f, hf, hname, hfits⟩ := h
  obtain ⟨node', hnode', hsub⟩ := hgrows.shape.fields chain node hnode
  exact ⟨node', hnode', f, hsub hf, hname, hfits.mono hgrows.columns hext⟩

theorem ShowsRelation.mono {name : String} {many : Bool} (h : q.ShowsRelation chain name many) (hgrows : q.Grows q') :
    q'.ShowsRelation chain name many := by
  obtain ⟨node, b, hnode, hb, hmany⟩ := h
  obtain ⟨node', b', hnode', hb', hmany'⟩ := hgrows.shape.branches chain node name b hnode hb
  exact ⟨node', b', hnode', hb', hmany'.trans hmany⟩

/-- A relation that is there is to one or to many as the table says. -/
theorem Sound.showsRelation {node : Shape} {r : Relation} (h : q.Sound plan s) (hp : plan.Regular)
    (hlocated : plan.Located s .forProjection chain tableAlias table) (hr : table.relation? r.name = some r)
    (hnode : q.shape.at? (chain ++ [r.name]) = some node) : q.ShowsRelation chain r.name r.isMany := by
  obtain ⟨parent, b, hparent, hb⟩ := Shape.branch?_of_at? hnode
  obtain ⟨tableAlias', table', r', hlocated', hr', hmany⟩ := h.shape.branches chain parent r.name b hparent hb
  obtain ⟨-, rfl⟩ := hlocated.unique hp hlocated'
  rw [hr] at hr'
  cases hr'
  exact ⟨parent, b, hparent, hb, hmany⟩

theorem addRecords_spec (h : q.Sound plan s) (htrail : plan.Trail s .forProjection hops path tableAlias table) :
    (q.addRecords hops).Sound plan s ∧ q.Grows (q.addRecords hops) ∧
      ∃ node, (q.addRecords hops).shape.at? (hops.map (·.relation.name)) = some node := by
  obtain ⟨hcols, hlinked, hshape, hdeferred⟩ := linksOf_spec hops q
  have hgrown : (q.addRecords hops).shape = q.shape.grow id (q.linksOf hops).1 :=
    congrArg (Shape.grow id (q.linksOf hops).1) hshape
  have hlinked' : List.Forall₂ (q.addRecords hops).Linked hops (q.linksOf hops).1 :=
    hlinked.imp fun _ _ hlink => hlink.mono List.prefix_rfl
  refine ⟨h.grow hcols hgrown hdeferred hlinked' Shape.addsFields_id htrail fun f hf => absurd hf List.not_mem_nil,
    ⟨hcols, ?_, ?_⟩, ?_⟩
  · rw [hgrown]
    exact Shape.within_grow Shape.addsFields_id _ _
  · exact fun l hl => (congrArg (l ∈ ·) hdeferred).mpr hl
  · rw [hgrown, ← names_of_linked hlinked]
    obtain ⟨node, hnode⟩ := Shape.at?_grow id (q.linksOf hops).1 q.shape
    exact ⟨_, hnode⟩

theorem addField_spec (column : Column) (h : q.Sound plan s)
    (htrail : plan.Trail s .forProjection hops path tableAlias table) :
    (q.addField hops tableAlias column).Sound plan s ∧ q.Grows (q.addField hops tableAlias column) ∧
      (q.addField hops tableAlias column).ShowsField plan s (hops.map (·.relation.name)) column.name := by
  obtain ⟨hcols, hlinked, hshape, hdeferred⟩ := linksOf_spec hops q
  obtain ⟨hcols', hselects, hshape', hdeferred'⟩ :=
    (q.linksOf hops).2.slot_spec ⟨tableAlias, column.name⟩ column.type
  have hchange := Shape.addsFields_addField column.name
    ((q.linksOf hops).2.slot ⟨tableAlias, column.name⟩ column.type).1
  have hgrown : (q.addField hops tableAlias column).shape =
      q.shape.grow (Shape.addField column.name ((q.linksOf hops).2.slot ⟨tableAlias, column.name⟩ column.type).1)
        (q.linksOf hops).1 :=
    congrArg (Shape.grow _ (q.linksOf hops).1) (hshape'.trans hshape)
  have hlinked' : List.Forall₂ (q.addField hops tableAlias column).Linked hops (q.linksOf hops).1 :=
    hlinked.imp fun _ _ hlink => hlink.mono hcols'
  have hsound : (q.addField hops tableAlias column).Sound plan s := by
    refine h.grow (hcols.trans hcols') hgrown (hdeferred'.trans hdeferred) hlinked' hchange htrail fun f hf => ?_
    rw [List.mem_singleton.mp hf]
    exact hselects
  refine ⟨hsound, ⟨hcols.trans hcols', ?_, ?_⟩, ?_⟩
  · rw [hgrown]
    exact Shape.within_grow hchange _ _
  · exact fun l hl => (congrArg (l ∈ ·) (hdeferred'.trans hdeferred)).mpr hl
  · obtain ⟨node, hnode⟩ := Shape.at?_grow
      (Shape.addField column.name ((q.linksOf hops).2.slot ⟨tableAlias, column.name⟩ column.type).1)
      (q.linksOf hops).1 q.shape
    rw [← hgrown, names_of_linked hlinked] at hnode
    obtain ⟨f, hf, hname⟩ := Shape.mem_addField column.name
      ((q.linksOf hops).2.slot ⟨tableAlias, column.name⟩ column.type).1 node
    exact ⟨_, hnode, f, hf, hname, hsound.shape.fields _ _ hnode f hf⟩

/-! ### Everything -/

/-- The projection has all columns of the table at a chain, its to-one relations, and its to-many relations unless they
are links to be loaded. -/
structure ShowsAll (q : Projection) (plan : JoinPlan) (s : Setting) (chain : List String) (table : Table) : Prop where
  columns : ∀ c ∈ table.columns, q.ShowsField plan s chain c.name
  relations : ∀ r ∈ table.relations, q.ShowsRelation chain r.name r.isMany ∨
    r.isMany = true ∧ ∃ target, s.catalog.target? r = some target ∧ .ofRelation chain table r target ∈ q.deferred

theorem ShowsAll.mono (h : q.ShowsAll plan s chain table) (hgrows : q.Grows q') (hext : plan.Extends plan') :
    q'.ShowsAll plan' s chain table := by
  refine ⟨fun c hc => (h.columns c hc).mono hgrows hext, fun r hr => ?_⟩
  rcases h.relations r hr with hshows | ⟨hmany, target, ht, hlink⟩
  · exact Or.inl (hshows.mono hgrows)
  · exact Or.inr ⟨hmany, target, ht, hgrows.deferred hlink⟩

theorem addFields_spec (htrail : plan.Trail s .forProjection hops path tableAlias table) :
    ∀ (columns : List Column) {q : Projection}, q.Sound plan s →
      (columns.foldl (fun q column => q.addField hops tableAlias column) q).Sound plan s ∧
        q.Grows (columns.foldl (fun q column => q.addField hops tableAlias column) q) ∧
          ∀ c ∈ columns, (columns.foldl (fun q column => q.addField hops tableAlias column) q).ShowsField plan s
            (hops.map (·.relation.name)) c.name
  | [], q, h => ⟨h, .refl q, fun c hc => absurd hc List.not_mem_nil⟩
  | column :: rest, q, h => by
    rw [List.foldl_cons]
    obtain ⟨hsound, hgrows, hshows⟩ := addField_spec column h htrail
    obtain ⟨hsound', hgrows', hrest⟩ := addFields_spec htrail rest hsound
    refine ⟨hsound', hgrows.trans hgrows', fun c hc => ?_⟩
    rcases List.mem_cons.mp hc with rfl | hc
    · exact hshows.mono hgrows' (.refl plan)
    · exact hrest c hc

/-- A link of the catalog may be added. -/
theorem Sound.defer {l : DeferredLink} (h : q.Sound plan s) (hl : LinkFits plan s l) :
    ({ q with deferred := q.deferred ++ [l] } : Projection).Sound plan s ∧
      q.Grows { q with deferred := q.deferred ++ [l] } := by
  refine ⟨⟨h.shape, fun l' hl' => ?_⟩, List.prefix_rfl, .refl _, List.subset_append_left _ _⟩
  rcases List.mem_append.mp hl' with hl' | hl'
  · exact h.deferred l' hl'
  · rw [List.mem_singleton.mp hl']
    exact hl

theorem addRelations_shows (hnames : s.catalog.Distinct) (hroot : s.root ∈ s.catalog.tables) :
    ∀ {relations : List Relation} {q : Projection} {plan : JoinPlan}, plan.Regular → q.Sound plan s →
      plan.Trail s .forProjection hops path tableAlias table → (∀ r ∈ relations, r ∈ table.relations) →
        (addRelations s hops tableAlias path table relations q plan).1.Sound
            (addRelations s hops tableAlias path table relations q plan).2 s ∧
          q.Grows (addRelations s hops tableAlias path table relations q plan).1 ∧
          ∀ r ∈ relations,
            (addRelations s hops tableAlias path table relations q plan).1.ShowsRelation (hops.map (·.relation.name))
                r.name r.isMany ∨
              r.isMany = true ∧ ∃ target, s.catalog.target? r = some target ∧
                .ofRelation (hops.map (·.relation.name)) table r target ∈
                  (addRelations s hops tableAlias path table relations q plan).1.deferred
  | [], q, plan, _, h, _, _ => ⟨h, .refl q, fun r hr => absurd hr List.not_mem_nil⟩
  | r :: rest, q, plan, hp, h, htrail, hmem => by
    have hrest : ∀ r' ∈ rest, r' ∈ table.relations := fun r' h' => hmem r' (List.mem_cons_of_mem _ h')
    have hlocated : plan.Located s .forProjection (hops.map (·.relation.name)) tableAlias table :=
      ⟨hops, path, htrail, rfl⟩
    have htable := hlocated.mem hroot
    have hr : table.relation? r.name = some r :=
      Catalog.relation?_name (hnames table htable) (hmem r List.mem_cons_self)
    obtain ⟨target, ht⟩ := Option.isSome_iff_exists.mp (Catalog.target?_isSome htable (hmem r List.mem_cons_self))
    rw [addRelations, ht]
    cases hmany : r.isMany with
    | true =>
      simp only [if_true]
      have hlink : LinkFits plan s (.ofRelation (hops.map (·.relation.name)) table r target) :=
        ⟨tableAlias, table, r, target, hlocated, hr, ht, hmany, rfl⟩
      obtain ⟨hsound₁, hgrows₁⟩ := h.defer hlink
      obtain ⟨hsound, hgrows, hshows⟩ := addRelations_shows hnames hroot hp hsound₁ htrail hrest
      refine ⟨hsound, hgrows₁.trans hgrows, fun r' hr' => ?_⟩
      rcases List.mem_cons.mp hr' with rfl | hr'
      · exact Or.inr ⟨hmany, target, ht, hgrows.deferred (List.mem_append_right _ (List.mem_singleton.mpr rfl))⟩
      · exact hshows r' hr'
    | false =>
      simp only [Bool.false_eq_true, if_false]
      obtain ⟨-, hcrosses, htrail'⟩ := JoinPlan.cross_trail hp htrail hr ht
      have hgains := hcrosses.gains
      have hp' := hgains.regular hp
      obtain ⟨hsound₁, hgrows₁, node, hnode⟩ := addRecords_spec (h.mono hgains.toExtends) htrail'
      obtain ⟨hsound, hgrows, hshows⟩ :=
        addRelations_shows hnames hroot hp' hsound₁ (htrail.mono hgains.toExtends) hrest
      refine ⟨hsound, hgrows₁.trans hgrows, fun r' hr' => ?_⟩
      rcases List.mem_cons.mp hr' with rfl | hr'
      · rw [List.map_append] at hnode
        exact Or.inl ((hsound₁.showsRelation hp' (hlocated.mono hgains.toExtends) hr hnode).mono hgrows)
      · exact hshows r' hr'

theorem addAll_shows (hnames : s.catalog.Distinct) (hroot : s.root ∈ s.catalog.tables) (hp : plan.Regular)
    (h : q.Sound plan s) (htrail : plan.Trail s .forProjection hops path tableAlias table) :
    (addAll s hops tableAlias path table q plan).1.Sound (addAll s hops tableAlias path table q plan).2 s ∧
      q.Grows (addAll s hops tableAlias path table q plan).1 ∧
        (addAll s hops tableAlias path table q plan).1.ShowsAll (addAll s hops tableAlias path table q plan).2 s
          (hops.map (·.relation.name)) table := by
  obtain ⟨hsound₁, hgrows₁, hcolumns⟩ := addFields_spec htrail table.columns h
  obtain ⟨hsound₂, hgrows₂, -⟩ := addRecords_spec hsound₁ htrail
  obtain ⟨hsound, hgrows, hrelations⟩ := addRelations_shows hnames hroot hp hsound₂ htrail fun _ hr => hr
  have hext := (addAll_gains (s := s) hops tableAlias path table q plan).toExtends
  exact ⟨hsound, (hgrows₁.trans hgrows₂).trans hgrows,
    fun c hc => (hcolumns c hc).mono (hgrows₂.trans hgrows) hext, hrelations⟩

/-! ### Paths of the field list -/

/-- The projection has the column or relation that a walk ends in, for the records at the end of the chain. -/
def ShowsStep (q : Projection) (plan : JoinPlan) (s : Setting) (chain : List String) : Option PathStep → Prop
  | some (.column c) => q.ShowsField plan s chain c.name
  | some (.relation r _) => q.ShowsRelation chain r.name r.isMany
  | none => False

/-- The projection has what a path of the field list stands for, at its chain of relations. -/
def Shows (q : Projection) (plan : JoinPlan) (s : Setting) (path : Path) : Prop :=
  if path.isWildcard then
    ∃ tableAlias table, plan.Located s .forProjection path.parent.segments tableAlias table ∧
      q.ShowsAll plan s path.parent.segments table
  else q.ShowsStep plan s path.parent.segments ((walk s.catalog s.root path.segments).bind List.getLast?)

theorem ShowsStep.mono {step : Option PathStep} (h : q.ShowsStep plan s chain step) (hgrows : q.Grows q')
    (hext : plan.Extends plan') : q'.ShowsStep plan' s chain step := by
  match step, h with
  | some (.column _), h => exact ShowsField.mono h hgrows hext
  | some (.relation _ _), h => exact ShowsRelation.mono h hgrows

theorem Shows.mono {path : Path} (h : q.Shows plan s path) (hgrows : q.Grows q') (hext : plan.Extends plan') :
    q'.Shows plan' s path := by
  unfold Shows at h ⊢
  by_cases hw : path.isWildcard = true
  · rw [if_pos hw] at h ⊢
    obtain ⟨tableAlias, table, hlocated, hshows⟩ := h
    exact ⟨tableAlias, table, hlocated.mono hext, hshows.mono hgrows hext⟩
  · rw [if_neg hw] at h ⊢
    exact h.mono hgrows hext

/-- Adding a path keeps the projection sound, and the projection shows what the path stands for, unless it is dropped. -/
theorem Addition.shows {path : Path} (hnames : s.catalog.Distinct) (hroot : s.root ∈ s.catalog.tables)
    (hp : plan.Regular) (h : q.Sound plan s) (hadds : Addition s path q plan q' plan') :
    plan'.Regular ∧ plan.Extends plan' ∧ q'.Sound plan' s ∧ q.Grows q' ∧
      (s.losesField path = true ∨ q'.Shows plan' s path) := by
  cases hadds with
  | nothing hlost hcrosses =>
    have hgains := hcrosses.gains
    exact ⟨hgains.regular hp, hgains.toExtends, h.mono hgains.toExtends, .refl q, Or.inl hlost⟩
  | @everything plan₁ hops dotted tableAlias table _ hw hcrosses htrail hchain =>
    have hgains₁ := hcrosses.gains
    have hp₁ := hgains₁.regular hp
    have hgains := addAll_gains (s := s) hops tableAlias dotted table q plan₁
    obtain ⟨hsound, hgrows, hshows⟩ := addAll_shows hnames hroot hp₁ (h.mono hgains₁.toExtends) htrail
    refine ⟨hgains.regular hp₁, hgains₁.toExtends.trans hgains.toExtends, hsound, hgrows, Or.inr ?_⟩
    rw [Shows, if_pos hw, ← hchain]
    exact ⟨tableAlias, table, ⟨hops, dotted, htrail.mono hgains.toExtends, rfl⟩, hshows⟩
  | @field _ hops dotted tableAlias table c _ hw hcrosses htrail hchain _ hlast =>
    have hgains := hcrosses.gains
    obtain ⟨hsound, hgrows, hshows⟩ := addField_spec c (h.mono hgains.toExtends) htrail
    refine ⟨hgains.regular hp, hgains.toExtends, hsound, hgrows, Or.inr ?_⟩
    rw [Shows, hw, if_neg Bool.false_ne_true, Path.segments_parent hchain, hlast]
    exact hshows
  | @records _ hops dotted tableAlias table target hop _ hw hcrosses hbefore hr htrail hchain hlast =>
    have hgains := hcrosses.gains
    have hp' := hgains.regular hp
    obtain ⟨hsound, hgrows, node, hnode⟩ := addRecords_spec (h.mono hgains.toExtends) htrail
    refine ⟨hp', hgains.toExtends, hsound, hgrows, Or.inr ?_⟩
    rw [Shows, hw, if_neg Bool.false_ne_true, Path.segments_parent hchain, hlast]
    rw [List.map_append] at hnode
    exact hsound.showsRelation hp' ⟨hops, dotted, hbefore, rfl⟩ hr hnode

theorem addPaths_shows (hnames : s.catalog.Distinct) (hroot : s.root ∈ s.catalog.tables) :
    ∀ {fields : List Path} {q q' : Projection} {d d' : Draft}, d.plan.Regular → q.Sound d.plan s →
      addPaths s fields q d = .ok (q', d') →
        d'.plan.Regular ∧ d.plan.Extends d'.plan ∧ q'.Sound d'.plan s ∧ q.Grows q' ∧
          ∀ path ∈ fields, s.losesField path = true ∨ q'.Shows d'.plan s path
  | [], q, q', d, d', hp, h, hadd => by
    cases hadd
    exact ⟨hp, .refl _, h, .refl q, fun path hpath => absurd hpath List.not_mem_nil⟩
  | path :: rest, q, q', d, d', hp, h, hadd => by
    obtain ⟨⟨q₁, d₁⟩, hpath, hrest⟩ := bind_eq_ok.mp hadd
    obtain ⟨hp₁, hext₁, hsound₁, hgrows₁, hshows₁⟩ := (addPath_inv hp hpath).shows hnames hroot hp h
    obtain ⟨hp', hext', hsound', hgrows', hshows'⟩ := addPaths_shows hnames hroot hp₁ hsound₁ hrest
    refine ⟨hp', hext₁.trans hext', hsound', hgrows₁.trans hgrows', fun other hother => ?_⟩
    rcases List.mem_cons.mp hother with rfl | hother
    · exact hshows₁.imp_right fun hshows => hshows.mono hgrows' hext'
    · exact hshows' other hother

/-! ### Links -/

theorem subset_keepDeferred (shape : Shape) : ∀ (kept links : List DeferredLink),
    kept ⊆ keepDeferred shape kept links ∧ keepDeferred shape kept links ⊆ kept ++ links
  | kept, [] => ⟨fun _ h => h, List.subset_append_left _ _⟩
  | kept, l :: rest => by
    rw [keepDeferred]
    split
    · obtain ⟨hkept, hall⟩ := subset_keepDeferred shape kept rest
      exact ⟨hkept, fun l' hl' => by
        rcases List.mem_append.mp (hall hl') with hl' | hl'
        · exact List.mem_append_left _ hl'
        · exact List.mem_append_right _ (List.mem_cons_of_mem _ hl')⟩
    · obtain ⟨hkept, hall⟩ := subset_keepDeferred shape (kept ++ [l]) rest
      refine ⟨fun l' hl' => hkept (List.mem_append_left _ hl'), fun l' hl' => ?_⟩
      have hmem := hall hl'
      rwa [List.append_assoc, List.singleton_append] at hmem

/-- A link is kept, unless it is joined or one of the same chain is kept. -/
theorem keepDeferred_spec (shape : Shape) : ∀ (kept links : List DeferredLink), ∀ l ∈ links,
    shape.isJoined l.parentChain l.name = true ∨ ∃ l' ∈ keepDeferred shape kept links, l'.chain = l.chain
  | kept, [], l, hl => absurd hl List.not_mem_nil
  | kept, first :: rest, l, hl => by
    rw [keepDeferred]
    rcases List.mem_cons.mp hl with rfl | hl
    · split
      · rename_i hdropped
        rcases Bool.or_eq_true_iff.mp hdropped with hsame | hjoined
        · obtain ⟨l', hl', hchain⟩ := List.any_eq_true.mp hsame
          exact Or.inr ⟨l', (subset_keepDeferred shape kept rest).1 hl', beq_iff_eq.mp hchain⟩
        · exact Or.inl hjoined
      · have hmem : l ∈ kept ++ [l] := List.mem_append_right _ (List.mem_singleton.mpr rfl)
        exact Or.inr ⟨l, (subset_keepDeferred shape (kept ++ [l]) rest).1 hmem, rfl⟩
    · split
      · exact keepDeferred_spec shape kept rest l hl
      · exact keepDeferred_spec shape (kept ++ [first]) rest l hl

/-- Links of one chain are one link. -/
theorem LinkFits.unique {l l' : DeferredLink} (hp : plan.Regular) (h : LinkFits plan s l) (h' : LinkFits plan s l')
    (hchain : l'.chain = l.chain) : l' = l := by
  obtain ⟨tableAlias, table, r, target, hlocated, hr, ht, -, hl⟩ := h
  obtain ⟨tableAlias', table', r', target', hlocated', hr', ht', -, hl'⟩ := h'
  obtain ⟨hparent, hname⟩ := List.append_inj' hchain rfl
  rw [hparent] at hlocated' hl'
  obtain ⟨-, rfl⟩ := hlocated.unique hp hlocated'
  have hnames : l'.name = l.name := List.head_eq_of_cons_eq hname
  rw [hl, hl'] at hnames
  have hrelation : r'.name = r.name := hnames
  rw [hrelation, hr] at hr'
  cases hr'
  rw [ht] at ht'
  cases ht'
  rw [hl, hl']

/-- A link whose relation is joined is a to-many relation of the shape. -/
theorem Sound.showsJoined {l : DeferredLink} (hp : plan.Regular) (h : q.Sound plan s) (hl : LinkFits plan s l)
    (hjoined : q.shape.isJoined l.parentChain l.name = true) : q.ShowsRelation l.parentChain l.name true := by
  obtain ⟨below, hbelow⟩ := Option.isSome_iff_exists.mp hjoined
  obtain ⟨parent, hparent, hbranch⟩ := Option.bind_eq_some_iff.mp hbelow
  obtain ⟨b, hb, -⟩ := Option.map_eq_some_iff.mp hbranch
  obtain ⟨tableAlias, table, r, hlocated, hr, hmany⟩ := h.shape.branches l.parentChain parent l.name b hparent hb
  obtain ⟨tableAlias', table', r', target, hlocated', hr', -, hmany', heq⟩ := hl
  obtain ⟨-, rfl⟩ := hlocated.unique hp hlocated'
  have hname : l.name = r'.name := congrArg DeferredLink.name heq
  rw [hname, hr'] at hr
  cases hr
  exact ⟨parent, b, hparent, hb, hmany.trans hmany'⟩

/-- What the links that are not kept stand for is joined. -/
theorem ShowsAll.keepDeferred {chain : List String} {table : Table} (hp : plan.Regular) (h : q.Sound plan s)
    (hshows : q.ShowsAll plan s chain table) :
    ({ q with deferred := Projection.keepDeferred q.shape [] q.deferred } : Projection).ShowsAll plan s chain
      table := by
  refine ⟨hshows.columns, fun r hr => ?_⟩
  rcases hshows.relations r hr with hrelation | ⟨hmany, target, ht, hlink⟩
  · exact Or.inl hrelation
  · have hfits := h.deferred _ hlink
    rcases keepDeferred_spec q.shape [] q.deferred _ hlink with hjoined | ⟨l', hl', hchain⟩
    · rw [hmany]
      exact Or.inl (h.showsJoined hp hfits hjoined)
    · have hl'' : l' ∈ q.deferred := (subset_keepDeferred q.shape [] q.deferred).2 hl'
      rw [hfits.unique hp (h.deferred l' hl'') hchain] at hl'
      exact Or.inr ⟨hmany, target, ht, hl'⟩

theorem Shows.keepDeferred {path : Path} (hp : plan.Regular) (h : q.Sound plan s) (hshows : q.Shows plan s path) :
    ({ q with deferred := Projection.keepDeferred q.shape [] q.deferred } : Projection).Shows plan s path := by
  unfold Shows at hshows ⊢
  by_cases hw : path.isWildcard = true
  · rw [if_pos hw] at hshows ⊢
    obtain ⟨tableAlias, table, hlocated, hall⟩ := hshows
    exact ⟨tableAlias, table, hlocated, hall.keepDeferred hp h⟩
  · rw [if_neg hw] at hshows ⊢
    match (walk s.catalog s.root path.segments).bind List.getLast?, hshows with
    | some (.column _), hshows => exact hshows
    | some (.relation _ _), hshows => exact hshows

theorem sound_start (plan : JoinPlan) (s : Setting) : (start plan.root s.root).Sound plan s := by
  refine ⟨Shape.every_ofKey ?_, fun l hl => absurd hl List.not_mem_nil⟩
  exact ⟨plan.root, s.root, ⟨[], "", .root, rfl⟩, rfl⟩

/-- The projection of a field list shows each path that is not dropped. -/
theorem ofFields_shows {d d' : Draft} (hnames : s.catalog.Distinct) (hroot : s.root ∈ s.catalog.tables)
    {fields : List Path} (hp : d.plan.Regular) (h : ofFields s fields d = .ok (q, d')) :
    d'.plan.Regular ∧ ∀ path ∈ fieldPaths fields, s.losesField path = true ∨ q.Shows d'.plan s path := by
  obtain ⟨q₁, hadd, rfl⟩ := ofFields_eq_ok.mp h
  obtain ⟨hp', -, hsound, -, hshows⟩ := addPaths_shows hnames hroot hp (sound_start d.plan s) hadd
  exact ⟨hp', fun path hpath => (hshows path hpath).imp_right fun hpath => hpath.keepDeferred hp' hsound⟩

end Projection

end RecordService
