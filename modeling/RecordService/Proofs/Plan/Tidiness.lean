import RecordService.Proofs.Plan.Scope
import RecordService.Proofs.Plan.Shown
import RecordService.Proofs.Record.Rebuilding

/-! # Tidy shapes

The shape of a compiled projection is tidy (`FindPlan.compile_tidy`): its records share no selected column, and a record
has one name for each of its fields and relations. A chain of relations has a join of its own, and with it an alias, if
relation names suit dotted paths; and a table has no column with the name of a relation. So whatever records a plan's
rows were joined from, hydration gives them back (`FindPlan.compile_hydrates`). -/

namespace RecordService

namespace Shape

variable {change : Shape → Shape} {s : Shape} {b : Branch Shape}

mutual

/-- What holds of a shape if it holds of those of its relations holds of every shape. -/
theorem of_relations {P : Shape → Prop} (h : ∀ s, (∀ b ∈ s.relations, P b.shape) → P s) : ∀ s, P s
  | ⟨_, _, _, relations⟩ => h _ (of_relations_all h relations)

theorem of_relations_all {P : Shape → Prop} (h : ∀ s, (∀ b ∈ s.relations, P b.shape) → P s) :
    ∀ relations : List (Branch Shape), ∀ b ∈ relations, P b.shape
  | [], _, hb => absurd hb List.not_mem_nil
  | ⟨_, _, shape⟩ :: rest, b, hb => by
    rcases List.mem_cons.mp hb with rfl | hb
    · exact of_relations h shape
    · exact of_relations_all h rest b hb

end

/-- A record that has its key among its fields, no two fields of one name, and no two relations of one name. -/
structure Plain (s : Shape) : Prop where
  key : s.keySlot ∈ s.fields.map (·.slot)
  fields : (s.fields.map (·.name)).Nodup
  relations : (s.relations.map (·.name)).Nodup

/-! ### Records by chain -/

theorem Plain.at?_cons (h : s.Plain) (hb : b ∈ s.relations) (chain : List String) :
    s.at? (b.name :: chain) = b.shape.at? chain := by
  rw [Shape.at?_cons, branch?, Catalog.find?_name h.relations hb, Option.bind_some]

theorem plain_below (h : ∀ node ∈ s.nodes, node.Plain) (hb : b ∈ s.relations) : ∀ node ∈ b.shape.nodes, node.Plain :=
  fun node hnode => h node (mem_nodes.mpr (Or.inr ⟨b, hb, hnode⟩))

theorem exists_chain (h : ∀ node ∈ s.nodes, node.Plain) : ∀ node ∈ s.nodes, ∃ chain, s.at? chain = some node := by
  induction s using of_relations with
  | h s ih =>
    intro node hnode
    rcases mem_nodes.mp hnode with rfl | ⟨b, hb, hmem⟩
    · exact ⟨[], rfl⟩
    · obtain ⟨chain, hchain⟩ := ih b hb (plain_below h hb) node hmem
      exact ⟨b.name :: chain, ((h s (mem_nodes.mpr (Or.inl rfl))).at?_cons hb chain).trans hchain⟩

/-- What holds of the records at any two chains holds of any two records of a shape. -/
theorem pairwise_nodes {R : Shape → Shape → Prop} (h : ∀ node ∈ s.nodes, node.Plain)
    (hR : ∀ chain chain' node node', s.at? chain = some node → s.at? chain' = some node' → chain ≠ chain' →
      R node node') : s.nodes.Pairwise R := by
  induction s using of_relations with
  | h s ih =>
    have hplain := h s (mem_nodes.mpr (Or.inl rfl))
    rw [nodes_eq, nodesOfAll_eq]
    refine List.pairwise_cons.mpr ⟨fun node hnode => ?_, List.pairwise_flatMap.mpr ⟨fun b hb => ?_, ?_⟩⟩
    · obtain ⟨b, hb, hmem⟩ := List.mem_flatMap.mp hnode
      obtain ⟨chain, hchain⟩ := exists_chain (plain_below h hb) node hmem
      exact hR [] (b.name :: chain) s node rfl ((hplain.at?_cons hb chain).trans hchain) (by simp)
    · refine ih b hb (plain_below h hb) fun chain chain' node node' hnode hnode' hne => ?_
      exact hR (b.name :: chain) (b.name :: chain') node node' ((hplain.at?_cons hb chain).trans hnode)
        ((hplain.at?_cons hb chain').trans hnode') (by simpa using hne)
    · refine (List.pairwise_map.mp hplain.relations).imp_of_mem fun {b c} hb hc hne node hnode node' hnode' => ?_
      obtain ⟨chain, hchain⟩ := exists_chain (plain_below h hb) node hnode
      obtain ⟨chain', hchain'⟩ := exists_chain (plain_below h hc) node' hnode'
      exact hR (b.name :: chain) (c.name :: chain') node node' ((hplain.at?_cons hb chain).trans hchain)
        ((hplain.at?_cons hc chain').trans hchain') (by simp [hne])

theorem mem_nodes_of_at? {node : Shape} : ∀ {chain : List String} {s : Shape}, s.at? chain = some node → node ∈ s.nodes
  | [], s, h => mem_nodes.mpr (Or.inl (Option.some.inj h).symm)
  | name :: rest, s, h => by
    rw [Shape.at?_cons] at h
    obtain ⟨b, hb, hrest⟩ := Option.bind_eq_some_iff.mp h
    exact mem_nodes.mpr (Or.inr ⟨b, List.mem_of_find?_eq_some hb, mem_nodes_of_at? hrest⟩)

/-! ### Growing -/

theorem plain_ofKey (name : String) (slot : Nat) : ∀ node ∈ (ofKey name slot).nodes, node.Plain := by
  intro node hnode
  rw [ofKey, nodes, nodesOfAll] at hnode
  rw [List.mem_singleton.mp hnode]
  exact ⟨List.mem_singleton.mpr rfl, List.nodup_singleton _, List.nodup_nil⟩

theorem Plain.addField (h : s.Plain) (name : String) (slot : Nat) : (Shape.addField name slot s).Plain := by
  unfold Shape.addField
  split
  · exact h
  · rename_i hnew
    refine ⟨?_, ?_, h.relations⟩
    · rw [List.map_append]
      exact List.mem_append_left _ h.key
    · rw [List.map_append, List.nodup_append]
      refine ⟨h.fields, List.nodup_singleton _, fun other hother added hadded heq => hnew ?_⟩
      obtain ⟨f, hf, rfl⟩ := List.mem_map.mp hother
      rw [List.map_singleton, List.mem_singleton] at hadded
      exact List.any_eq_true.mpr ⟨f, hf, by simp [heq, hadded]⟩

theorem map_name_modify (relations : List (Branch Shape)) (place : Nat) (below : Shape → Shape) :
    (relations.modify place fun b => { b with shape := below b.shape }).map (·.name) = relations.map (·.name) := by
  refine List.ext_getElem? fun i => ?_
  rw [List.getElem?_map, List.getElem?_map, List.getElem?_modify]
  cases relations[i]? with
  | none => rfl
  | some b =>
    simp only [Option.map_eq_map, Option.map_some]
    split <;> rfl

/-- A grown shape has the relations of the shape, and one that may have grown or be new. -/
theorem mem_relations_grow {link : ShapeLink} {links : List ShapeLink}
    (hb : b ∈ (grow change (link :: links) s).relations) :
    b ∈ s.relations ∨ b.shape = grow change links (ofKey link.keyName link.keySlot) ∨
      ∃ c ∈ s.relations, b.shape = grow change links c.shape := by
  rw [grow] at hb
  split at hb
  · obtain ⟨i, hi⟩ := List.mem_iff_getElem?.mp hb
    rw [List.getElem?_modify] at hi
    obtain ⟨c, hc, rfl⟩ := Option.map_eq_some_iff.mp hi
    have hmem : c ∈ s.relations := List.mem_of_getElem? hc
    split
    · exact Or.inr (Or.inr ⟨c, hmem, rfl⟩)
    · exact Or.inl hmem
  · rcases List.mem_append.mp hb with hb | hb
    · exact Or.inl hb
    · rw [List.mem_singleton.mp hb]
      exact Or.inr (Or.inl rfl)

theorem Plain.grow (h : s.Plain) (link : ShapeLink) (links : List ShapeLink) :
    (Shape.grow change (link :: links) s).Plain := by
  rw [Shape.grow]
  split
  · refine ⟨h.key, h.fields, ?_⟩
    rw [map_name_modify s.relations _ (Shape.grow change links)]
    exact h.relations
  · rename_i hnone
    refine ⟨h.key, h.fields, ?_⟩
    rw [List.map_append, List.nodup_append]
    refine ⟨h.relations, List.nodup_singleton _, fun other hother added hadded heq => ?_⟩
    obtain ⟨b, hb, rfl⟩ := List.mem_map.mp hother
    rw [List.map_singleton, List.mem_singleton] at hadded
    simpa [heq, hadded] using List.findIdx?_eq_none_iff.mp hnone b hb

theorem plain_grow {added : List FieldSlot} (hadds : AddsFields change added)
    (hchange : ∀ s, s.Plain → (change s).Plain) : ∀ (links : List ShapeLink) {s : Shape},
      (∀ node ∈ s.nodes, node.Plain) → ∀ node ∈ (grow change links s).nodes, node.Plain
  | [], s, h, node, hnode => by
    rcases mem_nodes.mp hnode with rfl | ⟨b, hb, hmem⟩
    · exact hchange s (h s (mem_nodes.mpr (Or.inl rfl)))
    · rw [grow, hadds.relations] at hb
      exact plain_below h hb node hmem
  | link :: links, s, h, node, hnode => by
    rcases mem_nodes.mp hnode with rfl | ⟨b, hb, hmem⟩
    · exact (h s (mem_nodes.mpr (Or.inl rfl))).grow link links
    · rcases mem_relations_grow hb with hb | hshape | ⟨c, hc, hshape⟩
      · exact plain_below h hb node hmem
      · exact plain_grow hadds hchange links (plain_ofKey _ _) node (hshape ▸ hmem)
      · exact plain_grow hadds hchange links (plain_below h hc) node (hshape ▸ hmem)

end Shape

/-! ### Projections -/

namespace Projection

variable {q : Projection} {s : Setting}

/-- Every record of the shape is plain. -/
def Plain (q : Projection) : Prop :=
  ∀ node ∈ q.shape.nodes, node.Plain

theorem Plain.addRecords (h : q.Plain) (hops : List Hop) : (q.addRecords hops).Plain := by
  obtain ⟨-, -, hshape, -⟩ := linksOf_spec hops q
  have hgrown := Shape.plain_grow Shape.addsFields_id (fun _ hplain => hplain) (q.linksOf hops).1 h
  rw [← hshape] at hgrown
  exact hgrown

theorem Plain.addField (h : q.Plain) (hops : List Hop) (tableAlias : String) (column : Column) :
    (q.addField hops tableAlias column).Plain := by
  obtain ⟨-, -, hshape, -⟩ := linksOf_spec hops q
  obtain ⟨-, -, hshape', -⟩ := (q.linksOf hops).2.slot_spec ⟨tableAlias, column.name⟩ column.type
  have hgrown := Shape.plain_grow
    (Shape.addsFields_addField column.name ((q.linksOf hops).2.slot ⟨tableAlias, column.name⟩ column.type).1)
    (fun _ hplain => hplain.addField _ _) (q.linksOf hops).1 h
  rw [← hshape, ← hshape'] at hgrown
  exact hgrown

theorem Plain.addFields (hops : List Hop) (tableAlias : String) : ∀ (columns : List Column) {q : Projection},
    q.Plain → (columns.foldl (fun q column => q.addField hops tableAlias column) q).Plain
  | [], _, h => h
  | column :: rest, _, h => Plain.addFields hops tableAlias rest (h.addField hops tableAlias column)

theorem Plain.addRelations (hops : List Hop) (tableAlias path : String) (table : Table) :
    ∀ (relations : List Relation) {q : Projection} (plan : JoinPlan), q.Plain →
      (addRelations s hops tableAlias path table relations q plan).1.Plain
  | [], _, _, h => h
  | r :: rest, q, plan, h => by
    rw [Projection.addRelations]
    split
    · exact Plain.addRelations hops tableAlias path table rest plan h
    · dsimp only
      split
      · exact Plain.addRelations hops tableAlias path table rest _ h
      · exact Plain.addRelations hops tableAlias path table rest _ (h.addRecords _)

theorem Plain.addAll (h : q.Plain) (hops : List Hop) (tableAlias path : String) (table : Table) (plan : JoinPlan) :
    (addAll s hops tableAlias path table q plan).1.Plain :=
  Plain.addRelations hops tableAlias path table table.relations plan
    ((Plain.addFields hops tableAlias table.columns h).addRecords hops)

theorem Plain.addition (h : q.Plain) (path : Path) (plan : JoinPlan) :
    ∀ q' ∈ (addition s path q plan).1, q'.Plain := by
  intro q' hq'
  unfold Projection.addition at hq'
  split at hq'
  · split at hq'
    · exact Option.some.inj hq' ▸ h.addAll _ _ _ _ _
    · split at hq'
      · exact Option.some.inj hq' ▸ h.addAll _ _ _ _ _
      · cases hq'
      · cases hq'
  · split at hq'
    · exact Option.some.inj hq' ▸ h.addField _ _ _
    · exact Option.some.inj hq' ▸ h.addRecords _
    · cases hq'

theorem Plain.addPaths : ∀ {paths : List Path} {q q' : Projection} {d d' : Draft}, q.Plain →
    addPaths s paths q d = .ok (q', d') → q'.Plain
  | [], _, _, _, _, h, hadd => by
    cases hadd
    exact h
  | path :: rest, q, q', d, d', h, hadd => by
    obtain ⟨⟨q₁, d₁⟩, hpath, hrest⟩ := bind_eq_ok.mp hadd
    refine Plain.addPaths ?_ hrest
    rcases addPath_eq_ok.mp hpath with ⟨-, -, rfl, -⟩ | ⟨plan, hfound, -⟩
    · exact h
    · exact h.addition path d.plan q₁ (by rw [hfound]; rfl)

end Projection

/-! ### Aliases -/

namespace JoinPlan

variable {s : Setting} {p : JoinPlan} {u u' : Usage} {hops hops' : List Hop} {path path' tableAlias : String}
  {table table' : Table} {chain chain' : List String}

theorem Trail.reaches (h : p.Trail s u hops path tableAlias table) : s.Reaches path table := by
  induction h with
  | root => exact .root
  | step _ hr ht hpath _ ih =>
    rw [hpath]
    exact ih.step hr ht

theorem Trail.knows (hp : p.Regular) (h : p.Trail s u hops path tableAlias table) :
    p.Knows (fun _ _ => True) path tableAlias := by
  cases h with
  | root => exact Or.inl ⟨rfl, rfl⟩
  | step _ _ _ _ hstands =>
    obtain ⟨j, hj, hpath, halias, -⟩ := hstands
    obtain ⟨k, hk⟩ := List.mem_iff_getElem?.mp hj
    exact Or.inr ⟨k, j, hk, hpath, halias.symm.trans (hp.aliases k j hk), trivial⟩

/-- An alias stands for one path. -/
theorem Knows.path_unique {K K' : Nat → Join → Prop} (hs : s.Safe) (hroot : p.root = s.options.rootAlias)
    (h : p.Knows K path tableAlias) (h' : p.Knows K' path' tableAlias) : path = path' := by
  have hne (k : Nat) : joinAlias k ≠ p.root := hroot ▸ hs.rootAlias_ne (isGenerated_alias (Or.inl rfl))
  rcases h with ⟨rfl, halias⟩ | ⟨k, j, hj, rfl, halias, -⟩
  · rcases h' with ⟨rfl, -⟩ | ⟨k', -, -, -, halias', -⟩
    · rfl
    · exact absurd (halias'.symm.trans halias) (hne k')
  · rcases h' with ⟨-, halias'⟩ | ⟨k', j', hj', rfl, halias', -⟩
    · exact absurd (halias.symm.trans halias') (hne k)
    · rw [joinAlias_inj (halias.symm.trans halias'), hj'] at hj
      rw [Option.some.inj hj]

/-- A dotted path is that of one chain of relations. -/
theorem Trail.names_unique (hs : s.Safe) (h : p.Trail s u hops path tableAlias table) :
    ∀ {hops' : List Hop} {tableAlias' : String} {table' : Table}, p.Trail s u' hops' path tableAlias' table' →
      hops.map (·.relation.name) = hops'.map (·.relation.name) := by
  induction h with
  | root =>
    intro hops' tableAlias' table' h'
    generalize hpath : "" = path at h'
    cases h' with
    | root => rfl
    | step htrail' hr' _ hpath' _ =>
      exact absurd (hpath'.symm.trans hpath.symm) (htrail'.reaches.extendPath_ne_empty hs hr')
  | @step hops path tableAlias table hop htrail hr ht hpath hstands ih =>
    intro hops' tableAlias' table' h'
    generalize heq : hop.path = dotted at h'
    cases h' with
    | root => exact absurd (hpath.symm.trans heq) (htrail.reaches.extendPath_ne_empty hs hr)
    | step htrail' hr' _ hpath' _ =>
      obtain ⟨rfl, hname⟩ := htrail.reaches.extendPath_inj hs htrail'.reaches hr hr'
        (hpath.symm.trans (heq.trans hpath'))
      rw [List.map_append, List.map_append, ih htrail', List.map_singleton, List.map_singleton, hname]

/-- An alias stands for the table at one chain of relations. -/
theorem Located.chain_unique (hs : s.Safe) (hp : p.Regular) (hroot : p.root = s.options.rootAlias)
    (h : p.Located s u chain tableAlias table) (h' : p.Located s u' chain' tableAlias table') : chain = chain' := by
  obtain ⟨hops, path, htrail, rfl⟩ := h
  obtain ⟨hops', path', htrail', rfl⟩ := h'
  obtain rfl := (htrail.knows hp).path_unique hs hroot (htrail'.knows hp)
  exact htrail.names_unique hs htrail'

end JoinPlan

namespace Projection

variable {q : Projection} {plan : JoinPlan} {s : Setting} {chain : List String} {node : Shape}

theorem Selects.mem {place : Nat} {ref : Sql.ColumnRef} (h : q.Selects place ref) :
    place < q.columns.length ∧ ∃ c ∈ q.columns, c.ref = ref := by
  obtain ⟨c, hc, href⟩ := Option.map_eq_some_iff.mp h
  exact ⟨(List.getElem?_eq_some_iff.mp hc).1, c, List.mem_of_getElem? hc, href⟩

/-- The cells of a record are those of columns of the table at its chain. -/
theorem Sound.selects (h : q.Sound plan s) (hnode : q.shape.at? chain = some node) (hplain : node.Plain) {slot : Nat}
    (hslot : slot ∈ node.slots) : ∃ tableAlias table name, plan.Located s .forProjection chain tableAlias table ∧
      q.Selects slot ⟨tableAlias, name⟩ := by
  have hfield : slot ∈ node.fields.map (·.slot) := by
    rcases List.mem_cons.mp hslot with rfl | hslot
    · exact hplain.key
    · exact hslot
  obtain ⟨f, hf, rfl⟩ := List.mem_map.mp hfield
  obtain ⟨tableAlias, table, hlocated, hselects⟩ := h.shape.fields chain node hnode f hf
  exact ⟨tableAlias, table, f.name, hlocated, hselects⟩

/-- No field of a record has the name of a relation, as no column of its table does. -/
theorem Sound.name_ne (hs : s.Safe) (hp : plan.Regular) (hroot : plan.root = s.options.rootAlias) (h : q.Sound plan s)
    (hfits : q.Fits plan s) (hnode : q.shape.at? chain = some node) {f : FieldSlot} (hf : f ∈ node.fields)
    {b : Branch Shape} (hb : node.branch? b.name = some b) : f.name ≠ b.name := by
  obtain ⟨tableAlias, table, hlocated, hselects⟩ := h.shape.fields chain node hnode f hf
  obtain ⟨tableAlias', table', r, hlocated', hr, -⟩ := h.shape.branches chain node b.name b hnode hb
  obtain ⟨-, rfl⟩ := hlocated.unique hp hlocated'
  obtain ⟨-, c, hc, href⟩ := hselects.mem
  obtain ⟨path', declared, hreaches, hknows, hcolumn⟩ := hfits c hc
  rw [href] at hknows hcolumn
  obtain ⟨hops, path, htrail, -⟩ := hlocated
  obtain rfl := hknows.path_unique hs hroot (htrail.knows hp)
  obtain rfl := hreaches.unique hs htrail.reaches
  intro heq
  have hnone := Catalog.column?_relation (hreaches.mem hs) (Catalog.mem_of_relation? hr)
  rw [Catalog.name_of_relation? hr, ← heq] at hnone
  rw [hnone] at hcolumn
  cases hcolumn

theorem Sound.tidy (hs : s.Safe) (hp : plan.Regular) (hroot : plan.root = s.options.rootAlias) (h : q.Sound plan s)
    (hfits : q.Fits plan s) (hplain : q.Plain) : Shape.Tidy q.shape.nodes q.columns.length where
  disjoint := by
    refine Shape.pairwise_nodes hplain fun chain chain' node node' hnode hnode' hne slot hslot hslot' => hne ?_
    obtain ⟨tableAlias, table, name, hlocated, hselects⟩ :=
      h.selects hnode (hplain node (Shape.mem_nodes_of_at? hnode)) hslot
    obtain ⟨tableAlias', table', name', hlocated', hselects'⟩ :=
      h.selects hnode' (hplain node' (Shape.mem_nodes_of_at? hnode')) hslot'
    rw [Selects, hselects, Option.some.injEq, Sql.ColumnRef.mk.injEq] at hselects'
    obtain ⟨rfl, -⟩ := hselects'
    exact hlocated.chain_unique hs hp hroot hlocated'
  names node hnode := by
    obtain ⟨chain, hchain⟩ := Shape.exists_chain hplain node hnode
    have hown := hplain node hnode
    refine List.nodup_append.mpr ⟨hown.fields, hown.relations, fun name hname other hother => ?_⟩
    obtain ⟨f, hf, rfl⟩ := List.mem_map.mp hname
    obtain ⟨b, hb, rfl⟩ := List.mem_map.mp hother
    exact h.name_ne hs hp hroot hfits hchain hf (Catalog.find?_name hown.relations hb)
  bound node hnode slot hslot := by
    obtain ⟨chain, hchain⟩ := Shape.exists_chain hplain node hnode
    obtain ⟨_, _, _, -, hselects⟩ := h.selects hchain (hplain node hnode) hslot
    exact hselects.mem.1

/-- The projection of a field list has a tidy shape. -/
theorem ofFields_tidy {fields : List Path} {d d' : Draft} (hs : s.Safe) (hd : d.plan = .start s.options.rootAlias)
    (h : ofFields s fields d = .ok (q, d')) : Shape.Tidy q.shape.nodes q.columns.length := by
  obtain ⟨-, hgrows, hfits⟩ := ofFields_spec hs (hd ▸ JoinPlan.rooted_start _ _) h
  obtain ⟨q₁, hadd, rfl⟩ := ofFields_eq_ok.mp h
  have hroot : d'.plan.root = s.options.rootAlias := hgrows.root.trans (congrArg JoinPlan.root hd)
  obtain ⟨hp, -, hsound, -, -⟩ := addPaths_shows hs.names.distinct (Catalog.mem_of_table? hs.root)
    (hd ▸ JoinPlan.regular_start _) (sound_start d.plan s) hadd
  have hstart : (start d.plan.root s.root).Plain := Shape.plain_ofKey s.root.primaryKey 0
  have htidy : Shape.Tidy q₁.shape.nodes q₁.columns.length :=
    hsound.tidy hs hp hroot hfits (hstart.addPaths hadd)
  exact htidy

end Projection

namespace FindPlan

variable {catalog : Catalog} {table : String} {request : FindRequest} {options : CompileOptions} {p : FindPlan}

/-- A compiled projection has a tidy shape, if the relation names of the catalog suit dotted paths. -/
theorem compile_tidy (hnames : catalog.PathSafe) (h : compile catalog table request options = .ok p) :
    Shape.Tidy p.projection.shape.nodes p.projection.columns.length := by
  obtain ⟨counts, aggregates, s, c, -, -, hsetting, hparts, rfl⟩ := compile_eq_ok.mp h
  obtain ⟨d₁, d₂, d₃, hproj, -, -, -⟩ := CompiledParts.compile_eq_ok.mp hparts
  exact Projection.ofFields_tidy (setting_safe hnames hsetting) rfl hproj

/-- The rows of a compiled plan are as wide as its columns. Those that left joins make of records of its shape are
hydrated to these records. -/
theorem compile_hydrates {records : List RecordTree} (hnames : catalog.PathSafe)
    (h : compile catalog table request options = .ok p) (hconforms : ∀ t ∈ records, t.Conforms p.projection.shape)
    (hkeys : (records.map (·.key p.projection.shape)).Nodup) :
    p.projection.hydrate
        ((records.flatMap (·.rows p.projection.shape)).map (·.cells p.projection.columns.length)) =
      records.map (·.entries p.projection.columns p.projection.shape) := by
  have htidy := compile_tidy hnames h
  rw [Projection.hydrate, Projection.openAll_rows htidy hconforms hkeys, List.map_map]
  exact List.map_congr_left fun t ht =>
    Partial.record_complete p.projection.columns p.projection.shape t htidy (hconforms t ht)

end FindPlan

end RecordService
