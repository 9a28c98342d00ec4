import RecordService.Proofs.Plan.Agreement

/-! # Records and their tables

The records at the end of a chain of relations are those of the table there (`Projection.ofFields_recorded`): they have
its primary key first and columns of it besides. The relations below them are the table's own, so that none has the name
of a field (`Projection.Recorded.names_nodup`). The names of a table's relations have to differ for that, but they may be
empty or hold dots. -/

namespace RecordService
open JoinPlan (Trail)

/-- The records at the end of a chain have the key of the table there, as their first field, and columns of it. -/
def RecordFits (s : Setting) (chain : List String) (keyName : String) (keySlot : Nat) (fields : List FieldSlot) : Prop :=
  ∃ t, s.tableAt? chain = some t ∧ keyName = t.primaryKey ∧ fields.head? = some ⟨keyName, keySlot⟩ ∧
    ∀ f ∈ fields, (t.column? f.name).isSome = true

namespace Projection

variable {q q' : Projection} {plan : JoinPlan} {s : Setting} {hops : List Hop} {path tableAlias : String}
  {table : Table} {ok : String → Prop}

/-- All records of the shape are those of their tables. -/
def Recorded (q : Projection) (s : Setting) : Prop :=
  ∀ chain node, q.shape.at? chain = some node → RecordFits s chain node.keyName node.keySlot node.fields

theorem Recorded.grow {change : Shape → Shape} {added : List FieldSlot} (h : q.Recorded s)
    (hroot : s.root ∈ s.catalog.tables) (hchange : Shape.AddsFields change added)
    (hkept : ∀ s, (change s).keyName = s.keyName ∧ (change s).keySlot = s.keySlot ∧ s.fields <+: (change s).fields)
    (hshape : q'.shape = q.shape.grow change (q.linksOf hops).1)
    (htrail : plan.Trail s .forProjection hops path tableAlias table)
    (hadded : ∀ f ∈ added, (table.column? f.name).isSome = true) : q'.Recorded s := by
  unfold Recorded
  rw [hshape]
  refine Shape.nodes_grow hchange.relations h (fun before link after heq => ?_) fun node hnode => ?_
  · obtain ⟨passed, hop, ahead, rfl, hbefore, hlink⟩ := linksOf_split heq
    obtain ⟨-, -, -, -, -, hhere⟩ := htrail.split rfl
    have hchain : before.map (·.name) ++ [link.name] = (passed ++ [hop]).map (·.relation.name) := by
      rw [hbefore, hlink, List.map_append, List.map_singleton]
    have hkey : link.keyName = hop.target.primaryKey := congrArg ShapeLink.keyName hlink
    rw [hchain]
    refine ⟨hop.target, hhere.tableAt?, hkey, rfl, fun f hf => ?_⟩
    rw [List.mem_singleton.mp hf, hkey]
    exact Catalog.primaryKey_declared (hhere.mem hroot)
  · obtain ⟨t, ht, hname, hhead, hcolumns⟩ := hnode
    obtain ⟨hkeyName, hkeySlot, more, hmore⟩ := hkept node
    rw [names_linksOf] at ht
    obtain rfl : table = t := Option.some.inj (htrail.tableAt?.symm.trans ht)
    rw [hkeyName, hkeySlot, names_linksOf]
    refine ⟨table, ht, hname, ?_, fun f hf => ?_⟩
    · rw [← hmore, List.head?_append, hhead]
      rfl
    · rcases hchange.fields node f hf with hf | hf
      · exact hcolumns f hf
      · exact hadded f hf

theorem Recorded.addRecords (h : q.Recorded s) (hroot : s.root ∈ s.catalog.tables)
    (htrail : plan.Trail s .forProjection hops path tableAlias table) : (q.addRecords hops).Recorded s :=
  h.grow hroot Shape.addsFields_id (fun _ => ⟨rfl, rfl, List.prefix_rfl⟩) (shape_addRecords q hops) htrail
    fun _ hf => absurd hf List.not_mem_nil

theorem Recorded.addField {column : Column} (h : q.Recorded s) (hroot : s.root ∈ s.catalog.tables)
    (htrail : plan.Trail s .forProjection hops path tableAlias table)
    (hcolumn : table.column? column.name = some column) : (q.addField hops tableAlias column).Recorded s := by
  refine h.grow hroot (Shape.addsFields_addField _ _) (fun node => ?_) (shape_addField q hops tableAlias column) htrail
    fun f hf => ?_
  · unfold Shape.addField
    split
    · exact ⟨rfl, rfl, List.prefix_rfl⟩
    · exact ⟨rfl, rfl, List.prefix_append _ _⟩
  · rw [List.mem_singleton.mp hf, hcolumn]
    rfl

theorem Adds.recorded {a b : Projection × JoinPlan} (hdistinct : s.catalog.Distinct) (hroot : s.root ∈ s.catalog.tables)
    (hadds : Adds s ok a b) (h : a.1.Recorded s) : b.1.Recorded s := by
  cases hadds with
  | joins => exact h
  | field htrail _ hcolumn => exact h.addField hroot htrail hcolumn
  | records htrail _ => exact h.addRecords hroot htrail
  | related htrail _ hr ht hpath hstands =>
    have hrelation := Catalog.relation?_name (hdistinct _ (htrail.mem hroot)) hr
    exact h.addRecords hroot (htrail.step hrelation ht hpath hstands)
  | deferred => exact h

theorem Builds.recorded {a b : Projection × JoinPlan} (hdistinct : s.catalog.Distinct)
    (hroot : s.root ∈ s.catalog.tables) (hbuilds : Builds s ok a b) (h : a.1.Recorded s) : b.1.Recorded s := by
  induction hbuilds with
  | refl => exact h
  | tail _ hadds ih => exact hadds.recorded hdistinct hroot ih

theorem recorded_start (rootAlias : String) (hroot : s.root ∈ s.catalog.tables) :
    (start rootAlias s.root).Recorded s := by
  intro chain node hnode
  cases chain with
  | nil =>
    cases hnode
    refine ⟨s.root, rfl, rfl, rfl, fun f hf => ?_⟩
    rw [List.mem_singleton.mp hf]
    exact Catalog.primaryKey_declared hroot
  | cons name rest => cases hnode

/-- The fields and the relations of a record have different names. -/
theorem Recorded.names_nodup {chain : List String} {node : Shape} (h : q.Recorded s) (hcharted : q.Charted s)
    (hplain : q.Plain) (hroot : s.root ∈ s.catalog.tables) (hnode : q.shape.at? chain = some node) :
    (node.fields.map (·.name) ++ node.relations.map (·.name)).Nodup := by
  have hown := hplain node (Shape.mem_nodes_of_at? hnode)
  refine List.nodup_append.mpr ⟨hown.fields, hown.relations, ?_⟩
  rintro name hname other hother rfl
  obtain ⟨f, hf, hfield⟩ := List.mem_map.mp hname
  obtain ⟨b, hb, hbranch⟩ := List.mem_map.mp hother
  obtain ⟨t, ht, -, -, hcolumns⟩ := h chain node hnode
  obtain ⟨t', r, ht', hr, hrname⟩ := hcharted.relations chain node b.name b hnode (Catalog.find?_name hown.relations hb)
  rw [ht] at ht'
  cases ht'
  have hnone := Catalog.column?_relation (Setting.mem_of_tableAt? hroot ht) hr
  have hsome := hcolumns f hf
  rw [hfield, ← hbranch, ← hrname, hnone] at hsome
  cases hsome

/-- The projection of a field list has records of the tables, and its links have chains of their own that are not
joined. -/
theorem ofFields_recorded {fields : List Path} {d d' : Draft} (hdistinct : s.catalog.Distinct)
    (hroot : s.root ∈ s.catalog.tables) (hp : d.plan.Regular) (h : ofFields s fields d = .ok (q, d')) :
    q.Recorded s ∧ q.Charted s ∧ q.Plain ∧ (q.deferred.map (·.chain)).Nodup ∧
      ∀ l ∈ q.deferred, q.shape.isJoined l.parentChain l.name = false := by
  obtain ⟨q₁, hadd, rfl⟩ := ofFields_eq_ok.mp h
  have hany : ∀ field ∈ fieldPaths fields, ∀ name ∈ field.segments, True := fun _ _ _ _ => trivial
  obtain ⟨-, hbuilds⟩ := addPaths_builds hroot hp hany hadd
  have hcharted := hbuilds.charted (charted_start _ _)
  have hstart : (start d.plan.root s.root).Plain := Shape.plain_ofKey s.root.primaryKey 0
  have hplain : q₁.Plain := hstart.addPaths hadd
  obtain ⟨hchains, hjoined⟩ := keepDeferred_distinct q₁.shape [] q₁.deferred List.nodup_nil fun l hl =>
    absurd hl List.not_mem_nil
  exact ⟨hbuilds.recorded hdistinct hroot (recorded_start _ hroot),
    ⟨hcharted.relations, fun l hl => hcharted.deferred l ((subset_keepDeferred q₁.shape [] q₁.deferred).2 hl)⟩,
    hplain, hchains, hjoined⟩

end Projection

theorem Catalog.distinct_blog : Catalog.blog.Distinct := by
  unfold Catalog.Distinct
  decide +kernel

end RecordService
