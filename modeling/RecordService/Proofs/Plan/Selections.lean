import RecordService.Proofs.Plan.Records

/-! # What a field list selects

Paths are added to a projection one after the other, and a path may join a relation that an earlier one has deferred.
Still the projection has what its paths ask for (`Projection.addPaths_holds`), and what a path asks for is read off the
catalog alone (`Setting.asked`). So neither the order of the paths nor their repetition matters
(`Projection.ofFields_same`). -/

namespace RecordService
open JoinPlan (Trail)

/-! ### Selections -/

/-- Records at the ends of chains of relations, fields of such records, and links from them. -/
structure Selection where
  chains : List (List String)
  fields : List (List String × String)
  links : List (List String × String)
deriving DecidableEq, Repr

namespace Selection

def empty : Selection :=
  ⟨[], [], []⟩

def append (w w' : Selection) : Selection :=
  ⟨w.chains ++ w'.chains, w.fields ++ w'.fields, w.links ++ w'.links⟩

instance : Append Selection :=
  ⟨append⟩

theorem append_def (w w' : Selection) :
    w ++ w' = ⟨w.chains ++ w'.chains, w.fields ++ w'.fields, w.links ++ w'.links⟩ := rfl

theorem append_assoc (w w' w'' : Selection) : w ++ w' ++ w'' = w ++ (w' ++ w'') := by
  simp [append_def]

theorem append_empty (w : Selection) : w ++ empty = w := by
  simp [append_def, empty]

/-- The records at the end of a chain. -/
def records (chain : List String) : Selection :=
  ⟨[chain], [], []⟩

/-- A field of the records at the end of a chain. -/
def field (chain : List String) (name : String) : Selection :=
  ⟨[chain], [(chain, name)], []⟩

/-- The relations of the records at the end of a chain: to-one relations are joined, to-many ones are links. -/
def related (chain : List String) (relations : List Relation) : Selection where
  chains := (relations.filter (!·.isMany)).map fun r => chain ++ [r.name]
  fields := []
  links := (relations.filter (·.isMany)).map fun r => (chain, r.name)

/-- Fields of the records at the end of a chain. -/
def columns (chain : List String) (columns : List Column) : Selection :=
  ⟨columns.map fun _ => chain, columns.map fun c => (chain, c.name), []⟩

/-- Everything that the table at the end of a chain has. -/
def everything (chain : List String) (t : Table) : Selection :=
  columns chain t.columns ++ records chain ++ related chain t.relations

theorem related_one {chain : List String} {r : Relation} (h : r.isMany = false) (rest : List Relation) :
    related chain (r :: rest) = records (chain ++ [r.name]) ++ related chain rest := by
  simp [related, records, append_def, h]

theorem related_many {chain : List String} {r : Relation} (h : r.isMany = true) (rest : List Relation) :
    related chain (r :: rest) = ⟨[], [], [(chain, r.name)]⟩ ++ related chain rest := by
  simp [related, append_def, h]

end Selection

/-- The names of a path of the field list, without a star that it ends in. -/
def Path.names (path : Path) : List String :=
  if path.isWildcard then path.parent.segments else path.segments

namespace Setting

/-- What a path of the field list asks for; a path that is dropped asks for nothing. -/
def asked (s : Setting) (path : Path) : Selection :=
  if s.losesField path then .empty
  else if path.isWildcard then
    (s.tableAt? path.parent.segments).elim .empty (.everything path.parent.segments)
  else if (s.tableAt? path.segments).isSome then .records path.segments
  else .field path.parent.segments (path.segments.getLast?.getD "")

/-- What paths ask for together. -/
def selection (s : Setting) (paths : List Path) : Selection where
  chains := paths.flatMap (s.asked · |>.chains)
  fields := paths.flatMap (s.asked · |>.fields)
  links := paths.flatMap (s.asked · |>.links)

theorem selection_cons (s : Setting) (path : Path) (rest : List Path) :
    s.selection (path :: rest) = s.asked path ++ s.selection rest := by
  simp [selection, Selection.append_def]

/-- The name of the key of the records at the end of a chain. -/
def keyAt? (s : Setting) (chain : List String) : Option String :=
  (s.tableAt? chain).map (·.primaryKey)

/-- Whether a relation of the records at the end of a chain is to-many. -/
def manyAt? (s : Setting) (chain : List String) (name : String) : Option Bool :=
  ((s.tableAt? chain).bind (·.relation? name)).map (·.isMany)

end Setting

/-! ### Chains -/

namespace Shape

theorem Within.isSome_at? {s s' : Shape} {chain : List String} (h : s.Within s') (hchain : (s.at? chain).isSome = true) :
    (s'.at? chain).isSome = true := by
  obtain ⟨node, hnode⟩ := Option.isSome_iff_exists.mp hchain
  obtain ⟨node', hnode', -⟩ := h.fields chain node hnode
  rw [hnode']
  rfl

theorem isJoined_eq (s : Shape) (chain : List String) (name : String) :
    s.isJoined chain name = (s.at? (chain ++ [name])).isSome := by
  rw [isJoined, at?_append]
  cases s.at? chain with
  | none => rfl
  | some node =>
    rw [Option.bind_some, Option.bind_some, at?]
    cases node.below? name with
    | none => rfl
    | some below => rfl

theorem isSome_at?_prefix {s : Shape} {chain c : List String} (hway : chain <+: c) (hc : (s.at? c).isSome = true) :
    (s.at? chain).isSome = true := by
  obtain ⟨rest, rfl⟩ := hway
  rw [at?_append] at hc
  cases hchain : s.at? chain with
  | none => simp [hchain] at hc
  | some node => rfl

end Shape

namespace JoinPlan

variable {s : Setting} {p : JoinPlan} {u : Usage} {hops : List Hop} {path tableAlias : String} {table : Table}

theorem names_cross (r : Relation) (target : Table) :
    (hops ++ [(p.cross path tableAlias r target u).1]).map (·.relation.name) =
      hops.map (·.relation.name) ++ [r.name] := by
  rw [List.map_append, List.map_singleton]
  rfl

/-- The name of a column leads to no table, since no relation has it. -/
theorem Trail.tableAt?_column {c : Column} (h : p.Trail s u hops path tableAlias table)
    (hroot : s.root ∈ s.catalog.tables) (hc : table.column? c.name = some c) :
    s.tableAt? (hops.map (·.relation.name) ++ [c.name]) = none := by
  rw [Setting.tableAt?_concat, h.tableAt?, Option.bind_some]
  cases hr : table.relation? c.name with
  | none => rfl
  | some r =>
    have hnone := Catalog.column?_relation (h.mem hroot) (Catalog.mem_of_relation? hr)
    rw [Catalog.name_of_relation? hr, hc] at hnone
    cases hnone

end JoinPlan

namespace Selection

variable {s : Setting} {w : Selection} {chain : List String} {name : String} {many : Bool}

/-- A field of a record is its key or selected. -/
def Covers (w : Selection) (s : Setting) (chain : List String) (f : FieldSlot) : Prop :=
  s.keyAt? chain = some f.name ∨ (chain, f.name) ∈ w.fields

/-- A relation of a record is on the way to a selected one, and as the table declares it. -/
def Passes (w : Selection) (s : Setting) (chain : List String) (name : String) (many : Bool) : Prop :=
  (∃ c ∈ w.chains, chain ++ [name] <+: c) ∧ s.manyAt? chain name = some many

theorem Covers.append {f : FieldSlot} (h : w.Covers s chain f) (w' : Selection) : (w ++ w').Covers s chain f :=
  h.imp_right (List.mem_append_left w'.fields)

theorem Passes.append (h : w.Passes s chain name many) (w' : Selection) : (w ++ w').Passes s chain name many := by
  obtain ⟨⟨c, hc, hway⟩, hmany⟩ := h
  exact ⟨⟨c, List.mem_append_left w'.chains hc, hway⟩, hmany⟩

end Selection

namespace Projection

variable {q q' : Projection} {plan : JoinPlan} {s : Setting} {hops : List Hop} {path tableAlias : String}
  {table : Table} {w : Selection}

/-- The projection has what is selected, and besides only the keys of its records. -/
structure Holds (q : Projection) (s : Setting) (w : Selection) : Prop where
  shape : q.shape.Every (w.Covers s) (w.Passes s)
  chains : ∀ c ∈ w.chains, (q.shape.at? c).isSome = true
  fields : ∀ e ∈ w.fields, q.HasField e.1 e.2
  links : ∀ chain name, (chain, name) ∈ w.links ↔ ∃ l ∈ q.deferred, l.parentChain = chain ∧ l.name = name

theorem holds_start (rootAlias : String) (s : Setting) : (start rootAlias s.root).Holds s .empty where
  shape := Shape.every_ofKey (Or.inl rfl)
  chains c hc := absurd hc List.not_mem_nil
  fields e he := absurd he List.not_mem_nil
  links chain name := by simp [Selection.empty, start]

/-! ### Steps -/

/-- A shape that grows along hops holds the records at their end and the fields that are added there. -/
theorem Holds.grow {change : Shape → Shape} {added : List FieldSlot} (h : q.Holds s w)
    (hchange : Shape.AddsFields change added)
    (hadded : ∀ node, ∀ f ∈ added, f.name ∈ (change node).fields.map (·.name))
    (hshape : q'.shape = q.shape.grow change (q.linksOf hops).1) (hdeferred : q'.deferred = q.deferred)
    (htrail : plan.Trail s .forProjection hops path tableAlias table) :
    q'.Holds s (w ++ ⟨[hops.map (·.relation.name)], added.map fun f => (hops.map (·.relation.name), f.name), []⟩) := by
  have hwithin : q.shape.Within q'.shape := hshape ▸ Shape.within_grow hchange _ _
  obtain ⟨node, hnode⟩ := Shape.at?_grow change (q.linksOf hops).1 q.shape
  rw [names_linksOf, ← hshape] at hnode
  refine ⟨?_, fun c hc => ?_, fun e he => ?_, fun chain name => ?_⟩
  · rw [hshape]
    refine Shape.every_grow hchange (h.shape.imp (fun _ _ hf => hf.append _) fun _ _ _ hr => hr.append _)
      (fun before link after heq => ?_) fun f hf => ?_
    · -- the link is that of a hop, which the trail passes
      obtain ⟨passed, hop, ahead, rfl, hbefore, hlink⟩ := linksOf_split heq
      obtain ⟨_, _, parent, hparent, hr, hhere⟩ := htrail.split rfl
      have hname : link.name = hop.relation.name := congrArg ShapeLink.name hlink
      have hway : passed.map (·.relation.name) ++ [hop.relation.name] <+:
          (passed ++ hop :: ahead).map (·.relation.name) :=
        ⟨ahead.map (·.relation.name), by simp⟩
      have htable := hhere.tableAt?
      rw [List.map_append, List.map_singleton] at htable
      rw [hbefore, hname]
      refine ⟨⟨⟨_, List.mem_append_right _ (List.mem_singleton.mpr rfl), hway⟩, ?_⟩, Or.inl ?_⟩
      · rw [Setting.manyAt?, hparent.tableAt?, Option.bind_some, hr, congrArg ShapeLink.many hlink]
        rfl
      · rw [Setting.keyAt?, htable, congrArg ShapeLink.keyName hlink]
        rfl
    · rw [names_linksOf]
      exact Or.inr (List.mem_append_right _ (List.mem_map_of_mem hf))
  · rcases List.mem_append.mp hc with hc | hc
    · exact hwithin.isSome_at? (h.chains c hc)
    · rw [List.mem_singleton.mp hc, hnode]
      rfl
  · rcases List.mem_append.mp he with he | he
    · exact (h.fields e he).mono hwithin
    · obtain ⟨f, hf, rfl⟩ := List.mem_map.mp he
      exact ⟨_, hnode, hadded node f hf⟩
  · rw [hdeferred, ← h.links chain name]
    simp [Selection.append_def]

theorem Holds.addRecords (h : q.Holds s w) (htrail : plan.Trail s .forProjection hops path tableAlias table) :
    (q.addRecords hops).Holds s (w ++ .records (hops.map (·.relation.name))) :=
  h.grow Shape.addsFields_id (fun _ _ hf => absurd hf List.not_mem_nil) (shape_addRecords q hops)
    (deferred_addRecords q hops) htrail

theorem Holds.addField (h : q.Holds s w) (htrail : plan.Trail s .forProjection hops path tableAlias table)
    (column : Column) :
    (q.addField hops tableAlias column).Holds s (w ++ .field (hops.map (·.relation.name)) column.name) := by
  refine h.grow (Shape.addsFields_addField _ _) (fun node f hf => ?_) (shape_addField q hops tableAlias column)
    (deferred_addField q hops tableAlias column) htrail
  rw [List.mem_singleton.mp hf]
  obtain ⟨f, hf, hname⟩ := Shape.mem_addField column.name (q.placeOf hops tableAlias column) node
  exact List.mem_map.mpr ⟨f, hf, hname⟩

theorem Holds.addFields (htrail : plan.Trail s .forProjection hops path tableAlias table) :
    ∀ (columns : List Column) {q : Projection} {w : Selection}, q.Holds s w →
      (columns.foldl (fun q column => q.addField hops tableAlias column) q).Holds s
        (w ++ .columns (hops.map (·.relation.name)) columns)
  | [], _, w, h => by
    rwa [show Selection.columns _ [] = .empty from rfl, w.append_empty]
  | column :: rest, _, w, h => by
    have hrest := Holds.addFields htrail rest (h.addField htrail column)
    rwa [w.append_assoc] at hrest

/-- A link of the records at the end of hops is deferred. -/
theorem Holds.defer {target : Table} {r : Relation} (h : q.Holds s w) (chain : List String) :
    ({ q with deferred := q.deferred ++ [.ofRelation chain table r target] } : Projection).Holds s
      (w ++ ⟨[], [], [(chain, r.name)]⟩) where
  shape := h.shape.imp (fun _ _ hf => hf.append _) fun _ _ _ hr => hr.append _
  chains c hc := h.chains c (by simpa [Selection.append_def] using hc)
  fields e he := h.fields e (by simpa [Selection.append_def] using he)
  links chain' name := by
    rw [Selection.append_def, List.mem_append, h.links chain' name, List.mem_singleton, Prod.mk.injEq]
    constructor
    · rintro (⟨l, hl, hlink⟩ | ⟨rfl, rfl⟩)
      · exact ⟨l, List.mem_append_left _ hl, hlink⟩
      · exact ⟨_, List.mem_append_right _ (List.mem_singleton.mpr rfl), rfl, rfl⟩
    · rintro ⟨l, hl, rfl, rfl⟩
      rcases List.mem_append.mp hl with hl | hl
      · exact Or.inl ⟨l, hl, rfl, rfl⟩
      · rw [List.mem_singleton.mp hl]
        exact Or.inr ⟨rfl, rfl⟩

theorem Holds.addRelations (hdistinct : s.catalog.Distinct) (hroot : s.root ∈ s.catalog.tables) :
    ∀ {relations : List Relation} {q : Projection} {plan : JoinPlan} {w : Selection}, plan.Regular → q.Holds s w →
      plan.Trail s .forProjection hops path tableAlias table → (∀ r ∈ relations, r ∈ table.relations) →
        (addRelations s hops tableAlias path table relations q plan).1.Holds s
          (w ++ .related (hops.map (·.relation.name)) relations)
  | [], _, _, w, _, h, _, _ => by
    rwa [show Selection.related _ [] = .empty from rfl, w.append_empty]
  | r :: rest, q, plan, w, hp, h, htrail, hmem => by
    have htable := htrail.mem hroot
    have hr := Catalog.relation?_name (hdistinct table htable) (hmem r List.mem_cons_self)
    obtain ⟨target, ht⟩ := Option.isSome_iff_exists.mp (Catalog.target?_isSome htable (hmem r List.mem_cons_self))
    have hrest : ∀ r' ∈ rest, r' ∈ table.relations := fun r' h' => hmem r' (List.mem_cons_of_mem _ h')
    rw [Projection.addRelations, ht]
    cases hmany : r.isMany with
    | true =>
      rw [Selection.related_many hmany, ← w.append_assoc]
      exact Holds.addRelations hdistinct hroot hp (h.defer _) htrail hrest
    | false =>
      obtain ⟨-, hcrosses, htrail'⟩ := JoinPlan.cross_trail hp htrail hr ht
      have hgains := hcrosses.gains
      have hadded := h.addRecords htrail'
      rw [JoinPlan.names_cross] at hadded
      rw [Selection.related_one hmany, ← w.append_assoc]
      exact Holds.addRelations hdistinct hroot (hgains.regular hp) hadded (htrail.mono hgains.toExtends) hrest

theorem Holds.addAll (hdistinct : s.catalog.Distinct) (hroot : s.root ∈ s.catalog.tables) (hp : plan.Regular)
    (h : q.Holds s w) (htrail : plan.Trail s .forProjection hops path tableAlias table) :
    (addAll s hops tableAlias path table q plan).1.Holds s (w ++ .everything (hops.map (·.relation.name)) table) := by
  have hcolumns := (Holds.addFields htrail table.columns h).addRecords htrail
  have hall := Holds.addRelations hdistinct hroot hp hcolumns htrail fun _ hr => hr
  rwa [w.append_assoc, w.append_assoc] at hall

/-! ### Paths of the field list -/

theorem Holds.addition {field : Path} (hdistinct : s.catalog.Distinct) (hroot : s.root ∈ s.catalog.tables)
    (hp : plan.Regular) (h : q.Holds s w) (hadds : Addition s field q plan q' plan') :
    q'.Holds s (w ++ s.asked field) := by
  cases hadds with
  | nothing hlost =>
    rwa [Setting.asked, if_pos hlost, w.append_empty]
  | everything hkept hw hcrosses htrail hchain =>
    have hall := h.addAll hdistinct hroot (hcrosses.gains.regular hp) htrail
    have htable := htrail.tableAt?
    rw [hchain] at hall htable
    rw [Setting.asked, hkept, if_neg Bool.false_ne_true, if_pos hw, htable]
    exact hall
  | @field _ hops _ _ _ c hkept hw _ htrail hchain hc =>
    have hlast : field.segments.getLast?.getD "" = c.name := by
      rw [← hchain, List.getLast?_concat, Option.getD_some]
    -- no relation has the name of a column, so the path does not ask for records
    have hnone := htrail.tableAt?_column hroot hc
    rw [hchain] at hnone
    rw [Setting.asked, hkept, if_neg Bool.false_ne_true, hw, if_neg Bool.false_ne_true, hnone,
      Path.segments_parent hchain, hlast]
    exact h.addField htrail c
  | records hkept hw _ _ _ htrail hchain =>
    have hadded := h.addRecords htrail
    have htable := htrail.tableAt?
    rw [List.map_append, List.map_singleton, hchain] at hadded htable
    rw [Setting.asked, hkept, if_neg Bool.false_ne_true, hw, if_neg Bool.false_ne_true, htable]
    exact hadded

theorem Holds.addPaths (hdistinct : s.catalog.Distinct) (hroot : s.root ∈ s.catalog.tables) :
    ∀ {fields : List Path} {q q' : Projection} {d d' : Draft} {w : Selection}, d.plan.Regular → q.Holds s w →
      addPaths s fields q d = .ok (q', d') → q'.Holds s (w ++ s.selection fields)
  | [], _, _, _, _, w, _, h, hadd => by
    cases hadd
    rwa [show s.selection [] = .empty from rfl, w.append_empty]
  | field :: rest, q, q', d, d', w, hp, h, hadd => by
    obtain ⟨⟨q₁, d₁⟩, hfirst, hrest⟩ := bind_eq_ok.mp hadd
    have hadds := addPath_inv hp hfirst
    have hany : ∀ name ∈ field.segments, True := fun _ _ => trivial
    have hp₁ := (hadds.builds hroot hp hany).1
    have hall := Holds.addPaths hdistinct hroot hp₁ (h.addition hdistinct hroot hp hadds) hrest
    rwa [w.append_assoc, ← s.selection_cons] at hall

/-! ### The finished projection -/

/-- The records, fields and links of a projection are those selected, with the key of every record, and without the
links that are joined. -/
structure Selected (q : Projection) (s : Setting) (w : Selection) : Prop where
  chains : ∀ chain, (q.shape.at? chain).isSome = true ↔ chain = [] ∨ ∃ c ∈ w.chains, chain <+: c
  many : ∀ chain node name b, q.shape.at? chain = some node → node.branch? name = some b →
    s.manyAt? chain name = some b.many
  fields : ∀ chain node name, q.shape.at? chain = some node →
    (name ∈ node.fields.map (·.name) ↔ s.keyAt? chain = some name ∨ (chain, name) ∈ w.fields)
  links : ∀ chain name, (∃ l ∈ q.deferred, l.parentChain = chain ∧ l.name = name) ↔
    (chain, name) ∈ w.links ∧ (q.shape.at? (chain ++ [name])).isSome = false

theorem Holds.isSome_at?_iff (h : q.Holds s w) (chain : List String) :
    (q.shape.at? chain).isSome = true ↔ chain = [] ∨ ∃ c ∈ w.chains, chain <+: c := by
  constructor
  · intro hchain
    rcases List.eq_nil_or_concat chain with rfl | ⟨init, last, rfl⟩
    · exact Or.inl rfl
    · rw [List.concat_eq_append] at hchain ⊢
      obtain ⟨node, hnode⟩ := Option.isSome_iff_exists.mp hchain
      obtain ⟨parent, b, hparent, hb⟩ := Shape.branch?_of_at? hnode
      exact Or.inr (h.shape.branches init parent last b hparent hb).1
  · rintro (rfl | ⟨c, hc, hway⟩)
    · rfl
    · exact Shape.isSome_at?_prefix hway (h.chains c hc)

/-- A projection that holds what is selected has it selected once the joined links are dropped. -/
theorem Holds.selected (h : q.Holds s w) (hrecorded : q.Recorded s) :
    ({ q with deferred := keepDeferred q.shape [] q.deferred } : Projection).Selected s w where
  chains := h.isSome_at?_iff
  many chain node name b hnode hb := (h.shape.branches chain node name b hnode hb).2
  fields chain node name hnode := by
    constructor
    · intro hname
      obtain ⟨f, hf, rfl⟩ := List.mem_map.mp hname
      exact h.shape.fields chain node hnode f hf
    · rintro (hkey | hfield)
      -- records have their key, whether it is asked for or not
      · obtain ⟨t, ht, hkeyName, hhead, -⟩ := hrecorded chain node hnode
        rw [Setting.keyAt?, ht, Option.map_some, Option.some.injEq] at hkey
        exact List.mem_map.mpr ⟨_, List.mem_of_head? hhead, hkeyName.trans hkey⟩
      · obtain ⟨node', hnode', hname⟩ := h.fields _ hfield
        rw [hnode] at hnode'
        cases hnode'
        exact hname
  links chain name := by
    rw [h.links chain name, ← Shape.isJoined_eq]
    obtain ⟨-, hjoined⟩ := keepDeferred_distinct q.shape [] q.deferred List.nodup_nil fun l hl =>
      absurd hl List.not_mem_nil
    constructor
    · rintro ⟨l, hl, rfl, rfl⟩
      exact ⟨⟨l, (subset_keepDeferred q.shape [] q.deferred).2 hl, rfl, rfl⟩, hjoined l hl⟩
    · rintro ⟨⟨l, hl, rfl, rfl⟩, hfalse⟩
      rcases keepDeferred_spec q.shape [] q.deferred l hl with htrue | ⟨l', hl', hchain⟩
      · rw [hfalse] at htrue
        cases htrue
      -- what was kept in place of the link has its chain, and so its place
      · obtain ⟨hparent, hname⟩ := List.append_inj' hchain rfl
        exact ⟨l', hl', hparent, List.singleton_inj.mp hname⟩

/-- The projection of a field list has what its paths ask for. -/
theorem ofFields_selected {fields : List Path} {d d' : Draft} (hdistinct : s.catalog.Distinct)
    (hroot : s.root ∈ s.catalog.tables) (hp : d.plan.Regular) (h : ofFields s fields d = .ok (q, d')) :
    q.Selected s (s.selection (fieldPaths fields)) := by
  obtain ⟨q₁, hadd, rfl⟩ := ofFields_eq_ok.mp h
  have hany : ∀ field ∈ fieldPaths fields, ∀ name ∈ field.segments, True := fun _ _ _ _ => trivial
  have hrecorded := (addPaths_builds hroot hp hany hadd).2.recorded hdistinct hroot (recorded_start _ hroot)
  exact ((holds_start _ s).addPaths hdistinct hroot hp hadd).selected hrecorded

/-! ### The same paths -/

/-- The projections have records at the ends of the same chains, with the same fields and relations, and the same
links. -/
structure Alike (q q' : Projection) : Prop where
  chains : ∀ chain, (q.shape.at? chain).isSome = (q'.shape.at? chain).isSome
  fields : ∀ chain node node' name, q.shape.at? chain = some node → q'.shape.at? chain = some node' →
    (name ∈ node.fields.map (·.name) ↔ name ∈ node'.fields.map (·.name))
  many : ∀ chain node node' name, q.shape.at? chain = some node → q'.shape.at? chain = some node' →
    (node.branch? name).map (·.many) = (node'.branch? name).map (·.many)
  links : ∀ chain name, (∃ l ∈ q.deferred, l.parentChain = chain ∧ l.name = name) ↔
    ∃ l ∈ q'.deferred, l.parentChain = chain ∧ l.name = name

theorem Selected.many_eq {chain : List String} {node : Shape} (h : q.Selected s w)
    (hnode : q.shape.at? chain = some node) (name : String) :
    (node.branch? name).map (·.many) =
      if (q.shape.at? (chain ++ [name])).isSome then s.manyAt? chain name else none := by
  have hat : (q.shape.at? (chain ++ [name])).isSome = (node.branch? name).isSome := by
    rw [Shape.at?_append, hnode, Option.bind_some, Shape.at?_cons]
    cases node.branch? name with
    | none => rfl
    | some b => rfl
  rw [hat]
  cases hb : node.branch? name with
  | none => rfl
  | some b => exact (h.many chain node name b hnode hb).symm

theorem Selected.alike (h : q.Selected s w) (h' : q'.Selected s w) : q.Alike q' := by
  have hchains (chain : List String) : (q.shape.at? chain).isSome = (q'.shape.at? chain).isSome :=
    Bool.eq_iff_iff.mpr ((h.chains chain).trans (h'.chains chain).symm)
  refine ⟨hchains, fun chain node node' name hnode hnode' => ?_, fun chain node node' name hnode hnode' => ?_,
    fun chain name => ?_⟩
  · rw [h.fields chain node name hnode, h'.fields chain node' name hnode']
  · rw [h.many_eq hnode, h'.many_eq hnode', hchains]
  · rw [h.links, h'.links, hchains]

/-- A selection may have its parts in another order, or some of them twice. -/
theorem Selected.congr {paths paths' : List Path} (h : q.Selected s (s.selection paths))
    (hsame : ∀ path, path ∈ paths ↔ path ∈ paths') : q.Selected s (s.selection paths') := by
  have hmem {α : Type} (part : Path → List α) (a : α) : a ∈ paths.flatMap part ↔ a ∈ paths'.flatMap part := by
    simp [List.mem_flatMap, hsame]
  refine ⟨fun chain => ?_, h.many, fun chain node name hnode => ?_, fun chain name => ?_⟩
  · simp only [h.chains, Setting.selection, hmem]
  · simp only [h.fields chain node name hnode, Setting.selection, hmem]
  · simp only [h.links, Setting.selection, hmem]

end Projection

theorem Catalog.walk_of_tableAt? {catalog : Catalog} : ∀ {segments : List String} {table t : Table},
    catalog.tableAt? table segments = some t → ∃ steps, walk catalog table segments = some steps
  | [], _, _, _ => ⟨[], rfl⟩
  | segment :: rest, table, t, h => by
    obtain ⟨next, hnext, hrest⟩ := Option.bind_eq_some_iff.mp h
    obtain ⟨r, hr, ht⟩ := Option.bind_eq_some_iff.mp hnext
    obtain ⟨steps, hsteps⟩ := walk_of_tableAt? hrest
    exact ⟨.relation r next :: steps, by simp [walk, hr, ht, hsteps]⟩

/-- A walk that ends in a relation leads to a table. -/
theorem Catalog.isSome_tableAt?_of_walk {catalog : Catalog} : ∀ {segments : List String} {table : Table}
    {steps : List PathStep}, walk catalog table segments = some steps → steps.getLast?.any (·.isRelation) = true →
      (catalog.tableAt? table segments).isSome = true
  | [], _, _, _, _ => rfl
  | segment :: rest, table, steps, hwalk, hlast => by
    unfold walk at hwalk
    split at hwalk
    case h_1 r hr =>
      split at hwalk
      case h_1 target ht =>
        obtain ⟨later, hlater, rfl⟩ := Option.map_eq_some_iff.mp hwalk
        simp only [tableAt?, hr, ht, Option.bind_some]
        rcases eq_or_ne later [] with rfl | hne
        · rw [List.length_eq_zero_iff.mp (length_of_walk hlater).symm]
          rfl
        · rw [List.getLast?_cons_of_ne_nil hne] at hlast
          exact isSome_tableAt?_of_walk hlater hlast
      case h_2 => cases hwalk
    case h_2 =>
      -- a column is the last step, and is no relation
      split at hwalk
      · split at hwalk
        · cases hwalk
          cases hlast
        · cases hwalk
      · cases hwalk

/-- What stands before a star that is not dropped is a chain of relations. -/
theorem Setting.isSome_tableAt?_parent {s : Setting} {path : Path} (hw : path.isWildcard = true)
    (hkept : s.losesField path = false) : (s.tableAt? path.parent.segments).isSome = true := by
  rw [losesField, if_pos hw, Bool.and_eq_false_iff, Bool.not_eq_false', Bool.not_eq_false'] at hkept
  rcases hkept with hempty | hopens
  · rw [List.isEmpty_iff.mp hempty]
    rfl
  · rw [opens, Option.any_eq_true] at hopens
    obtain ⟨step, hstep, hrelation⟩ := hopens
    obtain ⟨steps, hsteps, hlast⟩ := Option.bind_eq_some_iff.mp hstep
    refine Catalog.isSome_tableAt?_of_walk hsteps ?_
    rw [hlast]
    exact hrelation

/-- A path asks for the records of every relation that it names. -/
theorem Setting.asked_of_names {s : Setting} {path : Path} {chain : List String} {name : String}
    (hkept : s.losesField path = false) (hway : chain ++ [name] <+: path.names)
    (htable : (s.tableAt? (chain ++ [name])).isSome = true) : ∃ c ∈ (s.asked path).chains, chain ++ [name] <+: c := by
  rw [asked, hkept, if_neg Bool.false_ne_true]
  unfold Path.names at hway
  split at hway
  case isTrue hw =>
    obtain ⟨t, ht⟩ := Option.isSome_iff_exists.mp (isSome_tableAt?_parent hw hkept)
    rw [if_pos hw, ht]
    exact ⟨_, by simp [Selection.everything, Selection.records, Selection.append_def], hway⟩
  case isFalse hw =>
    rw [if_neg hw]
    split
    · exact ⟨_, List.mem_singleton.mpr rfl, hway⟩
    · -- the last name is that of a column, so the relation stands before it
      rename_i hcolumn
      refine ⟨_, List.mem_singleton.mpr rfl, ?_⟩
      obtain ⟨rest, hrest⟩ := hway
      rcases List.eq_nil_or_concat rest with rfl | ⟨init, last, rfl⟩
      · rw [List.append_nil] at hrest
        exact absurd (hrest ▸ htable) hcolumn
      · refine ⟨init, ?_⟩
        rw [Path.parent, ← hrest, List.concat_eq_append, ← List.append_assoc, List.dropLast_concat]

/-- The plan has a join of the relation that a chain ends in. -/
theorem JoinPlan.Located.carries {p : JoinPlan} {s : Setting} {chain : List String} {name tableAlias : String}
    {table : Table} (h : p.Located s .forProjection (chain ++ [name]) tableAlias table) :
    p.Carries .forProjection (dotted (chain ++ [name])) := by
  obtain ⟨hops, path, htrail, hnames⟩ := h
  have hpath := htrail.path_eq
  cases htrail with
  | root => simp at hnames
  | step _ _ _ _ hstands =>
    obtain ⟨j, hj, hjoin, -, hwithin⟩ := hstands
    exact ⟨j, hj, hjoin.trans (hpath.trans (congrArg dotted hnames)), hwithin .forProjection rfl⟩

namespace Projection

variable {s : Setting} {q q' : Projection} {d d' : Draft}

/-- The records of a projection are at the ends of chains of joins. -/
theorem ofFields_located {fields : List Path} (hdistinct : s.catalog.Distinct) (hroot : s.root ∈ s.catalog.tables)
    (hp : d.plan.Regular) (h : ofFields s fields d = .ok (q, d')) {chain : List String}
    (hchain : (q.shape.at? chain).isSome = true) :
    ∃ tableAlias table, d'.plan.Located s .forProjection chain tableAlias table := by
  obtain ⟨hrecorded, -⟩ := ofFields_recorded hdistinct hroot hp h
  obtain ⟨q₁, hadd, rfl⟩ := ofFields_eq_ok.mp h
  obtain ⟨-, -, hsound, -, -⟩ := addPaths_shows hdistinct hroot hp (sound_start _ _) hadd
  obtain ⟨node, hnode⟩ := Option.isSome_iff_exists.mp hchain
  -- every record has its key, which is read from the table at its chain
  obtain ⟨t, -, -, hhead, -⟩ := hrecorded chain node hnode
  obtain ⟨tableAlias, table, hlocated, -⟩ := hsound.shape.fields chain node hnode _ (List.mem_of_head? hhead)
  exact ⟨tableAlias, table, hlocated⟩

/-- What a field list selects depends on the paths in it alone, and not on their order or repetition. A relation that one
of them names, at its end or on its way to a column or a star, is joined, even if a star defers it. -/
theorem ofFields_same {fields fields' : List Path} {rootAlias : String} (hdistinct : s.catalog.Distinct)
    (hroot : s.root ∈ s.catalog.tables) (hsame : ∀ path, path ∈ fields ↔ path ∈ fields')
    (h : ofFields s fields ⟨.start rootAlias, []⟩ = .ok (q, d))
    (h' : ofFields s fields' ⟨.start rootAlias, []⟩ = .ok (q', d')) :
    q.Alike q' ∧ (∀ text, text ∈ d.skipped ↔ text ∈ d'.skipped) ∧
      ∀ path ∈ fields, s.losesField path = false → ∀ chain name, chain ++ [name] <+: path.names →
        (s.tableAt? (chain ++ [name])).isSome = true →
          (∃ node b, q.shape.at? chain = some node ∧ node.branch? name = some b ∧ s.manyAt? chain name = some b.many) ∧
            d.plan.Carries .forProjection (dotted (chain ++ [name])) ∧ ∀ l ∈ q.deferred, l.chain ≠ chain ++ [name] := by
  -- without paths all fields are asked for, so both lists have some or neither has
  have hpaths : ∀ path, path ∈ fieldPaths fields ↔ path ∈ fieldPaths fields' := by
    have hempty : fields.isEmpty = fields'.isEmpty := by
      rw [Bool.eq_iff_iff, List.isEmpty_iff, List.isEmpty_iff, List.eq_nil_iff_forall_not_mem,
        List.eq_nil_iff_forall_not_mem]
      simp only [hsame]
    intro path
    rw [fieldPaths, fieldPaths, hempty]
    split
    · exact Iff.rfl
    · exact hsame path
  have hstart := JoinPlan.regular_start rootAlias
  have hselected := ofFields_selected hdistinct hroot hstart h
  have hselected' := ofFields_selected hdistinct hroot hstart h'
  refine ⟨(hselected.congr hpaths).alike hselected', fun text => ?_, fun path hpath hkept chain name hway htable => ?_⟩
  · rw [(ofFields_adds fields).skipped h, (ofFields_adds fields').skipped h', List.nil_append, List.nil_append]
    simp [Setting.reportedFields, hsame]
  · have hmem : path ∈ fieldPaths fields := by
      rw [fieldPaths, if_neg (by simp [List.ne_nil_of_mem hpath])]
      exact hpath
    have hjoined : (q.shape.at? (chain ++ [name])).isSome = true := by
      obtain ⟨c, hc, hprefix⟩ := Setting.asked_of_names hkept hway htable
      exact (hselected.chains _).mpr (Or.inr ⟨c, List.mem_flatMap.mpr ⟨path, hmem, hc⟩, hprefix⟩)
    obtain ⟨below, hbelow⟩ := Option.isSome_iff_exists.mp hjoined
    obtain ⟨node, b, hnode, hb⟩ := Shape.branch?_of_at? hbelow
    obtain ⟨tableAlias, table, hlocated⟩ := ofFields_located hdistinct hroot hstart h hjoined
    refine ⟨⟨node, b, hnode, hb, hselected.many chain node name b hnode hb⟩, hlocated.carries, fun l hl heq => ?_⟩
    have hfalse := ((hselected.links _ _).mp ⟨l, hl, rfl, rfl⟩).2
    rw [show l.parentChain ++ [l.name] = chain ++ [name] from heq, hjoined] at hfalse
    cases hfalse

theorem ofFields_same_blog :
    (∀ path, path ∈ Path.listOf ["*, author.*, tags.label", "nowhere"] ↔
        path ∈ Path.listOf ["nowhere, tags.label", "author.*, *, tags.label"]) ∧
      ∃ q d q' d',
        ofFields .blog (Path.listOf ["*, author.*, tags.label", "nowhere"]) ⟨.start "r", []⟩ = .ok (q, d) ∧
        ofFields .blog (Path.listOf ["nowhere, tags.label", "author.*, *, tags.label"]) ⟨.start "r", []⟩ = .ok (q', d') ∧
        q.Alike q' ∧ (∀ text, text ∈ d.skipped ↔ text ∈ d'.skipped) ∧ d.skipped = ["nowhere"] ∧
        (∃ b, q.shape.branch? "tags" = some b ∧ b.many = true) ∧ d.plan.Carries .forProjection "tags" ∧
        (∀ l ∈ q.deferred, l.chain ≠ ["tags"]) ∧
        q.deferred.map (·.path) = ["author.posts"] := by
  have hpaths : Path.listOf ["*, author.*, tags.label", "nowhere"] = [⟨["*"]⟩, ⟨["author", "*"]⟩, ⟨["tags", "label"]⟩, ⟨["nowhere"]⟩] := by
    decide +kernel
  have hpaths' : Path.listOf ["nowhere, tags.label", "author.*, *, tags.label"] =
      [⟨["nowhere"]⟩, ⟨["tags", "label"]⟩, ⟨["author", "*"]⟩, ⟨["*"]⟩, ⟨["tags", "label"]⟩] := by
    decide +kernel
  have hsame : ∀ path, path ∈ Path.listOf ["*, author.*, tags.label", "nowhere"] ↔
      path ∈ Path.listOf ["nowhere, tags.label", "author.*, *, tags.label"] := by
    intro path
    simp only [hpaths, hpaths', List.mem_cons, List.not_mem_nil, or_false]
    tauto
  obtain ⟨⟨q, d⟩, h⟩ := exists_eq_ok (x := ofFields .blog (Path.listOf ["*, author.*, tags.label", "nowhere"])
    ⟨.start "r", []⟩) (by decide +kernel)
  obtain ⟨⟨q', d'⟩, h'⟩ := exists_eq_ok (x := ofFields .blog (Path.listOf ["nowhere, tags.label", "author.*, *, tags.label"])
    ⟨.start "r", []⟩) (by decide +kernel)
  have hfound : (ofFields .blog (Path.listOf ["*, author.*, tags.label", "nowhere"]) ⟨.start "r", []⟩).toOption.map
      (fun found => (found.2.skipped, found.1.deferred.map (·.path))) = some (["nowhere"], ["author.posts"]) := by
    decide +kernel
  rw [h] at hfound
  obtain ⟨hskipped, hdeferred⟩ := Prod.mk.inj (Option.some.inj hfound)
  obtain ⟨halike, htexts, hnamed⟩ := ofFields_same Catalog.distinct_blog (by decide +kernel) hsame h h'
  have hmem : (⟨["tags", "label"]⟩ : Path) ∈ Path.listOf ["*, author.*, tags.label", "nowhere"] := by
    rw [hpaths]
    decide
  obtain ⟨⟨node, b, hnode, hb, hmany⟩, hcarries, hapart⟩ :=
    hnamed ⟨["tags", "label"]⟩ hmem (by decide +kernel) [] "tags" (by decide +kernel) (by decide +kernel)
  have htags : Setting.manyAt? .blog [] "tags" = some true := by decide +kernel
  have hjoined : ∃ b, q.shape.branch? "tags" = some b ∧ b.many = true := by
    cases hnode
    exact ⟨b, hb, Option.some.inj (hmany.symm.trans htags)⟩
  exact ⟨hsame, q, d, q', d', h, h', halike, htexts, hskipped, hjoined, hcarries, hapart, hdeferred⟩

end Projection
end RecordService
