import Mathlib.Data.Set.List
import RecordService.Proofs.Plan.Records
import RecordService.Proofs.Record.Grouping
import RecordService.Proofs.Record.Loading
import RecordService.Proofs.Record.Runs

/-! # Collapsed records

Whether a related record is replaced by its key is decided object by object, by the number of keys. That number is the
same for all objects of a relation on the first level, in all records (`Projection.Laid`): rows give them the keys of
their shape and links one key more each, whatever is in the rows and in the replies. So a relation is collapsed
everywhere or nowhere, as the shape and the links of the projection say (`FindPlan.compile_collapses`). -/

namespace RecordService

/-! ### Entries -/

namespace Entries

variable {es : Entries} {key : String} {change : Json → Json}

theorem keys_modify (es : Entries) (key : String) (change : Json → Json) :
    (es.modify key change).map (·.1) = es.map (·.1) := by
  induction es with
  | nil => rfl
  | cons entry rest ih =>
    rw [modify]
    split
    · rfl
    · rw [List.map_cons, List.map_cons, ih]

theorem keys_put_of_not_mem (h : key ∉ es.map (·.1)) (value : Json) :
    (es.put key value).map (·.1) = es.map (·.1) ++ [key] := by
  rw [put_of_not_mem h, List.map_append, List.map_singleton]

theorem get?_of_mem (hkeys : (es.map (·.1)).Nodup) {e : String × Json} (he : e ∈ es) : es.get? e.1 = some e.2 := by
  induction es with
  | nil => exact absurd he List.not_mem_nil
  | cons entry rest ih =>
    obtain ⟨hentry, hrest⟩ := List.nodup_cons.mp hkeys
    rw [get?_cons]
    rcases List.mem_cons.mp he with rfl | he
    · rw [if_pos rfl]
    · have hne : entry.1 ≠ e.1 := fun heq => hentry (List.mem_map.mpr ⟨e, he, heq.symm⟩)
      rw [if_neg hne, ih hrest he]

end Entries

/-! ### Related records -/

namespace Json

/-- Objects that have these keys in this order: an array of them, or one or null. -/
inductive Objects (keys : List String) : Json → Prop
  | null : Objects keys .null
  | one {es : Entries} : es.map (·.1) = keys → Objects keys (.obj es)
  | many {items : List Entries} : (∀ es ∈ items, es.map (·.1) = keys) → Objects keys (.arr (items.map .obj))

/-- The one document has objects with nothing but a key where the other has the values. -/
inductive Bared (key : String) : Json → Json → Prop
  | null : Bared key .null .null
  | one (v : Json) : Bared key (.obj [(key, v)]) v
  | many (values : List Json) : Bared key (.arr (values.map fun v => .obj [(key, v)])) (.arr values)

/-- All objects of the document have several keys. -/
inductive Spared : Json → Prop
  | null : Spared .null
  | one {es : Entries} : 1 < es.length → Spared (.obj es)
  | many {items : List Entries} : (∀ es ∈ items, 1 < es.length) → Spared (.arr (items.map .obj))

variable {keys keys' : List String} {v : Json}

theorem Objects.modifyAt {change : Entries → Entries} {chain : List String} (h : v.Objects keys)
    (hchange : ∀ es : Entries, es.map (·.1) = keys → (within change chain es).map (·.1) = keys') :
    (Json.modifyAt change chain v).Objects keys' := by
  cases h with
  | null =>
    rw [modifyAt_scalar change rfl]
    exact .null
  | one hkeys =>
    rw [modifyAt_obj]
    exact .one (hchange _ hkeys)
  | @many items hkeys =>
    have hitems : (items.map Json.obj).map (Json.modifyAt change chain) = (items.map (within change chain)).map .obj := by
      rw [List.map_map, List.map_map]
      exact List.map_congr_left fun es _ => modifyAt_obj change chain es
    rw [modifyAt_arr, hitems]
    refine .many fun es hes => ?_
    obtain ⟨before, hbefore, rfl⟩ := List.mem_map.mp hes
    exact hchange before (hkeys before hbefore)

theorem eq_single {es : Entries} {key : String} (h : es.map (·.1) = [key]) : ∃ v, [(key, v)] = es := by
  obtain ⟨⟨k, v⟩, rfl, hkey⟩ := List.map_eq_singleton_iff.mp h
  cases hkey
  exact ⟨v, rfl⟩

/-- A list whose members all have a form is the list of what they have in it. -/
theorem exists_map_eq {α β : Type} {f : α → β} {items : List β} (h : ∀ d ∈ items, ∃ a, f a = d) :
    ∃ values : List α, values.map f = items := by
  rw [← Set.mem_range, Set.range_list_map]
  exact h

theorem collapse_single (key : String) (v : Json) : (Json.obj [(key, v)]).collapse key = v := by
  simp [collapse]

theorem collapse_of_lt {es : Entries} (h : 1 < es.length) (key : String) : (Json.obj es).collapse key = .obj es := by
  match es, h with
  | _ :: _ :: _, _ => rfl

/-- Objects that have nothing but the key are replaced by it. -/
theorem Objects.bared {key : String} (h : v.Objects [key]) : v.Bared key (v.collapseAll key) := by
  cases h with
  | null => exact .null
  | one hkeys =>
    obtain ⟨v, rfl⟩ := eq_single hkeys
    have hvalue : (Json.obj [(key, v)]).collapseAll key = v := collapse_single key v
    rw [hvalue]
    exact .one v
  | many hkeys =>
    obtain ⟨values, rfl⟩ := exists_map_eq fun es hes => eq_single (hkeys es hes)
    have hitems : (values.map fun v => [(key, v)]).map Json.obj = values.map fun v => .obj [(key, v)] := List.map_map
    have hvalues : values.map (Json.collapse key ∘ fun v => .obj [(key, v)]) = values :=
      (List.map_congr_left fun v _ => collapse_single key v).trans (List.map_id values)
    rw [hitems, collapseAll, List.map_map, hvalues]
    exact .many values

/-- Objects that have more keys stay as they are. -/
theorem Objects.spared (h : v.Objects keys) (hkeys : 1 < keys.length) (key : String) :
    v.Spared ∧ v.collapseAll key = v := by
  have hlength {es : Entries} (hes : es.map (·.1) = keys) : 1 < es.length := by
    rwa [← hes, List.length_map] at hkeys
  cases h with
  | null => exact ⟨.null, rfl⟩
  | one hes => exact ⟨.one (hlength hes), collapse_of_lt (hlength hes) key⟩
  | many hes =>
    refine ⟨.many fun es h => hlength (hes es h), ?_⟩
    rw [collapseAll, List.map_map]
    exact congrArg arr (List.map_congr_left fun es h => collapse_of_lt (hlength (hes es h)) key)

end Json

/-! ### Keys of objects -/

/-- The keys that the objects of a shape have once some links are loaded: fields, relations, and links from there. -/
def Shape.keysWith (s : Shape) (chain : List String) (links : List DeferredLink) : List String :=
  s.fields.map (·.name) ++ s.relations.map (·.name) ++ (links.filter (·.parentChain == chain)).map (·.name)

namespace Shape

variable {s : Shape} {chain : List String} {links : List DeferredLink} {l : DeferredLink}

theorem keysWith_nil (s : Shape) (chain : List String) :
    s.keysWith chain [] = s.fields.map (·.name) ++ s.relations.map (·.name) :=
  List.append_nil _

theorem keysWith_here (s : Shape) (links : List DeferredLink) (l : DeferredLink) :
    s.keysWith l.parentChain (links ++ [l]) = s.keysWith l.parentChain links ++ [l.name] := by
  simp [keysWith]

theorem keysWith_elsewhere (h : l.parentChain ≠ chain) : s.keysWith chain (links ++ [l]) = s.keysWith chain links := by
  simp [keysWith, h]

theorem keysWith_sublist {links' : List DeferredLink} (h : links.Sublist links') :
    (s.keysWith chain links).Sublist (s.keysWith chain links') :=
  (List.Sublist.refl _).append ((h.filter _).map _)

end Shape

namespace Projection

/-- The objects of the root and of its relations have different keys, the first of which is that of the record, and
links hang below relations that are there. -/
structure Separate (p : Projection) : Prop where
  root : (p.shape.keysWith [] p.deferred).Nodup
  below : ∀ b ∈ p.shape.relations, (b.shape.keysWith [b.name] p.deferred).Nodup
  key : ∀ b ∈ p.shape.relations, b.shape.fields.head? = some ⟨b.shape.keyName, b.shape.keySlot⟩
  way : ∀ l ∈ p.deferred, ∀ name rest, l.parentChain = name :: rest →
    ∃ b ∈ p.shape.relations, b.name = name ∧ (rest ≠ [] → b.shape.relations ≠ [])

/-- The record has the keys of the shape and of the links that are loaded, and so have the objects of its relations. -/
structure Laid (p : Projection) (links : List DeferredLink) (r : Entries) : Prop where
  keys : r.map (·.1) = p.shape.keysWith [] links
  joined : ∀ b ∈ p.shape.relations, ∃ v, r.get? b.name = some v ∧ v.Objects (b.shape.keysWith [b.name] links)
  linked : ∀ l ∈ links, l.parentChain = [] → ∃ values : List Json,
    r.get? l.name = some (.arr (values.map fun v => .obj [(l.targetKey, v)]))

end Projection

/-! ### Rows -/

namespace Partial

variable (columns : List SelectColumn)

theorem relationOf_fst (b : Branch Shape) (rows : List (List Cell)) : (relationOf columns b rows).1 = b.name := by
  obtain ⟨name, many, shape⟩ := b
  rfl

theorem relationsOf_eq (relations : List (Branch Shape)) (rows : List (List Cell)) :
    relationsOf columns relations rows = relations.map (relationOf columns · rows) := by
  induction relations with
  | nil => rfl
  | cons b rest ih => rw [relationsOf, ih, List.map_cons]

/-- The object of a group has the fields and then the relations of the shape, if their names differ. -/
theorem keys_objectOf {s : Shape} (h : (s.fields.map (·.name) ++ s.relations.map (·.name)).Nodup)
    (rows : List (List Cell)) :
    (objectOf columns s rows).map (·.1) = s.fields.map (·.name) ++ s.relations.map (·.name) ∧
      ∀ b ∈ s.relations, (objectOf columns s rows).get? b.name = some (relationOf columns b rows).2 := by
  obtain ⟨keyName, keySlot, slots, relations⟩ := s
  have hrelations : (relationsOf columns relations rows).map (·.1) = relations.map (·.name) := by
    rw [relationsOf_eq, List.map_map]
    exact List.map_congr_left fun b _ => relationOf_fst columns b rows
  have hkeys : ((slots.map fun f => (f.name, (cellAt (rows.headD []) f.slot).toJson ((columns[f.slot]?).map (·.type)))) ++
      relationsOf columns relations rows).map (·.1) = slots.map (·.name) ++ relations.map (·.name) := by
    rw [List.map_append, hrelations, List.map_map]
    rfl
  rw [objectOf, Entries.putAll_of_nodup (hkeys ▸ h)]
  refine ⟨hkeys, fun b hb => ?_⟩
  have hmem : relationOf columns b rows ∈ relationsOf columns relations rows := by
    rw [relationsOf_eq]
    exact List.mem_map_of_mem hb
  have hget := Entries.get?_of_mem (hkeys ▸ h) (List.mem_append_right _ hmem)
  rwa [relationOf_fst] at hget

end Partial

namespace Projection
open Partial

variable {p : Projection} {links : List DeferredLink} {l : DeferredLink} {r : Entries}

/-- Related records have the keys of their shape. -/
theorem objects_relationOf {columns : List SelectColumn} {b : Branch Shape}
    (h : (b.shape.fields.map (·.name) ++ b.shape.relations.map (·.name)).Nodup) (rows : List (List Cell)) :
    (relationOf columns b rows).2.Objects (b.shape.fields.map (·.name) ++ b.shape.relations.map (·.name)) := by
  obtain ⟨name, many, shape⟩ := b
  have hkeys (group : List (List Cell)) := (keys_objectOf columns h group).1
  rw [relationOf]
  cases many with
  | true =>
    have hitems : ((groupsBy (relatedKey shape) rows).map fun group => Json.obj (objectOf columns shape group)) =
        ((groupsBy (relatedKey shape) rows).map (objectOf columns shape)).map .obj := by
      rw [List.map_map]
      rfl
    rw [if_pos rfl, hitems]
    refine .many fun es hes => ?_
    obtain ⟨group, -, rfl⟩ := List.mem_map.mp hes
    exact hkeys group
  | false =>
    cases groupsBy (relatedKey shape) rows with
    | nil => exact .null
    | cons group rest => exact .one (hkeys group)

/-- Records from rows have the keys of their shape. -/
theorem laid_hydrate (hp : p.Separate) (rows : List (List Cell)) : ∀ r ∈ p.hydrate rows, p.Laid [] r := by
  intro r hr
  rw [hydrate_eq] at hr
  obtain ⟨group, -, rfl⟩ := List.mem_map.mp hr
  have hroot := hp.root.sublist (Shape.keysWith_sublist (List.nil_sublist p.deferred))
  rw [Shape.keysWith_nil] at hroot
  obtain ⟨hkeys, hget⟩ := keys_objectOf p.columns hroot group
  refine ⟨hkeys.trans (Shape.keysWith_nil _ _).symm, fun b hb => ?_, fun l hl => absurd hl List.not_mem_nil⟩
  have hbelow := (hp.below b hb).sublist (Shape.keysWith_sublist (List.nil_sublist p.deferred))
  rw [Shape.keysWith_nil] at hbelow ⊢
  exact ⟨_, hget b hb, objects_relationOf hbelow group⟩

/-! ### Links -/

theorem mem_keysWith_link {s : Shape} {chain : List String} (hl : l ∈ links) (hchain : l.parentChain = chain) :
    l.name ∈ s.keysWith chain links :=
  List.mem_append_right _ (List.mem_map_of_mem (List.mem_filter.mpr ⟨hl, by simp [hchain]⟩))

theorem mem_keysWith_branch {s : Shape} {b : Branch Shape} (hb : b ∈ s.relations) (chain : List String) :
    b.name ∈ s.keysWith chain links :=
  List.mem_append_left _ (List.mem_append_right _ (List.mem_map_of_mem hb))

/-- A link on the first level does not have the name of a joined relation. -/
theorem Separate.name_ne (hp : p.Separate) {b : Branch Shape} (hb : b ∈ p.shape.relations) (hl : l ∈ p.deferred)
    (hchain : l.parentChain = []) : b.name ≠ l.name := by
  have hroot := hp.root
  rw [Shape.keysWith, List.nodup_append] at hroot
  exact hroot.2.2 _ (List.mem_append_right _ (List.mem_map_of_mem hb)) _
    (List.mem_map_of_mem (List.mem_filter.mpr ⟨hl, by simp [hchain]⟩))

/-- A link that comes next has a new name where it is put. -/
theorem not_mem_keysWith {s : Shape} {rest : List DeferredLink}
    (h : (s.keysWith l.parentChain (links ++ l :: rest)).Nodup) : l.name ∉ s.keysWith l.parentChain links := by
  have hhere := h.sublist (Shape.keysWith_sublist (List.Sublist.append_left (List.singleton_sublist.mpr List.mem_cons_self) links))
  rw [Shape.keysWith_here] at hhere
  exact fun hmem => (List.nodup_append.mp hhere).2.2 _ hmem _ (List.mem_singleton.mpr rfl) rfl

variable {related : List (String × Json)} {rest : List DeferredLink}

/-- A link on the first level adds its key to the record. -/
theorem Laid.attach (hp : p.Separate) (hlinks : p.deferred = links ++ l :: rest)
    (hrelated : ∀ e ∈ related, ∃ v, .obj [(l.targetKey, v)] = e.2) (hchain : l.parentChain = []) (h : p.Laid links r) :
    p.Laid (links ++ [l]) (l.attach related r) := by
  have hroot := hp.root
  rw [hlinks, ← hchain] at hroot
  have hnew := not_mem_keysWith hroot
  rw [hchain, ← h.keys] at hnew
  -- the name of the link is new, so every other key keeps its value
  have hother {name : String} (hname : name ∈ r.map (·.1)) (value : Json) :
      (r.put l.name value).get? name = r.get? name := by
    rw [Entries.get?_put, if_neg]
    rintro rfl
    exact hnew hname
  refine ⟨?_, fun b hb => ?_, fun l' hl' hchain' => ?_⟩
  · have hkeys := Shape.keysWith_here p.shape links l
    rw [hchain] at hkeys
    rw [DeferredLink.attach, Entries.keys_put_of_not_mem hnew, h.keys, hkeys]
  · obtain ⟨v, hv, hobjects⟩ := h.joined b hb
    rw [Shape.keysWith_elsewhere (by simp [hchain]), DeferredLink.attach,
      hother (h.keys ▸ mem_keysWith_branch hb []), hv]
    exact ⟨v, rfl, hobjects⟩
  · rcases List.mem_append.mp hl' with hl' | hl'
    · rw [DeferredLink.attach, hother (h.keys ▸ mem_keysWith_link hl' hchain')]
      exact h.linked l' hl' hchain'
    · obtain rfl := List.mem_singleton.mp hl'
      have hforms : ∀ d ∈ (related.filter (·.1 == (l'.parentKey r).identity)).map (·.2),
          ∃ v, .obj [(l'.targetKey, v)] = d := by
        intro d hd
        obtain ⟨e, he, rfl⟩ := List.mem_map.mp hd
        exact hrelated e (List.mem_filter.mp he).1
      obtain ⟨values, hvalues⟩ := Json.exists_map_eq hforms
      refine ⟨values, ?_⟩
      rw [DeferredLink.attach, Entries.get?_put, if_pos rfl, hvalues]

/-- A link further down changes the objects of one relation, to which it adds its key if they are its parents. -/
theorem Laid.attachBelow (hp : p.Separate) (hlinks : p.deferred = links ++ l :: rest) {name : String}
    {chain : List String} (hchain : l.parentChain = name :: chain) (h : p.Laid links r) :
    p.Laid (links ++ [l]) (r.modify name (Json.modifyAt (l.attach related) chain)) := by
  have hl : l ∈ p.deferred := hlinks ▸ List.mem_append_right _ List.mem_cons_self
  have hsub : links ⊆ p.deferred := hlinks ▸ List.subset_append_left _ _
  refine ⟨?_, fun b hb => ?_, fun l' hl' hchain' => ?_⟩
  · rw [Entries.keys_modify, h.keys, Shape.keysWith_elsewhere (by simp [hchain])]
  · obtain ⟨v, hv, hobjects⟩ := h.joined b hb
    rw [Entries.get?_modify]
    by_cases hname : b.name = name
    · rw [if_pos hname, ← hname, hv]
      refine ⟨_, rfl, hobjects.modifyAt fun es hes => ?_⟩
      -- the objects of the relation are the parents, or have them further down
      cases chain with
      | nil =>
        rw [← hname] at hchain
        have hbelow := hp.below b hb
        rw [hlinks, ← hchain] at hbelow
        have hnew := not_mem_keysWith hbelow
        have hkeys := Shape.keysWith_here b.shape links l
        rw [hchain] at hkeys hnew
        rw [← hes] at hnew
        rw [Json.within, DeferredLink.attach, Entries.keys_put_of_not_mem hnew, hes, hkeys]
      | cons next more =>
        rw [Json.within, Entries.keys_modify, hes, Shape.keysWith_elsewhere (by simp [hchain])]
    · rw [if_neg hname, hv, Shape.keysWith_elsewhere (by simp [hchain, Ne.symm hname])]
      exact ⟨v, rfl, hobjects⟩
  · rcases List.mem_append.mp hl' with hl' | hl'
    · obtain ⟨b, hb, hname, -⟩ := hp.way l hl name chain hchain
      have hne : l'.name ≠ name := hname ▸ (hp.name_ne hb (hsub hl') hchain').symm
      rw [Entries.get?_modify, if_neg hne]
      exact h.linked l' hl' hchain'
    · rw [List.mem_singleton.mp hl', hchain] at hchain'
      cases hchain'

theorem Laid.load (hp : p.Separate) (hlinks : p.deferred = links ++ l :: rest)
    (hrelated : ∀ e ∈ related, ∃ v, .obj [(l.targetKey, v)] = e.2) (h : p.Laid links r) :
    p.Laid (links ++ [l]) (Json.within (l.attach related) l.parentChain r) := by
  cases hchain : l.parentChain with
  | nil => exact h.attach hp hlinks hrelated hchain
  | cons name chain => exact h.attachBelow hp hlinks hchain

end Projection

namespace DeferredLink

variable {l : DeferredLink} {events : List Event}

/-- Whatever a query for links is answered, a related record has its key and nothing else. -/
theorem loadAll_forms : ∀ {batches : List (List Cell)} {events : List Event} {related : List (String × Json)},
    (l.loadAll batches).Runs events (.ok related) → ∀ e ∈ related, ∃ v, .obj [(l.targetKey, v)] = e.2
  | [], _, related, h, e, he => by
    obtain ⟨-, hnone⟩ := Operation.runs_pure.mp h
    cases hnone
    exact absurd he List.not_mem_nil
  | keys :: rest, _, related, h, e, he => by
    obtain ⟨_, rows, _, -, h, -⟩ := Operation.runs_bind_ok.mp h
    obtain ⟨_, more, _, hmore, h, -⟩ := Operation.runs_bind_ok.mp h
    obtain ⟨-, hdone⟩ := Operation.runs_pure.mp h
    cases hdone
    rcases List.mem_append.mp he with he | he
    · obtain ⟨row, -, hrow⟩ := List.mem_filterMap.mp he
      unfold related? at hrow
      split at hrow
      · split at hrow
        · cases hrow
        · cases hrow
          exact ⟨_, rfl⟩
      · cases hrow
    · exact loadAll_forms hmore e he

theorem load_runs {records after : List Entries} (h : (l.load records).Runs events (.ok after)) :
    ∃ related : List (String × Json), (∀ e ∈ related, ∃ v, .obj [(l.targetKey, v)] = e.2) ∧
      after = records.map (Json.within (l.attach related) l.parentChain) := by
  obtain ⟨_, related, _, hrelated, h, -⟩ := Operation.runs_bind_ok.mp h
  obtain ⟨-, hdone⟩ := Operation.runs_pure.mp h
  cases hdone
  refine ⟨related, loadAll_forms hrelated, List.map_congr_left fun r _ => ?_⟩
  rw [Json.modifyAt_obj]

end DeferredLink

namespace Projection

variable {p : Projection} {r : Entries}

/-- Loaded records have the keys of their shape and of all links. -/
theorem laid_loadDeferred (hp : p.Separate) : ∀ {rest links : List DeferredLink} {records after : List Entries}
    {events : List Event}, p.deferred = links ++ rest → (∀ r ∈ records, p.Laid links r) →
      (loadDeferred rest records).Runs events (.ok after) → ∀ r ∈ after, p.Laid p.deferred r
  | [], links, records, after, events, hlinks, hrecords, hruns => by
    obtain ⟨-, hdone⟩ := Operation.runs_pure.mp hruns
    cases hdone
    rwa [hlinks, List.append_nil]
  | l :: rest, links, records, after, events, hlinks, hrecords, hruns => by
    obtain ⟨_, now, _, hload, hrest, -⟩ := Operation.runs_bind_ok.mp hruns
    obtain ⟨related, hrelated, rfl⟩ := DeferredLink.load_runs hload
    -- the records are laid for the links so far, of which this one is now the last
    refine laid_loadDeferred hp (hlinks.trans (List.append_cons links l rest)) (fun r hr => ?_) hrest
    obtain ⟨before, hbefore, rfl⟩ := List.mem_map.mp hr
    exact (hrecords before hbefore).load hp hlinks hrelated

/-! ### Collapsing -/

/-- The relation on the first level has records with a key and nothing else: by the shape, with no link below it, or as a
link. -/
def IsBare (p : Projection) (name : String) : Prop :=
  (∃ b ∈ p.shape.relations, b.name = name ∧ b.shape.fields.map (·.name) = [b.shape.keyName] ∧
    b.shape.relations.isEmpty = true ∧ ∀ l ∈ p.deferred, ¬[name] <+: l.parentChain) ∨
    ∃ l ∈ p.deferred, l.parentChain = [] ∧ l.name = name

instance (p : Projection) (name : String) : Decidable (p.IsBare name) :=
  inferInstanceAs (Decidable (_ ∨ _))

theorem Separate.eq_of_name (hp : p.Separate) {b c : Branch Shape} (hb : b ∈ p.shape.relations)
    (hc : c ∈ p.shape.relations) (h : c.name = b.name) : c = b := by
  have hnames := hp.root
  rw [Shape.keysWith, List.append_assoc, List.nodup_append] at hnames
  exact List.inj_on_of_nodup_map (List.nodup_append.mp hnames.2.1).1 hc hb h

/-- The objects of a joined relation have one key if it is bare, and several if it is not. -/
theorem Separate.keysWith_branch (hp : p.Separate) {b : Branch Shape} (hb : b ∈ p.shape.relations) :
    (p.IsBare b.name → b.shape.keysWith [b.name] p.deferred = [b.shape.keyName]) ∧
      (¬p.IsBare b.name → 1 < (b.shape.keysWith [b.name] p.deferred).length) := by
  constructor
  · rintro (⟨c, hc, hname, hfields, hrelations, hlinks⟩ | ⟨l, hl, hchain, hname⟩)
    · obtain rfl := hp.eq_of_name hb hc hname
      have hnone : p.deferred.filter (·.parentChain == [c.name]) = [] := by
        refine List.filter_eq_nil_iff.mpr fun l hl hchain => hlinks l hl ?_
        exact ⟨[], (beq_iff_eq.mp hchain).symm⟩
      simp only [Shape.keysWith, hfields, List.isEmpty_iff.mp hrelations, hnone, List.map_nil, List.append_nil]
    · exact absurd hname.symm (hp.name_ne hb hl hchain)
  · -- the key comes first, so one key in all leaves no room for other fields, relations or links
    intro hbare
    by_contra hfew
    obtain ⟨first, hfirst⟩ : ∃ rest, b.shape.fields = ⟨b.shape.keyName, b.shape.keySlot⟩ :: rest :=
      List.head?_eq_some_iff.mp (hp.key b hb)
    simp only [Shape.keysWith, hfirst, List.length_append, List.length_map, List.length_cons] at hfew
    have hfields : first = [] := List.length_eq_zero_iff.mp (by omega)
    have hrelations : b.shape.relations = [] := List.length_eq_zero_iff.mp (by omega)
    have hlinks : p.deferred.filter (·.parentChain == [b.name]) = [] := List.length_eq_zero_iff.mp (by omega)
    refine hbare (Or.inl ⟨b, hb, rfl, by simp [hfirst, hfields], List.isEmpty_iff.mpr hrelations, ?_⟩)
    rintro l hl ⟨rest, hchain⟩
    obtain ⟨c, hc, hname, hbelow⟩ := hp.way l hl b.name rest hchain.symm
    obtain rfl := hp.eq_of_name hb hc hname
    -- a link that hangs further down hangs below a relation of the object
    by_cases hrest : rest = []
    · have hmem : l ∈ p.deferred.filter (·.parentChain == [c.name]) :=
        List.mem_filter.mpr ⟨hl, by simp [← hchain, hrest]⟩
      rw [hlinks] at hmem
      exact absurd hmem List.not_mem_nil
    · exact hbelow hrest hrelations

theorem mem_topRelations {e : String × String} :
    e ∈ p.topRelations ↔ (∃ b ∈ p.shape.relations, (b.name, b.shape.keyName) = e) ∨
      ∃ l ∈ p.deferred, l.parentChain = [] ∧ (l.name, l.targetKey) = e := by
  simp [topRelations, and_assoc]

/-- The values of the relations on the first level. -/
theorem Laid.objects (hp : p.Separate) (h : p.Laid p.deferred r) {e : String × String} (he : e ∈ p.topRelations) :
    ∃ v keys, r.get? e.1 = some v ∧ v.Objects keys ∧ (p.IsBare e.1 → keys = [e.2]) ∧
      (¬p.IsBare e.1 → 1 < keys.length) := by
  rcases mem_topRelations.mp he with ⟨b, hb, rfl⟩ | ⟨l, hl, hchain, rfl⟩
  · obtain ⟨v, hv, hobjects⟩ := h.joined b hb
    obtain ⟨hone, hseveral⟩ := hp.keysWith_branch hb
    exact ⟨v, _, hv, hobjects, hone, hseveral⟩
  · obtain ⟨values, hv⟩ := h.linked l hl hchain
    have hitems : (values.map fun v => [(l.targetKey, v)]).map Json.obj = values.map fun v => .obj [(l.targetKey, v)] :=
      List.map_map
    refine ⟨_, [l.targetKey], hv, ?_, fun _ => rfl, fun hbare => absurd (Or.inr ⟨l, hl, hchain, rfl⟩) hbare⟩
    rw [← hitems]
    refine .many fun es hes => ?_
    obtain ⟨v, -, rfl⟩ := List.mem_map.mp hes
    rfl

theorem Separate.nodup_topRelations (hp : p.Separate) : (p.topRelations.map (·.1)).Nodup := by
  have hnames := hp.root
  rw [Shape.keysWith, List.append_assoc, List.nodup_append] at hnames
  have hfilter : (fun l : DeferredLink => l.parentChain == []) = fun l => l.parentChain.isEmpty := by
    funext l
    cases l.parentChain <;> rfl
  rw [hfilter] at hnames
  rw [topRelations, List.map_append, List.map_map, List.map_map]
  exact hnames.2.1

end Projection

namespace Entries

/-- Changes of different keys are made each to its own. -/
theorem get?_foldl_modify (change : String → Json → Json) : ∀ {tops : List (String × String)} (es : Entries),
    (tops.map (·.1)).Nodup →
      (∀ e ∈ tops, (tops.foldl (fun es e => es.modify e.1 (change e.2)) es).get? e.1 = (es.get? e.1).map (change e.2)) ∧
        ∀ name, name ∉ tops.map (·.1) →
          (tops.foldl (fun es e => es.modify e.1 (change e.2)) es).get? name = es.get? name
  | [], _, _ => ⟨fun _ he => absurd he List.not_mem_nil, fun _ _ => rfl⟩
  | top :: rest, es, h => by
    obtain ⟨htop, hrest⟩ := List.nodup_cons.mp h
    obtain ⟨hchanged, hkept⟩ := get?_foldl_modify change (es.modify top.1 (change top.2)) hrest
    refine ⟨fun e he => ?_, fun name hname => ?_⟩
    · rw [List.foldl_cons]
      rcases List.mem_cons.mp he with rfl | he
      · rw [hkept _ htop, get?_modify, if_pos rfl]
      · rw [hchanged e he, get?_modify, if_neg]
        exact fun heq => htop (List.mem_map.mpr ⟨e, he, heq⟩)
    · rw [List.map_cons, List.mem_cons, not_or] at hname
      rw [List.foldl_cons, hkept name hname.2, get?_modify, if_neg hname.1]

theorem keys_foldl_modify (change : String → Json → Json) (tops : List (String × String)) (es : Entries) :
    (tops.foldl (fun es e => es.modify e.1 (change e.2)) es).map (·.1) = es.map (·.1) := by
  induction tops generalizing es with
  | nil => rfl
  | cons top rest ih => rw [List.foldl_cons, ih, keys_modify]

end Entries

namespace Projection

variable {p : Projection} {r : Entries}

/-- How a record looks when it is collapsed: bare relations hold keys where they held objects, and all else is the
same. -/
structure Collapses (p : Projection) (r r' : Entries) : Prop where
  keys : r'.map (·.1) = r.map (·.1)
  distinct : (r.map (·.1)).Nodup
  bare : ∀ e ∈ p.topRelations, p.IsBare e.1 →
    ∃ v v', r.get? e.1 = some v ∧ r'.get? e.1 = some v' ∧ v.Bared e.2 v'
  spared : ∀ e ∈ p.topRelations, ¬p.IsBare e.1 → ∃ v, r.get? e.1 = some v ∧ r'.get? e.1 = some v ∧ v.Spared
  others : ∀ name, name ∉ p.topRelations.map (·.1) → r'.get? name = r.get? name

theorem Laid.collapses (hp : p.Separate) (h : p.Laid p.deferred r) : p.Collapses r (p.collapse r) := by
  obtain ⟨hchanged, hkept⟩ := Entries.get?_foldl_modify Json.collapseAll r hp.nodup_topRelations
  refine ⟨Entries.keys_foldl_modify Json.collapseAll p.topRelations r, h.keys ▸ hp.root, fun e he hbare => ?_,
    fun e he hbare => ?_, hkept⟩
  · obtain ⟨v, keys, hv, hobjects, hone, -⟩ := h.objects hp he
    rw [hone hbare] at hobjects
    refine ⟨v, _, hv, (hchanged e he).trans (congrArg _ hv), hobjects.bared⟩
  · obtain ⟨v, keys, hv, hobjects, -, hseveral⟩ := h.objects hp he
    obtain ⟨hspared, hsame⟩ := hobjects.spared (hseveral hbare) e.2
    have hcollapsed := (hchanged e he).trans (congrArg _ hv)
    rw [Option.map_some, hsame] at hcollapsed
    exact ⟨v, hv, hcollapsed, hspared⟩

/-! ### Projections of field lists -/

variable {s : Setting} {q : Projection}

/-- The keys of the objects at the end of a chain differ, since columns and relations of a table do. -/
theorem Recorded.keysWith_nodup {chain : List String} {node : Shape} (h : q.Recorded s) (hcharted : q.Charted s)
    (hplain : q.Plain) (hroot : s.root ∈ s.catalog.tables) (hchains : (q.deferred.map (·.chain)).Nodup)
    (hjoined : ∀ l ∈ q.deferred, q.shape.isJoined l.parentChain l.name = false)
    (hnode : q.shape.at? chain = some node) : (node.keysWith chain q.deferred).Nodup := by
  have hown := hplain node (Shape.mem_nodes_of_at? hnode)
  have hlinks : ((q.deferred.filter (·.parentChain == chain)).map (·.name)).Nodup := by
    have hsome : ((q.deferred.filter (·.parentChain == chain)).map (·.chain)).Nodup :=
      hchains.sublist (List.filter_sublist.map _)
    rw [List.map_congr_left fun l hl => show l.chain = chain ++ [l.name] by
      rw [DeferredLink.chain, beq_iff_eq.mp (List.mem_filter.mp hl).2]] at hsome
    refine List.Nodup.of_map (fun name => chain ++ [name]) ?_
    rwa [List.map_map]
  refine List.nodup_append.mpr ⟨h.names_nodup hcharted hplain hroot hnode, hlinks, ?_⟩
  -- a link is named like a relation: no column has the name, and no relation that is joined
  rintro name hname other hother rfl
  obtain ⟨l, hfiltered, rfl⟩ := List.mem_map.mp hother
  obtain ⟨hl, hchain⟩ := List.mem_filter.mp hfiltered
  obtain rfl := beq_iff_eq.mp hchain
  rcases List.mem_append.mp hname with hname | hname
  · obtain ⟨f, hf, hfield⟩ := List.mem_map.mp hname
    obtain ⟨t, ht, -, -, hcolumns⟩ := h _ node hnode
    obtain ⟨t', r, target, ht', hr, -, -, hlink, -⟩ := hcharted.deferred l hl
    rw [ht] at ht'
    cases ht'
    have hnone := Catalog.column?_relation (Setting.mem_of_tableAt? hroot ht) hr
    have hsome := hcolumns f hf
    rw [hfield, congrArg DeferredLink.name hlink, show (DeferredLink.ofRelation _ t r target).name = r.name from rfl,
      hnone] at hsome
    cases hsome
  · obtain ⟨b, hb, hbranch⟩ := List.mem_map.mp hname
    have hfalse := hjoined l hl
    have hfound : node.below? l.name = some b.shape := by
      rw [Shape.below?, ← hbranch, Catalog.find?_name hown.relations hb, Option.map_some]
    rw [Shape.isJoined, hnode, Option.bind_some, hfound] at hfalse
    cases hfalse

theorem Recorded.separate (h : q.Recorded s) (hcharted : q.Charted s) (hplain : q.Plain)
    (hroot : s.root ∈ s.catalog.tables) (hchains : (q.deferred.map (·.chain)).Nodup)
    (hjoined : ∀ l ∈ q.deferred, q.shape.isJoined l.parentChain l.name = false) : q.Separate := by
  have hown := hplain q.shape (@Shape.mem_nodes_of_at? q.shape [] q.shape rfl)
  have hbelow {b : Branch Shape} (hb : b ∈ q.shape.relations) : q.shape.at? [b.name] = some b.shape :=
    hown.at?_cons hb []
  refine ⟨h.keysWith_nodup hcharted hplain hroot hchains hjoined rfl,
    fun b hb => h.keysWith_nodup hcharted hplain hroot hchains hjoined (hbelow hb), fun b hb => ?_,
    fun l hl name rest hchain => ?_⟩
  · obtain ⟨-, -, -, hhead, -⟩ := h _ _ (hbelow hb)
    exact hhead
  · obtain ⟨-, -, -, -, -, -, -, -, node, hnode, -⟩ := hcharted.deferred l hl
    rw [hchain, Shape.at?_cons] at hnode
    obtain ⟨b, hb, hrest⟩ := Option.bind_eq_some_iff.mp hnode
    have hname := List.find?_some hb
    refine ⟨b, List.mem_of_find?_eq_some hb, beq_iff_eq.mp hname, fun hne hnone => ?_⟩
    cases rest with
    | nil => exact hne rfl
    | cons next more =>
      rw [Shape.at?_cons, Shape.branch?, hnone] at hrest
      cases hrest

/-- The key of a relation on the first level is that of its table. -/
theorem Recorded.key_topRelations (h : q.Recorded s) (hcharted : q.Charted s) (hplain : q.Plain)
    (hdistinct : s.catalog.Distinct) (hroot : s.root ∈ s.catalog.tables) {e : String × String}
    (he : e ∈ q.topRelations) : ∃ t, s.tableAt? [e.1] = some t ∧ e.2 = t.primaryKey := by
  rcases mem_topRelations.mp he with ⟨b, hb, rfl⟩ | ⟨l, hl, hchain, rfl⟩
  · have hown := hplain q.shape (@Shape.mem_nodes_of_at? q.shape [] q.shape rfl)
    obtain ⟨t, ht, hkey, -⟩ := h _ _ (hown.at?_cons hb [])
    exact ⟨t, ht, hkey⟩
  · obtain ⟨t, r, target, ht, hr, htarget, -, hlink, -⟩ := hcharted.deferred l hl
    rw [hchain] at ht
    obtain rfl : s.root = t := Option.some.inj ht
    have hrelation := Catalog.relation?_name (hdistinct s.root hroot) hr
    refine ⟨target, ?_, congrArg DeferredLink.targetKey hlink⟩
    have htable := s.tableAt?_concat [] r.name
    rw [ht, Option.bind_some, hrelation, Option.bind_some, htarget] at htable
    rw [congrArg DeferredLink.name hlink]
    exact htable

end Projection

namespace FindPlan

variable {p : FindPlan}

/-- Every record of a plan has its bare relations collapsed and nothing else changed, whatever rows and links the store
answers. Which relations are bare is said by the projection, and the keys are those of their tables. -/
theorem compile_collapses {catalog : Catalog} {table : String} {request : FindRequest} {options : CompileOptions}
    (hdistinct : catalog.Distinct) (h : compile catalog table request options = .ok p) :
    (∀ rows loading loaded,
      (Projection.loadDeferred p.projection.deferred (p.projection.hydrate rows)).Runs loading (.ok loaded) →
        ∀ r ∈ loaded, p.projection.Collapses r (p.projection.collapse r)) ∧
      (∃ root, catalog.table? table = some root ∧ ∀ e ∈ p.projection.topRelations,
        ∃ t, catalog.tableAt? root [e.1] = some t ∧ e.2 = t.primaryKey) ∧
      ∀ events result, p.run.Runs events (.ok result) → ∃ rows loading loaded rest,
        events = ⟨.query (.rows p.data), .ok rows⟩ :: ⟨.ended .execute, ()⟩ :: (loading ++ rest) ∧
          (Projection.loadDeferred p.projection.deferred (p.projection.hydrate rows.cells)).Runs loading (.ok loaded) ∧
          result.data = loaded.map p.projection.collapse := by
  obtain ⟨counts, aggregates, s, c, -, -, hsetting, hparts, rfl⟩ := compile_eq_ok.mp h
  obtain ⟨d₁, d₂, d₃, hproj, -, -, -⟩ := CompiledParts.compile_eq_ok.mp hparts
  obtain ⟨-, root, htable, rfl⟩ := setting_eq_ok.mp hsetting
  have hroot : root ∈ catalog.tables := Catalog.mem_of_table? htable
  obtain ⟨hrecorded, hcharted, hplain, hchains, hjoined⟩ :=
    Projection.ofFields_recorded hdistinct hroot (JoinPlan.regular_start _) hproj
  have hseparate := hrecorded.separate hcharted hplain hroot hchains hjoined
  refine ⟨fun rows loading loaded hloading r hr => ?_, ⟨root, htable, fun e he => ?_⟩, fun _ _ hruns => run_data hruns⟩
  · exact (Projection.laid_loadDeferred hseparate rfl (Projection.laid_hydrate hseparate rows) hloading r hr).collapses
      hseparate
  · exact hrecorded.key_topRelations hcharted hplain hdistinct hroot he

/-- A post with an author, whose posts hang below as links, and with two tags, and a post with neither. -/
theorem compile_collapses_blog :
    let request := { FindRequest.all with fields := ["author.*, tags"] }
    let rows : List (List Cell) :=
      [[.int 1, .int 7, .text "Ann", .int 4], [.int 1, .int 7, .text "Ann", .int 5], [.int 3]]
    let shown :=
      ["\x7b\"id\":1,\"author\":\x7b\"id\":7,\"name\":\"Ann\",\"posts\":[\x7b\"id\":1\x7d,\x7b\"id\":2\x7d]\x7d,\"tags\":[4,5]\x7d",
        "\x7b\"id\":3,\"author\":null,\"tags\":[]\x7d"]
    ∃ (p : FindPlan) (loaded : List Entries) (loading : List Event),
      compile .blog "posts" request .standard = .ok p ∧ p.projection.topRelations = [("author", "id"), ("tags", "id")] ∧
        ¬p.projection.IsBare "author" ∧ p.projection.IsBare "tags" ∧
        (Projection.loadDeferred p.projection.deferred (p.projection.hydrate rows)).Runs loading (.ok loaded) ∧
        loaded.map (fun r => (Json.obj (p.projection.collapse r)).compact) = shown ∧
        ∀ r ∈ loaded, p.projection.Collapses r (p.projection.collapse r) := by
  intro request rows shown
  let load (q : Projection) := Projection.loadDeferred q.deferred (q.hydrate rows)
  let session : Session := .start .blog .standard []
  obtain ⟨p, h⟩ := exists_eq_ok (x := compile .blog "posts" request .standard) (by decide +kernel)
  have hfound : (compile .blog "posts" request .standard).toOption.map (fun p =>
      (p.projection.topRelations, decide (p.projection.IsBare "author"), decide (p.projection.IsBare "tags"),
        ((load p.projection).result LinkRows.blog.answer session).toOption.map fun loaded =>
          loaded.map fun r => (Json.obj (p.projection.collapse r)).compact)) =
      some ([("author", "id"), ("tags", "id")], false, true, some shown) := by
    decide +kernel
  rw [h] at hfound
  simp only [Except.toOption, Option.map_some, Option.some.injEq, Prod.mk.injEq, decide_eq_false_iff_not,
    decide_eq_true_eq] at hfound
  obtain ⟨htops, hauthor, htags, hshown⟩ := hfound
  have hruns := Operation.runs_result LinkRows.blog.answer (load p.projection) session
  cases hloaded : (load p.projection).result LinkRows.blog.answer session with
  | error e =>
    rw [hloaded] at hshown
    cases hshown
  | ok loaded =>
    rw [hloaded] at hshown hruns
    have hcollapses := (compile_collapses Catalog.distinct_blog h).1 rows _ loaded hruns
    exact ⟨p, loaded, _, h, htops, hauthor, htags, hruns, Option.some.inj hshown, hcollapses⟩

end FindPlan
end RecordService
