import RecordService.Proofs.Catalog.Declared
import RecordService.Proofs.Request.Leaves
import RecordService.Repository.Payload

/-! # What a payload asks for

Each entry of a payload adds a column, a foreign key or a link set, or nothing (`Changes.Adds`). So all that is written
for a payload is declared: columns of the table, foreign keys of its owning relations, and links of its other ones
(`Changes.Declared`); and what an entry asks of a relation is asked in the end (`Changes.foreignKey_of_mem`,
`Changes.links_of_mem`). -/

namespace RecordService
namespace Changes

variable {catalog : Catalog} {table : Table} {policy : PathPolicy} {creating : Bool} {c c' : Changes}

/-! ### One entry -/

/-- What an entry may add to the changes. -/
inductive Adds (catalog : Catalog) (table : Table) (policy : PathPolicy) (creating : Bool) (c : Changes) :
    String × Json → Changes → Prop
  /-- The key of a record that is there already. -/
  | kept (value : Json) : creating = false → Adds catalog table policy creating c (table.primaryKey, value) c
  | dropped {key : String} (value : Json) : policy = .lenient → table.column? key = none → table.relation? key = none →
      Adds catalog table policy creating c (key, value) c
  | column {column : Column} (value : Json) : table.column? column.name = some column →
      (creating = true ∨ column.name ≠ table.primaryKey) →
      Adds catalog table policy creating c (column.name, value)
        { c with columns := c.columns ++ [(column.name, .coerce value column.type)] }
  | foreignKey {r : Relation} {target : Table} {value : Json} {id : Cell} : table.column? r.name = none →
      table.relation? r.name = some r → catalog.target? r = some target → r.isOwning table = true →
      relatedId r.name target value = .ok id →
      Adds catalog table policy creating c (r.name, value)
        { c with foreignKeys := c.foreignKeys ++ [⟨r, target, id⟩] }
  | links {r : Relation} {target : Table} {value : Json} {ids : List Cell} : table.column? r.name = none →
      table.relation? r.name = some r → catalog.target? r = some target → r.isOwning table = false →
      relatedIds r.name target value = .ok ids →
      Adds catalog table policy creating c (r.name, value) { c with links := c.links ++ [⟨r, target, ids⟩] }

theorem adds_of_addRelation {r : Relation} {target : Table} {value : Json} (hcolumn : table.column? r.name = none)
    (hrelation : table.relation? r.name = some r) (htarget : catalog.target? r = some target)
    (h : c.addRelation table r target value = .ok c') : Adds catalog table policy creating c (r.name, value) c' := by
  unfold addRelation at h
  split at h
  case isTrue howning =>
    obtain ⟨id, hid, h⟩ := bind_eq_ok.mp h
    obtain rfl := pure_eq_ok.mp h
    exact .foreignKey hcolumn hrelation htarget howning hid
  case isFalse howning =>
    obtain ⟨ids, hids, h⟩ := bind_eq_ok.mp h
    obtain rfl := pure_eq_ok.mp h
    exact .links hcolumn hrelation htarget (Bool.eq_false_iff.mpr howning) hids

theorem adds_of_addEntry {entry : String × Json} (h : addEntry catalog table policy creating c entry = .ok c') :
    Adds catalog table policy creating c entry c' := by
  obtain ⟨key, value⟩ := entry
  simp only [addEntry] at h
  cases hcolumn : table.column? key with
  | some column =>
    obtain rfl := Catalog.name_of_column? hcolumn
    rw [hcolumn] at h
    simp only at h
    split at h
    case isTrue hkey =>
      obtain ⟨hold, hkey⟩ := Bool.and_eq_true_iff.mp hkey
      obtain rfl := Except.ok.inj h
      rw [beq_iff_eq.mp hkey]
      exact .kept value (Bool.not_eq_true' creating ▸ hold)
    case isFalse hkey =>
      obtain rfl := Except.ok.inj h
      refine .column value hcolumn ?_
      cases creating with
      | true => exact Or.inl rfl
      | false => exact Or.inr (by simpa using hkey)
  | none =>
    rw [hcolumn] at h
    simp only at h
    cases hrelation : table.relation? key with
    | none =>
      rw [hrelation] at h
      cases policy with
      | strict => cases h
      | lenient =>
        obtain rfl := Except.ok.inj h
        exact .dropped value rfl hcolumn hrelation
    | some r =>
      obtain rfl := Catalog.name_of_relation? hrelation
      rw [hrelation] at h
      simp only at h
      cases htarget : catalog.target? r with
      | none =>
        rw [htarget] at h
        cases h
      | some target =>
        rw [htarget] at h
        exact adds_of_addRelation hcolumn hrelation htarget h

/-! ### All entries -/

/-- All that is written is declared by the table and named by an entry, and each relation is written in its own way. -/
structure Declared (catalog : Catalog) (table : Table) (entries : Entries) (c : Changes) : Prop where
  columns : ∀ name value, (name, value) ∈ c.columns → ∃ column document, table.column? name = some column ∧
    (name, document) ∈ entries ∧ value = .coerce document column.type
  foreignKeys : ∀ fk ∈ c.foreignKeys, fk.relation ∈ table.relations ∧ catalog.target? fk.relation = some fk.target ∧
    fk.relation.isOwning table = true ∧
    ∃ document, (fk.relation.name, document) ∈ entries ∧ relatedId fk.relation.name fk.target document = .ok fk.value
  links : ∀ l ∈ c.links, l.relation ∈ table.relations ∧ catalog.target? l.relation = some l.target ∧
    l.relation.isOwning table = false ∧
    ∃ document, (l.relation.name, document) ∈ entries ∧ relatedIds l.relation.name l.target document = .ok l.ids

namespace Declared

variable {entries : Entries}

theorem empty : Declared catalog table entries empty :=
  ⟨fun _ _ h => absurd h List.not_mem_nil, fun _ h => absurd h List.not_mem_nil, fun _ h => absurd h List.not_mem_nil⟩

theorem adds {entry : String × Json} (h : Declared catalog table entries c) (hentry : entry ∈ entries)
    (hadds : Adds catalog table policy creating c entry c') : Declared catalog table entries c' := by
  cases hadds with
  | kept => exact h
  | dropped => exact h
  | @column column value hcolumn =>
    -- what is new comes from the entry; the rest was declared before
    refine { h with columns := fun name value' hmem => ?_ }
    rcases List.mem_append.mp hmem with hmem | hmem
    · exact h.columns name value' hmem
    · obtain ⟨rfl, rfl⟩ := Prod.mk.inj (List.mem_singleton.mp hmem)
      exact ⟨column, value, hcolumn, hentry, rfl⟩
  | @foreignKey r target value id _ hrelation htarget howning hid =>
    refine { h with foreignKeys := fun fk hmem => ?_ }
    rcases List.mem_append.mp hmem with hmem | hmem
    · exact h.foreignKeys fk hmem
    · obtain rfl := List.mem_singleton.mp hmem
      exact ⟨Catalog.mem_of_relation? hrelation, htarget, howning, value, hentry, hid⟩
  | @links r target value ids _ hrelation htarget howning hids =>
    refine { h with links := fun l hmem => ?_ }
    rcases List.mem_append.mp hmem with hmem | hmem
    · exact h.links l hmem
    · obtain rfl := List.mem_singleton.mp hmem
      exact ⟨Catalog.mem_of_relation? hrelation, htarget, howning, value, hentry, hids⟩

theorem foldlM : ∀ {rest : Entries} {c c' : Changes}, Declared catalog table entries c → rest ⊆ entries →
    rest.foldlM (addEntry catalog table policy creating) c = .ok c' → Declared catalog table entries c'
  | [], c, c', h, _, hfold => Except.ok.inj hfold ▸ h
  | entry :: rest, c, c', h, hsubset, hfold => by
    rw [List.foldlM_cons] at hfold
    obtain ⟨c₁, hentry, hrest⟩ := bind_eq_ok.mp hfold
    obtain ⟨hmem, hsubset⟩ := List.cons_subset.mp hsubset
    exact foldlM (h.adds hmem (adds_of_addEntry hentry)) hsubset hrest

/-- Whatever the payload asks for is declared. -/
theorem of_payload {payload : Json} (h : ofPayload catalog table policy creating payload = .ok c) :
    ∃ entries, payload = .obj entries ∧ Declared catalog table entries c := by
  cases payload with
  | obj entries => exact ⟨entries, rfl, empty.foldlM (List.Subset.refl _) h⟩
  | _ => cases h

/-- The columns that are assigned are declared, foreign keys included. -/
theorem assignments (h : Declared catalog table entries c) (htable : table ∈ catalog.tables) {name : String}
    {value : Cell} (hmem : (name, value) ∈ c.assignments) : (table.column? name).isSome = true := by
  rcases List.mem_append.mp hmem with hmem | hmem
  · obtain ⟨column, _, hcolumn, -⟩ := h.columns name value hmem
    rw [hcolumn]
    rfl
  · obtain ⟨fk, hfk, heq⟩ := List.mem_map.mp hmem
    obtain ⟨rfl, -⟩ := Prod.mk.inj heq
    exact Catalog.joinKey_declared htable (h.foreignKeys fk hfk).1

end Declared

/-! ### The entry of a relation -/

/-- All that is asked of relations is still asked. -/
structure Within (c c' : Changes) : Prop where
  foreignKeys : c.foreignKeys ⊆ c'.foreignKeys
  links : c.links ⊆ c'.links

theorem Within.refl (c : Changes) : c.Within c :=
  ⟨List.Subset.refl _, List.Subset.refl _⟩

theorem Within.trans {c'' : Changes} (h : c.Within c') (h' : c'.Within c'') : c.Within c'' :=
  ⟨List.Subset.trans h.foreignKeys h'.foreignKeys, List.Subset.trans h.links h'.links⟩

theorem Adds.within {entry : String × Json} (h : Adds catalog table policy creating c entry c') : c.Within c' := by
  cases h with
  | kept => exact .refl c
  | dropped => exact .refl c
  | column => exact ⟨List.Subset.refl _, List.Subset.refl _⟩
  | foreignKey => exact ⟨List.subset_append_left _ _, List.Subset.refl _⟩
  | links => exact ⟨List.Subset.refl _, List.subset_append_left _ _⟩

theorem within_of_foldlM : ∀ {entries : Entries} {c c' : Changes},
    entries.foldlM (addEntry catalog table policy creating) c = .ok c' → c.Within c'
  | [], c, c', h => Except.ok.inj h ▸ .refl c
  | entry :: rest, c, c', h => by
    rw [List.foldlM_cons] at h
    obtain ⟨c₁, hentry, hrest⟩ := bind_eq_ok.mp h
    exact (adds_of_addEntry hentry).within.trans (within_of_foldlM hrest)

/-- Each entry is added at some point, and what it asks is still asked in the end. -/
theorem addEntry_of_mem : ∀ {entries : Entries} {c c' : Changes},
    entries.foldlM (addEntry catalog table policy creating) c = .ok c' → ∀ entry ∈ entries,
      ∃ c₁ c₂, addEntry catalog table policy creating c₁ entry = .ok c₂ ∧ c₂.Within c'
  | first :: rest, c, c', h, entry, hmem => by
    rw [List.foldlM_cons] at h
    obtain ⟨c₁, hfirst, hrest⟩ := bind_eq_ok.mp h
    rcases List.mem_cons.mp hmem with rfl | hmem
    · exact ⟨c, c₁, hfirst, within_of_foldlM hrest⟩
    · exact addEntry_of_mem hrest entry hmem

variable {r : Relation} {target : Table} {entries : Entries} {value : Json}

/-- An entry that names a relation says what becomes of it. -/
theorem addRelation_of_mem (h : ofPayload catalog table policy creating (.obj entries) = .ok c)
    (htable : table ∈ catalog.tables) (hr : table.relation? r.name = some r) (htarget : catalog.target? r = some target)
    (hentry : (r.name, value) ∈ entries) : ∃ c₁ c₂, addRelation c₁ table r target value = .ok c₂ ∧ c₂.Within c := by
  obtain ⟨c₁, c₂, hadd, hwithin⟩ := addEntry_of_mem h _ hentry
  have hcolumn := Catalog.column?_relation htable (Catalog.mem_of_relation? hr)
  simp only [addEntry, hcolumn, hr, htarget] at hadd
  exact ⟨c₁, c₂, hadd, hwithin⟩

theorem foreignKey_of_mem (h : ofPayload catalog table policy creating (.obj entries) = .ok c)
    (htable : table ∈ catalog.tables) (hr : table.relation? r.name = some r) (htarget : catalog.target? r = some target)
    (howning : r.isOwning table = true) (hentry : (r.name, value) ∈ entries) :
    ∃ id, relatedId r.name target value = .ok id ∧ ⟨r, target, id⟩ ∈ c.foreignKeys := by
  obtain ⟨c₁, c₂, hadd, hwithin⟩ := addRelation_of_mem h htable hr htarget hentry
  rw [addRelation, if_pos howning] at hadd
  obtain ⟨id, hid, hadd⟩ := bind_eq_ok.mp hadd
  obtain rfl := pure_eq_ok.mp hadd
  exact ⟨id, hid, hwithin.foreignKeys (List.mem_append_right _ (List.mem_singleton_self _))⟩

theorem links_of_mem (h : ofPayload catalog table policy creating (.obj entries) = .ok c)
    (htable : table ∈ catalog.tables) (hr : table.relation? r.name = some r) (htarget : catalog.target? r = some target)
    (howning : r.isOwning table = false) (hentry : (r.name, value) ∈ entries) :
    ∃ ids, relatedIds r.name target value = .ok ids ∧ ⟨r, target, ids⟩ ∈ c.links := by
  obtain ⟨c₁, c₂, hadd, hwithin⟩ := addRelation_of_mem h htable hr htarget hentry
  rw [addRelation, if_neg (Bool.eq_false_iff.mp howning)] at hadd
  obtain ⟨ids, hids, hadd⟩ := bind_eq_ok.mp hadd
  obtain rfl := pure_eq_ok.mp hadd
  exact ⟨ids, hids, hwithin.links (List.mem_append_right _ (List.mem_singleton_self _))⟩

end Changes
end RecordService
