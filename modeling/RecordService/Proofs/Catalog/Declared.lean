import RecordService.Catalog.Basic

/-! # What a catalog declares

The proof that a catalog has no fault, read as facts on its tables: keys are columns, and so are the columns by which a
relation joins its target. -/

namespace RecordService
namespace Catalog

variable {c : Catalog} {t target : Table} {r : Relation} {name : String}

/-! ### Look-ups -/

theorem mem_of_table? (h : c.table? name = some t) : t ∈ c.tables :=
  List.mem_of_find?_eq_some h

theorem name_of_table? (h : c.table? name = some t) : t.name = name := by
  have hname := List.find?_some h
  exact beq_iff_eq.mp hname

/-- A table that is found is found by its own name. -/
theorem table?_name (h : c.table? name = some t) : c.table? t.name = some t := by
  rw [name_of_table? h, h]

theorem mem_of_relation? (h : t.relation? name = some r) : r ∈ t.relations :=
  List.mem_of_find?_eq_some h

theorem name_of_relation? (h : t.relation? name = some r) : r.name = name := by
  have hname := List.find?_some h
  exact beq_iff_eq.mp hname

theorem name_of_column? {column : Column} (h : t.column? name = some column) : column.name = name := by
  have hname := List.find?_some h
  exact beq_iff_eq.mp hname

theorem mem_of_target? (h : c.target? r = some target) : target ∈ c.tables :=
  mem_of_table? h

/-! ### Keys -/

theorem tableFault?_eq_none (h : t ∈ c.tables) : tableFault? c.tables t = none := by
  have hsound := c.sound
  unfold fault? at hsound
  split at hsound
  · cases hsound
  · exact List.findSome?_eq_none_iff.mp hsound t h

theorem relationFault?_eq_none (h : t ∈ c.tables) (hr : r ∈ t.relations) : relationFault? c.tables t r = none := by
  have htable := tableFault?_eq_none h
  unfold tableFault? at htable
  split at htable
  · cases htable
  · split at htable
    · cases htable
    · exact List.findSome?_eq_none_iff.mp htable r hr

/-- A relation without a fault shares its name with no column, and joins its target by a column of each table. -/
theorem relation_declared (h : t ∈ c.tables) (hr : r ∈ t.relations) :
    t.column? r.name = none ∧ ∃ target, c.target? r = some target ∧ (t.column? r.joinKey).isSome = true ∧
      (target.column? r.inverseJoinKey).isSome = true := by
  have hrelation := relationFault?_eq_none h hr
  unfold relationFault? at hrelation
  split at hrelation
  · cases hrelation
  case isFalse hname =>
    refine ⟨by simpa using hname, ?_⟩
    split at hrelation
    · cases hrelation
    · rename_i target htarget
      split at hrelation
      · cases hrelation
      case isFalse hkey =>
        split at hrelation
        · cases hrelation
        case isFalse hinverse =>
          exact ⟨target, htarget, by simpa [Option.isSome_iff_ne_none] using hkey,
            by simpa [Option.isSome_iff_ne_none] using hinverse⟩

theorem primaryKey_declared (h : t ∈ c.tables) : (t.column? t.primaryKey).isSome = true := by
  have htable := tableFault?_eq_none h
  unfold tableFault? at htable
  split at htable
  · cases htable
  · rename_i hkey
    simpa [Option.isSome_iff_ne_none] using hkey

/-- A relation of a table has a target. -/
theorem target?_isSome (h : t ∈ c.tables) (hr : r ∈ t.relations) : (c.target? r).isSome = true := by
  obtain ⟨-, target, htarget, -⟩ := relation_declared h hr
  exact Option.isSome_iff_exists.mpr ⟨target, htarget⟩

theorem joinKey_declared (h : t ∈ c.tables) (hr : r ∈ t.relations) : (t.column? r.joinKey).isSome = true := by
  obtain ⟨-, -, -, hkey, -⟩ := relation_declared h hr
  exact hkey

theorem inverseKey_declared (h : t ∈ c.tables) (hr : r ∈ t.relations) (ht : c.target? r = some target) :
    (target.column? r.inverseJoinKey).isSome = true := by
  obtain ⟨-, target', htarget, -, hkey⟩ := relation_declared h hr
  obtain rfl := Option.some.inj (ht.symm.trans htarget)
  exact hkey

/-- No column has the name of a relation. -/
theorem column?_relation (h : t ∈ c.tables) (hr : r ∈ t.relations) : t.column? r.name = none :=
  (relation_declared h hr).1

/-! ### Relation names -/

/-- Relation names by which dotted paths tell the relations of a table apart. -/
structure PathSafe (c : Catalog) : Prop where
  distinct : ∀ t ∈ c.tables, (t.relations.map (·.name)).Nodup
  nonempty : ∀ t ∈ c.tables, ∀ r ∈ t.relations, r.name ≠ ""
  dotless : ∀ t ∈ c.tables, ∀ r ∈ t.relations, '.' ∉ r.name.toList

/-- Where no two have one name, each is found by its name. -/
theorem find?_name {α : Type} {name : α → String} {a : α} : ∀ {l : List α}, (l.map name).Nodup → a ∈ l →
    l.find? (fun x => name x == name a) = some a
  | first :: rest, h, ha => by
    rw [List.map_cons, List.nodup_cons] at h
    rw [List.find?_cons]
    rcases List.mem_cons.mp ha with rfl | hmem
    · simp
    · have hne : name first ≠ name a := fun heq => h.1 (heq ▸ List.mem_map_of_mem hmem)
      rw [beq_eq_false_iff_ne.mpr hne]
      exact find?_name h.2 hmem

theorem relation?_name (h : (t.relations.map (·.name)).Nodup) (hr : r ∈ t.relations) :
    t.relation? r.name = some r :=
  find?_name h hr

end Catalog
end RecordService
