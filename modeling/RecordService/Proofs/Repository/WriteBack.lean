import RecordService.Proofs.Record.Loading
import RecordService.Proofs.Repository.Payloads
import RecordService.Proofs.Repository.Protected

/-! # Writing back what was read

The document of a cell, read again, is the value of the cell (`Cell.Conforms.sameValue`), and a key that is read again
has its identity (`Cell.Conforms.identity_coerce`). So a payload that says of a record only what was read of it is
accepted even for a system record, and no links are changed for it. -/

namespace RecordService

namespace ScalarType

/-- Whether a column of the type holds texts that are taken as they are. -/
def isTextual (t : ScalarType) : Bool :=
  t == text || t == uuid || t.isTemporal

end ScalarType

namespace Cell

/-- The cell is one that a store holds in a column of the type. -/
inductive Conforms : Cell → ScalarType → Prop
  | null (type : ScalarType) : Conforms .null type
  | int {i : Int} {type : ScalarType} (hfits : fitsInt64 i = true) (htype : type.isNumeric = true) :
      Conforms (.int i) type
  | flag (b : Bool) : Conforms (.int (if b then 1 else 0)) .bool
  | float {x : Double} (hfinite : x.isFinite = true) : Conforms (.float x) .float
  | text (s : String) {type : ScalarType} (htype : type.isTextual = true) : Conforms (.text s) type

/-! ### Cells as documents, and back -/

theorem coerce_int {i : Int} {type : ScalarType} (hfits : fitsInt64 i = true) (htype : type.isNumeric = true) :
    coerce (.int i) type = .int i := by
  have hread : ofJson (.int i) = .int i := by simp [ofJson, Json.int, Number.toInt64?, hfits]
  cases type <;> first | exact hread | cases htype

theorem coerce_flag (b : Bool) : coerce (.int (if b then 1 else 0)) .bool = .bool b := by
  cases b <;> rfl

theorem coerce_text (s : String) {type : ScalarType} (htype : type.isTextual = true) :
    coerce (.str s) type = .text s := by
  cases type <;> first | rfl | cases htype

theorem toJson_int (i : Int) {type : ScalarType} (htype : type.isNumeric = true) :
    (int i).toJson (some type) = .int i := by
  cases type <;> first | rfl | cases htype

theorem toJson_flag (b : Bool) : (int (if b then 1 else 0)).toJson (some .bool) = .bool b := by
  cases b <;> rfl

theorem toJson_float {x : Double} (hfinite : x.isFinite = true) : (float x).toJson (some .float) = .num (.float x) :=
  if_pos hfinite

theorem toJson_text (s : String) {type : ScalarType} (htype : type.isTextual = true) :
    (text s).toJson (some type) = .str s := by
  cases type <;> first | rfl | cases htype

theorem sameValue_self {c : Cell} (hnumber : ∀ x, c = .float x → x.isNaN = false) (type : ScalarType) :
    c.sameValue c type = true := by
  unfold sameValue
  split
  · exact beq_self_eq_true _
  · cases c with
    | float x => simp [Double.sameNumber, hnumber x rfl]
    | _ => exact beq_self_eq_true _

/-- A mark that is written as a truth value is the one that is stored, whatever the type. -/
theorem sameValue_flag (b : Bool) (type : ScalarType) : (int (if b then 1 else 0)).sameValue (.bool b) type = true := by
  cases b <;> cases type <;> rfl

namespace Conforms

variable {c : Cell} {type type' : ScalarType}

/-- What is read of a cell, even as one of another type that it fits, is its value. -/
theorem sameValue (h : c.Conforms type) (h' : c.Conforms type') :
    c.sameValue (coerce (c.toJson (some type)) type') type' = true := by
  cases h with
  | null => exact sameValue_self (by simp) _
  | @int i _ hfits htype =>
    rw [toJson_int i htype]
    cases h' with
    | int _ htype' =>
      rw [coerce_int hfits htype']
      exact sameValue_self (by simp) _
    | flag b =>
      rw [coerce_flag]
      exact sameValue_flag b .bool
  | flag b =>
    rw [toJson_flag]
    exact sameValue_flag b _
  | @float x hfinite =>
    have hnumber : x.isNaN = false := by
      unfold Double.isFinite at hfinite
      unfold Double.isNaN
      rw [bne_iff_ne] at hfinite
      rw [beq_eq_false_iff_ne.mpr hfinite, Bool.false_and]
    rw [toJson_float hfinite]
    cases h' with
    | float =>
      refine sameValue_self ?_ _
      rintro _ ⟨⟩
      exact hnumber
  | text s htype =>
    rw [toJson_text s htype]
    cases h' with
    | text _ htype' =>
      rw [coerce_text s htype']
      exact sameValue_self (by simp) _

/-- A key that is read again has the identity that it had. -/
theorem identity_coerce (h : c.Conforms type) : (coerce (c.toJson (some type)) type).identity = c.identity := by
  cases h with
  | null => rfl
  | @int i _ hfits htype => rw [toJson_int i htype, coerce_int hfits htype]
  | flag b =>
    rw [toJson_flag]
    cases b <;> rfl
  | float hfinite =>
    rw [toJson_float hfinite]
    rfl
  | text s htype => rw [toJson_text s htype, coerce_text s htype]

theorem isNull_coerce (h : c.Conforms type) : (coerce (c.toJson (some type)) type).isNull = c.isNull := by
  cases h with
  | null => rfl
  | @int i _ hfits htype => rw [toJson_int i htype, coerce_int hfits htype]
  | flag b =>
    rw [toJson_flag]
    rfl
  | float hfinite =>
    rw [toJson_float hfinite]
    rfl
  | text s htype => rw [toJson_text s htype, coerce_text s htype]

theorem isScalar_toJson (h : c.Conforms type) : (c.toJson (some type)).isScalar = true := by
  cases h with
  | null => rfl
  | int _ htype => rw [toJson_int _ htype]; rfl
  | flag b => rw [toJson_flag]; rfl
  | float hfinite => rw [toJson_float hfinite]; rfl
  | text s htype => rw [toJson_text s htype]; rfl

end Conforms
end Cell

/-! ### The payload of a record -/

/-- What a payload says of the columns of a row. -/
def Table.columnEntries (t : Table) (row : Row) : Entries :=
  t.columns.map fun c => (c.name, (row.cell c.name).toJson (some c.type))

/-- Whether a relation leads from a row to any number of records. -/
def Relation.isOpen (r : Relation) (row : Row) : Bool :=
  r.isMany && !(row.cell r.joinKey).isNull

/-- What a payload says of the records that the to-many relations lead to, given their keys. A relation with the name of
an earlier one is left out, since no payload can name it. -/
def Table.linkEntries (t : Table) (catalog : Catalog) (row : Row) (keys : Relation → List Cell) : Entries :=
  (t.relations.filter fun r => r.isOpen row && t.relation? r.name == some r).map fun r =>
    (r.name, .arr ((keys r).map fun key => key.toJson ((catalog.target? r).map (·.primaryType))))

/-- The row of a record, and the keys of the records that its to-many relations lead to. -/
structure Table.Holds (t : Table) (catalog : Catalog) (row : Row) (keys : Relation → List Cell) : Prop where
  columns : ∀ c ∈ t.columns, ∃ cell, row.lookup c.name = some cell ∧ cell.Conforms c.type
  keys : ∀ r ∈ t.relations, r.isOpen row = true → ∀ target, catalog.target? r = some target →
    ∀ key ∈ keys r, key.isNull = false ∧ key.Conforms target.primaryType

theorem Relation.isOwning_of_isOpen (r : Relation) (t : Table) {row : Row} (h : r.isOpen row = true) :
    r.isOwning t = false := by
  have hmany := (Bool.and_eq_true_iff.mp h).1
  unfold isMany at hmany
  unfold isOwning
  rw [beq_iff_eq.mp hmany]
  rfl

theorem relatedId_scalar {field : String} {target : Table} {d : Json} (h : d.isScalar = true) :
    relatedId field target d = .ok (.coerce d target.primaryType) := by
  cases d <;> first | rfl | cases h

/-- Keys that are read again are those that they were. -/
theorem relatedIds_keys (field : String) {target : Table} {keys : List Cell}
    (h : ∀ key ∈ keys, key.isNull = false ∧ key.Conforms target.primaryType) :
    ∃ ids, relatedIds field target (.arr (keys.map fun key => key.toJson (some target.primaryType))) = .ok ids ∧
      Cell.SameKeys ids keys := by
  let again (key : Cell) : Cell := .coerce (key.toJson (some target.primaryType)) target.primaryType
  have hread : (keys.map fun key => key.toJson (some target.primaryType)).mapM (relatedId field target) =
      .ok (keys.map again) := by
    induction keys with
    | nil => rfl
    | cons key rest ih =>
      obtain ⟨hkey, hrest⟩ := List.forall_mem_cons.mp h
      rw [List.map_cons, List.mapM_cons, relatedId_scalar hkey.2.isScalar_toJson, ih hrest]
      rfl
  have hnull : (keys.map again).filter (!·.isNull) = keys.map again := by
    rw [List.filter_eq_self, List.forall_mem_map]
    intro key hkey
    rw [(h key hkey).2.isNull_coerce, (h key hkey).1]
    rfl
  -- a key that is read again keeps its identity, so repeated ones are dropped as before
  have hidentity : (keys.map again).map Cell.identity = keys.map Cell.identity := by
    rw [List.map_map]
    exact List.map_congr_left fun key hkey => (h key hkey).2.identity_coerce
  refine ⟨Operand.distinct [] (keys.map again), ?_, fun id => ?_⟩
  · simp only [relatedIds, hread, bind, Except.bind, hnull]
    rfl
  · rw [Operand.mem_identity_distinct, hidentity]
    simp

namespace Changes

variable {catalog : Catalog} {table : Table} {policy : PathPolicy} {row : Row} {keys : Relation → List Cell}
  {c : Changes} {entries : Entries}

/-- All that is asked for is there already. -/
structure Idle (c : Changes) (table : Table) (row : Row) (keys : Relation → List Cell) : Prop where
  columns : ∀ name value, (name, value) ∈ c.columns → ∃ column current, table.column? name = some column ∧
    row.lookup name = some current ∧ current.sameValue value column.type = true
  foreignKeys : c.foreignKeys = []
  links : ∀ l ∈ c.links, l.relation.isOpen row = true ∧ Cell.SameKeys l.ids (keys l.relation)

theorem Idle.empty : Idle empty table row keys :=
  ⟨nofun, rfl, nofun⟩

/-- An entry that says what a column holds asks for nothing else. -/
theorem Idle.addColumn (h : c.Idle table row keys) (hholds : table.Holds catalog row keys) {entry : String × Json}
    (hentry : entry ∈ table.columnEntries row) :
    ∃ c', addEntry catalog table policy false c entry = .ok c' ∧ c'.Idle table row keys := by
  obtain ⟨column, hcolumn, rfl⟩ := List.mem_map.mp hentry
  obtain ⟨cell, hcell, hconforms⟩ := hholds.columns column hcolumn
  have hvalue : row.cell column.name = cell := by rw [Row.cell, hcell]; rfl
  -- the first column of the name is the one that the payload means
  obtain ⟨first, hfirst⟩ : ∃ first, table.column? column.name = some first :=
    Option.isSome_iff_exists.mp (List.find?_isSome.mpr ⟨column, hcolumn, beq_self_eq_true _⟩)
  have hname := Catalog.name_of_column? hfirst
  obtain ⟨cell', hcell', hconforms'⟩ := hholds.columns first (List.mem_of_find?_eq_some hfirst)
  obtain rfl : cell' = cell := Option.some.inj (hcell'.symm.trans (hname ▸ hcell))
  simp only [addEntry, hfirst, hvalue]
  split
  · exact ⟨c, rfl, h⟩
  · refine ⟨_, rfl, ⟨fun name value hmem => ?_, h.foreignKeys, h.links⟩⟩
    obtain hmem | hmem := List.mem_append.mp hmem
    · exact h.columns name value hmem
    · obtain ⟨rfl, rfl⟩ := Prod.mk.inj (List.mem_singleton.mp hmem)
      exact ⟨first, cell', hname ▸ hfirst, hcell', hconforms.sameValue hconforms'⟩

/-- An entry that says which records a relation leads to asks for nothing else. -/
theorem Idle.addLinks (h : c.Idle table row keys) (htable : table ∈ catalog.tables)
    (hholds : table.Holds catalog row keys) {entry : String × Json} (hentry : entry ∈ table.linkEntries catalog row keys) :
    ∃ c', addEntry catalog table policy false c entry = .ok c' ∧ c'.Idle table row keys := by
  obtain ⟨r, hr, rfl⟩ := List.mem_map.mp hentry
  obtain ⟨hr, hnamed⟩ := List.mem_filter.mp hr
  obtain ⟨hopen, hnamed⟩ := Bool.and_eq_true_iff.mp hnamed
  obtain ⟨target, htarget⟩ := Option.isSome_iff_exists.mp (Catalog.target?_isSome htable hr)
  obtain ⟨ids, hids, hsame⟩ := relatedIds_keys r.name (hholds.keys r hr hopen target htarget)
  have howning := r.isOwning_of_isOpen table hopen
  refine ⟨{ c with links := c.links ++ [⟨r, target, ids⟩] }, ?_, h.columns, h.foreignKeys, fun l hmem => ?_⟩
  · simp only [addEntry, Catalog.column?_relation htable hr, beq_iff_eq.mp hnamed, htarget, addRelation, howning,
      Option.map_some, hids]
    rfl
  · obtain hmem | hmem := List.mem_append.mp hmem
    · exact h.links l hmem
    · obtain rfl := List.mem_singleton.mp hmem
      exact ⟨hopen, hsame⟩

theorem Idle.addEntries (htable : table ∈ catalog.tables) (hholds : table.Holds catalog row keys) :
    ∀ {entries : Entries} {c : Changes}, entries ⊆ table.columnEntries row ++ table.linkEntries catalog row keys →
      c.Idle table row keys →
      ∃ c', entries.foldlM (addEntry catalog table policy false) c = .ok c' ∧ c'.Idle table row keys
  | [], c, _, h => ⟨c, rfl, h⟩
  | entry :: rest, c, hentries, h => by
    obtain ⟨hentry, hrest⟩ := List.cons_subset.mp hentries
    obtain ⟨c₁, hadd, h₁⟩ : ∃ c₁, addEntry catalog table policy false c entry = .ok c₁ ∧ c₁.Idle table row keys := by
      obtain hentry | hentry := List.mem_append.mp hentry
      · exact h.addColumn hholds hentry
      · exact h.addLinks htable hholds hentry
    obtain ⟨c', hfold, h'⟩ := addEntries htable hholds hrest h₁
    rw [List.foldlM_cons, hadd]
    exact ⟨c', hfold, h'⟩

/-- Nothing of a system record is changed, exempt or not. -/
theorem Idle.checkUpdate_eq_ok (h : c.Idle table row keys) (id : String) :
    table.checkUpdate id row c.assignments = .ok () := by
  have hnone : table.changedField? row c.assignments = none := by
    rw [Table.changedField?, Option.map_eq_none_iff, List.find?_eq_none]
    rintro ⟨name, value⟩ hmem
    rw [assignments, h.foreignKeys, List.map_nil, List.append_nil] at hmem
    obtain ⟨column, current, hcolumn, hcurrent, hsame⟩ := h.columns name value hmem
    simp [hcolumn, hcurrent, hsame]
  unfold Table.checkUpdate
  rw [hnone]
  split <;> rfl

end Changes

open Operation in
/-- Where a parent is found to be linked to the records that it is to be linked to, its links are only looked at. -/
theorem LinkSet.apply_runs_of_sameKeys {l : LinkSet} {owner : Table} {row : Row} {events : List Event}
    {result : Except Error Unit} (hparent : (row.cell l.relation.joinKey).isNull = false)
    (hruns : (l.apply owner row).Runs events result)
    (hsame : ∀ rows : Rows, ⟨.query (.links l.table (row.cell l.relation.joinKey)), .ok rows⟩ ∈ events →
      Cell.SameKeys l.ids rows.keys) :
    ∃ reply : Except Error Rows, events = [⟨.query (.links l.table (row.cell l.relation.joinKey)), reply⟩] ∧
      result = reply.map fun _ => () := by
  unfold apply at hruns
  simp only [hparent, Bool.false_eq_true, if_false] at hruns
  obtain ⟨e, hcurrent, rfl⟩ | ⟨_, current, rest, hcurrent, hmore, rfl⟩ := runs_bind.mp hruns
  · obtain ⟨_, hquery, he⟩ | ⟨_, _, _, _, hdone, -⟩ := runs_bind.mp hcurrent
    · obtain rfl := Except.error.inj he
      exact ⟨.error e, runs_query.mp hquery, rfl⟩
    · cases (runs_pure.mp hdone).2
  · obtain ⟨rows, rfl, rfl⟩ := current_runs_ok hcurrent
    obtain ⟨hattached, hdetached⟩ := Cell.sameKeys_iff.mp (hsame rows List.mem_cons_self)
    rw [hattached, hdetached] at hmore
    obtain ⟨rfl, rfl⟩ := runs_pure.mp hmore
    exact ⟨.ok rows, rfl, rfl⟩

theorem Cell.SameKeys.symm {a b : List Cell} (h : SameKeys a b) : SameKeys b a :=
  fun id => (h id).symm

theorem Cell.SameKeys.trans {a b c : List Cell} (h : SameKeys a b) (h' : SameKeys b c) : SameKeys a c :=
  fun id => (h id).trans (h' id)

namespace Repository

/-- A payload that says only what was read of a record, its columns and the keys of its links, is read, whatever becomes
of unknown names. What it asks for is allowed even of a system record, no foreign key is among it, and where the links
are still those that were read they are looked at and left as they are: no look for system records, and no change. -/
theorem read_written_back {catalog : Catalog} {table : Table} (htable : table ∈ catalog.tables) {row : Row}
    {keys : Relation → List Cell} (hholds : table.Holds catalog row keys) {entries : Entries}
    (hentries : entries ⊆ table.columnEntries row ++ table.linkEntries catalog row keys) (policy : PathPolicy) :
    ∃ changes, Changes.ofPayload catalog table policy false (.obj entries) = .ok changes ∧
      (∀ id, table.checkUpdate id row changes.assignments = .ok ()) ∧ changes.foreignKeys = [] ∧
      ∀ l ∈ changes.links, ∀ events result, (l.apply table row).Runs events result →
        (∀ rows : Rows, ⟨.query (.links l.table (row.cell l.relation.joinKey)), .ok rows⟩ ∈ events →
          Cell.SameKeys rows.keys (keys l.relation)) →
        ∃ reply : Except Error Rows, events = [⟨.query (.links l.table (row.cell l.relation.joinKey)), reply⟩] ∧
          result = reply.map fun _ => () := by
  obtain ⟨changes, hfold, hidle⟩ :
      ∃ changes, entries.foldlM (Changes.addEntry catalog table policy false) .empty = .ok changes ∧
        changes.Idle table row keys :=
    Changes.Idle.addEntries htable hholds hentries .empty
  refine ⟨changes, hfold, hidle.checkUpdate_eq_ok, hidle.foreignKeys, fun l hl events result hruns hfound => ?_⟩
  obtain ⟨hopen, hids⟩ := hidle.links l hl
  have hparent : (row.cell l.relation.joinKey).isNull = false := by
    simpa using (Bool.and_eq_true_iff.mp hopen).2
  exact LinkSet.apply_runs_of_sameKeys hparent hruns fun rows hrows => hids.trans (hfound rows hrows).symm

end Repository

/-! ### A role that may not change at all -/

/-- Roles none of whose fields may change where they are system records. -/
def Table.sealedRoles : Table :=
  { Table.roles with exemptFields := [] }

def Catalog.sealedStaff : Catalog where
  tables := [.users, .sealedRoles]
  sound := by decide +kernel

theorem Table.holds_sealedRoles :
    Table.sealedRoles.Holds .sealedStaff [("id", .int 1), ("name", .text "Admin"), ("isSystem", .int 1)]
      fun _ => [.int 1, .int 2] where
  columns := by
    simp only [Table.sealedRoles, Table.roles, List.forall_mem_cons]
    exact ⟨⟨.int 1, rfl, .int rfl rfl⟩, ⟨.text "Admin", rfl, .text _ rfl⟩, ⟨.int 1, rfl, .flag true⟩, nofun⟩
  keys := by
    simp only [Table.sealedRoles, Table.roles, List.forall_mem_cons]
    refine ⟨fun _ target htarget => ?_, nofun⟩
    obtain rfl : Table.users = target := Option.some.inj htarget
    exact ⟨⟨rfl, .int rfl rfl⟩, ⟨rfl, .int rfl rfl⟩, nofun⟩

namespace Repository

/-- The administrators' role is written back as it was read, with its two users. -/
theorem read_written_back_sealedStaff :
    let row : Row := [("id", .int 1), ("name", .text "Admin"), ("isSystem", .int 1)]
    let keys (_ : Relation) : List Cell := [.int 1, .int 2]
    let payload := [("id", .int 1), ("name", .str "Admin"), ("isSystem", .bool true), ("users", .arr [.int 1, .int 2])]
    (Table.sealedRoles ∈ Catalog.sealedStaff.tables ∧ Table.sealedRoles.Holds .sealedStaff row keys ∧
      payload ⊆ Table.sealedRoles.columnEntries row ++ Table.sealedRoles.linkEntries .sealedStaff row keys) ∧
    (Table.sealedRoles.isSystem row = true ∧ Table.sealedRoles.exemptFields = []) ∧
    ∃ changes, Changes.ofPayload .sealedStaff .sealedRoles .strict false (.obj payload) = .ok changes ∧
      (∀ id, Table.sealedRoles.checkUpdate id row changes.assignments = .ok ()) ∧ changes.foreignKeys = [] ∧
      ∀ l ∈ changes.links, ∀ events result, (l.apply .sealedRoles row).Runs events result →
        (∀ rows : Rows, ⟨.query (.links l.table (row.cell l.relation.joinKey)), .ok rows⟩ ∈ events →
          Cell.SameKeys rows.keys [.int 1, .int 2]) →
        ∃ reply : Except Error Rows, events = [⟨.query (.links l.table (row.cell l.relation.joinKey)), reply⟩] ∧
          result = reply.map fun _ => () := by
  intro row keys payload
  have htable : Table.sealedRoles ∈ Catalog.sealedStaff.tables := by decide +kernel
  have hentries :
      payload ⊆ Table.sealedRoles.columnEntries row ++ Table.sealedRoles.linkEntries .sealedStaff row keys :=
    List.Subset.refl payload
  exact ⟨⟨htable, Table.holds_sealedRoles, hentries⟩, ⟨by decide +kernel, rfl⟩,
    read_written_back htable Table.holds_sealedRoles hentries .strict⟩

end Repository
end RecordService
