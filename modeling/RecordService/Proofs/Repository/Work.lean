import RecordService.Proofs.Repository.Transactions

/-! # What the work of a mutation goes through

For each piece of a transaction's work, the events by which it succeeds: which questions were asked, with which answers
it went on, and what was changed then. -/

namespace RecordService

open Operation

/-- The first row, if there is one, as cells by column. -/
def Rows.first? (rows : Rows) : Option Row :=
  rows.cells.head?.map rows.columns.zip

/-- The first cells of the rows that are not null. -/
def Rows.keys (rows : Rows) : List Cell :=
  (rows.cells.filterMap List.head?).filter (!·.isNull)

/-- A look for system records among those with some values in a column. -/
structure Look where
  table : String
  column : String
  flag : String
  ids : List Cell
deriving DecidableEq, Repr

def Look.query (l : Look) : Query :=
  .flagged l.table l.column l.flag l.ids

namespace Event

/-- The row that is loaded for a record. -/
def loaded? : Event → Option Row
  | ⟨.query (.record _ _ _), .ok rows⟩ => rows.first?
  | _ => none

/-- The keys of the records that a parent is found to be linked to, with the place of the links. -/
def links? : Event → Option (LinkTable × Cell × List Cell)
  | ⟨.query (.links table parent), .ok rows⟩ => some (table, parent, rows.keys)
  | _ => none

/-- What an update assigns. -/
def assigned? : Event → Option Row
  | ⟨.change (.update _ values _ _), _⟩ => some values
  | _ => none

/-- What an event changes. -/
def change? : Event → Option Change
  | ⟨.change c, _⟩ => some c
  | _ => none

theorem change_mem_iff {c : Change} {events : List Event} :
    (∃ reply, ⟨.change c, reply⟩ ∈ events) ↔ c ∈ events.filterMap change? := by
  rw [List.mem_filterMap]
  constructor
  · rintro ⟨reply, hmem⟩
    exact ⟨_, hmem, rfl⟩
  · rintro ⟨⟨step, reply⟩, hmem, hchange⟩
    cases step with
    | change c' =>
      cases hchange
      exact ⟨reply, hmem⟩
    | _ => cases hchange

/-- The look that an event is. -/
def look? : Event → Option Look
  | ⟨.query (.flagged table column flag ids), _⟩ => some ⟨table, column, flag, ids⟩
  | _ => none

/-- The events of looks, none of which finds a record. -/
def FindNothing (looks : List Look) (events : List Event) : Prop :=
  List.Forall₂ (fun look event => ∃ columns, event = ⟨.query look.query, .ok ⟨columns, []⟩⟩) looks events

/-- The events of changes that are made. -/
def Make (changes : List Change) (events : List Event) : Prop :=
  List.Forall₂ (fun c event => ∃ outcome, event = ⟨.change c, .ok outcome⟩) changes events

variable {β : Type} {f : Event → Option β} {events : List Event}

theorem FindNothing.filterMap_eq_nil {looks : List Look} (h : FindNothing looks events)
    (hf : ∀ (look : Look) reply, f ⟨.query look.query, reply⟩ = none) : events.filterMap f = [] := by
  induction h with
  | nil => rfl
  | cons hlook _ ih =>
    obtain ⟨columns, rfl⟩ := hlook
    rw [List.filterMap_cons, hf, ih]

theorem FindNothing.mem {looks : List Look} (h : FindNothing looks events) {look : Look} (hlook : look ∈ looks) :
    ∃ columns, ⟨.query look.query, .ok ⟨columns, []⟩⟩ ∈ events := by
  induction h with
  | nil => cases hlook
  | cons hfirst _ ih =>
    rcases List.mem_cons.mp hlook with rfl | hlook
    · obtain ⟨columns, rfl⟩ := hfirst
      exact ⟨columns, List.mem_cons_self⟩
    · obtain ⟨columns, hmem⟩ := ih hlook
      exact ⟨columns, List.mem_cons_of_mem _ hmem⟩

theorem FindNothing.filterMap_look? {looks : List Look} (h : FindNothing looks events) :
    events.filterMap look? = looks := by
  induction h with
  | nil => rfl
  | cons hlook _ ih =>
    obtain ⟨columns, rfl⟩ := hlook
    exact congrArg (List.cons _) ih

theorem FindNothing.not_mem_change {looks : List Look} (h : FindNothing looks events) {c : Change}
    {reply : Except Error Outcome} : ⟨.change c, reply⟩ ∉ events := by
  intro hmem
  have hchange := change_mem_iff.mp ⟨reply, hmem⟩
  rw [h.filterMap_eq_nil fun _ _ => rfl] at hchange
  cases hchange

theorem Make.filterMap_change? {changes : List Change} (h : Make changes events) :
    events.filterMap change? = changes := by
  induction h with
  | nil => rfl
  | cons hchange _ ih =>
    obtain ⟨outcome, rfl⟩ := hchange
    exact congrArg (List.cons _) ih

theorem Make.mem {changes : List Change} (h : Make changes events) {c : Change} (hc : c ∈ changes) :
    ∃ outcome, ⟨.change c, .ok outcome⟩ ∈ events := by
  induction h with
  | nil => cases hc
  | cons hchange _ ih =>
    rcases List.mem_cons.mp hc with rfl | hc
    · obtain ⟨outcome, rfl⟩ := hchange
      exact ⟨outcome, List.mem_cons_self⟩
    · obtain ⟨outcome, hmem⟩ := ih hc
      exact ⟨outcome, List.mem_cons_of_mem _ hmem⟩

theorem Make.change_of_mem {changes : List Change} (h : Make changes events) {event : Event} (hevent : event ∈ events) :
    ∃ c ∈ changes, ∃ outcome, event = ⟨.change c, .ok outcome⟩ := by
  induction h with
  | nil => cases hevent
  | @cons c _ _ _ hchange _ ih =>
    rcases List.mem_cons.mp hevent with rfl | hevent
    · exact ⟨c, List.mem_cons_self, hchange⟩
    · obtain ⟨c, hc, hmade⟩ := ih hevent
      exact ⟨c, List.mem_cons_of_mem _ hc, hmade⟩

theorem Make.mem_change {changes : List Change} (h : Make changes events) {c : Change} {reply : Except Error Outcome}
    (hmem : ⟨.change c, reply⟩ ∈ events) : c ∈ changes := by
  rw [← h.filterMap_change?]
  exact change_mem_iff.mp ⟨reply, hmem⟩

theorem Make.filterMap_eq_nil {changes : List Change} (h : Make changes events)
    (hf : ∀ c ∈ changes, ∀ reply, f ⟨.change c, reply⟩ = none) : events.filterMap f = [] := by
  induction h with
  | nil => rfl
  | @cons c event changes events hchange _ ih =>
    obtain ⟨outcome, rfl⟩ := hchange
    rw [List.filterMap_cons, hf c List.mem_cons_self]
    exact ih fun c hc => hf c (List.mem_cons_of_mem _ hc)

end Event

/-! ### Records -/

/-- The events by which the row of a record is loaded. -/
def Table.Loads (table : Table) (key : Cell) (row : Row) (events : List Event) : Prop :=
  ∃ rows : Rows, rows.first? = some row ∧ events = [⟨.query (.record table.name table.primaryKey key), .ok rows⟩]

theorem Table.Loads.loaded {table : Table} {key : Cell} {row : Row} {events : List Event}
    (h : table.Loads key row events) : events.filterMap Event.loaded? = [row] := by
  obtain ⟨rows, hrow, rfl⟩ := h
  simp [Event.loaded?, hrow]

theorem Table.Loads.filterMap_eq_nil {β : Type} {f : Event → Option β} {table : Table} {key : Cell} {row : Row}
    {events : List Event} (h : table.Loads key row events)
    (hf : ∀ reply, f ⟨.query (.record table.name table.primaryKey key), reply⟩ = none) : events.filterMap f = [] := by
  obtain ⟨rows, -, rfl⟩ := h
  rw [List.filterMap_cons, hf]
  rfl

namespace Repository

variable {table : Table} {key : Cell} {row : Row} {events : List Event}

theorem loadRow?_runs {result : Except Error (Option Row)} (h : (loadRow? table key).Runs events result) :
    (∃ rows : Rows, events = [⟨.query (.record table.name table.primaryKey key), .ok rows⟩] ∧
        result = .ok rows.first?) ∨
      ∃ e, events = [⟨.query (.record table.name table.primaryKey key), .error e⟩] ∧ result = .error e := by
  obtain ⟨e, hquery, rfl⟩ | ⟨_, rows, _, hquery, hrows, rfl⟩ := runs_bind.mp h
  · exact Or.inr ⟨e, runs_query.mp hquery, rfl⟩
  · obtain rfl := runs_query.mp hquery
    obtain ⟨rfl, rfl⟩ := runs_pure.mp hrows
    exact Or.inl ⟨rows, rfl, rfl⟩

theorem loadRow_runs_ok (h : (loadRow table key).Runs events (.ok row)) : table.Loads key row events := by
  obtain ⟨_, found, _, hload, hfound, rfl⟩ := runs_bind_ok.mp h
  obtain ⟨rows, rfl, hrows⟩ | ⟨_, _, habsurd⟩ := loadRow?_runs hload
  · obtain rfl := Except.ok.inj hrows
    cases hfirst : rows.first? with
    | none =>
      rw [hfirst] at hfound
      cases (runs_throw.mp hfound).2
    | some stored =>
      rw [hfirst] at hfound
      obtain ⟨rfl, hstored⟩ := runs_pure.mp hfound
      obtain rfl := Except.ok.inj hstored
      exact ⟨rows, hfirst, rfl⟩
  · cases habsurd

/-- A record that cannot be loaded has no row. -/
theorem loadRow_runs_error {e : Error} (h : (loadRow table key).Runs events (.error e)) :
    events.filterMap Event.loaded? = [] := by
  obtain ⟨e, hload, -⟩ | ⟨_, found, _, hload, hfound, rfl⟩ := runs_bind.mp h
  · obtain ⟨_, _, habsurd⟩ | ⟨e, rfl, -⟩ := loadRow?_runs hload
    · cases habsurd
    · rfl
  · obtain ⟨rows, rfl, hrows⟩ | ⟨_, _, habsurd⟩ := loadRow?_runs hload
    · obtain rfl := Except.ok.inj hrows
      cases hfirst : rows.first? with
      | none =>
        rw [hfirst] at hfound
        obtain ⟨rfl, -⟩ := runs_throw.mp hfound
        simp [Event.loaded?, hfirst]
      | some stored =>
        rw [hfirst] at hfound
        cases (runs_pure.mp hfound).2
    · cases habsurd

end Repository

/-! ### Looks for system records -/

/-- The looks that it takes to see that no record with some values in a column is a system record: none if the table
does not mark them, or if there are no values. -/
def Table.looks (t : Table) (column : String) (ids : List Cell) : List Look :=
  if ids.isEmpty then [] else t.systemFlag.toList.map fun flag => ⟨t.name, column, flag, ids⟩

theorem Table.mem_looks_of_mem {t : Table} {column flag : String} {ids : List Cell} {id : Cell}
    (hflag : t.systemFlag = some flag) (hid : id ∈ ids) : ⟨t.name, column, flag, ids⟩ ∈ t.looks column ids := by
  have hids : ids.isEmpty = false := List.isEmpty_eq_false_iff_exists_mem.mpr ⟨id, hid⟩
  simp [looks, hflag, hids]

theorem Table.checkLinks_runs_ok {t : Table} {column relation : String} {action : LinkAction} {ids : List Cell}
    {events : List Event} (h : (t.checkLinks column relation action ids).Runs events (.ok ())) :
    Event.FindNothing (t.looks column ids) events := by
  unfold checkLinks at h
  unfold looks
  cases hflag : t.systemFlag with
  | none =>
    rw [hflag] at h
    obtain ⟨rfl, -⟩ := runs_pure.mp h
    simp [Event.FindNothing]
  | some flag =>
    rw [hflag] at h
    simp only at h
    cases hids : ids.isEmpty with
    | true =>
      rw [hids, if_pos rfl] at h
      obtain ⟨rfl, -⟩ := runs_pure.mp h
      exact .nil
    | false =>
      rw [hids, if_neg Bool.false_ne_true] at h
      obtain ⟨_, ⟨columns, cells⟩, _, hquery, hrows, rfl⟩ := runs_bind_ok.mp h
      obtain rfl := runs_query.mp hquery
      cases cells with
      | nil =>
        obtain ⟨rfl, -⟩ := runs_pure.mp hrows
        exact .cons ⟨columns, rfl⟩ .nil
      | cons first rest => cases (runs_throw.mp hrows).2

/-! ### Foreign keys -/

namespace ForeignKey

/-- The looks before the key is given to a new record. -/
def attaching (fk : ForeignKey) : List Look :=
  fk.target.looks fk.relation.inverseJoinKey (Repository.nonNull fk.value)

/-- The looks before the key of a stored row is replaced: for the old one and for the new one, if they differ. -/
def replacing (fk : ForeignKey) (row : Row) : List Look :=
  let old := row.cell fk.relation.joinKey
  if old.sameValue fk.value fk.target.primaryType then []
  else fk.target.looks fk.relation.inverseJoinKey (Repository.nonNull old) ++ fk.attaching

end ForeignKey

namespace Repository

theorem checkAttached_runs_ok : ∀ {keys : List ForeignKey} {events : List Event},
    (checkAttached keys).Runs events (.ok ()) → Event.FindNothing (keys.flatMap (·.attaching)) events
  | [], _, h => by
    obtain ⟨rfl, -⟩ := runs_pure.mp h
    exact .nil
  | fk :: rest, _, h => by
    obtain ⟨_, _, _, hfirst, hrest, rfl⟩ := runs_bind_ok.mp h
    exact List.rel_append (Table.checkLinks_runs_ok hfirst) (checkAttached_runs_ok hrest)

theorem checkReplaced_runs_ok {row : Row} : ∀ {keys : List ForeignKey} {events : List Event},
    (checkReplaced row keys).Runs events (.ok ()) → Event.FindNothing (keys.flatMap (·.replacing row)) events
  | [], _, h => by
    obtain ⟨rfl, -⟩ := runs_pure.mp h
    exact .nil
  | fk :: rest, events, h => by
    simp only [checkReplaced] at h
    rw [List.flatMap_cons, ForeignKey.replacing]
    -- a key that keeps its value is not looked at
    cases hsame : (row.cell fk.relation.joinKey).sameValue fk.value fk.target.primaryType with
    | true =>
      rw [hsame] at h
      exact checkReplaced_runs_ok h
    | false =>
      rw [hsame] at h
      obtain ⟨_, _, _, hold, hmore, rfl⟩ := runs_bind_ok.mp h
      obtain ⟨_, _, _, hnew, hrest, rfl⟩ := runs_bind_ok.mp hmore
      rw [← List.append_assoc]
      exact List.rel_append (List.rel_append (Table.checkLinks_runs_ok hold) (Table.checkLinks_runs_ok hnew))
        (checkReplaced_runs_ok hrest)

end Repository

/-! ### Links -/

/-- The place of the links that a change detaches or attaches. -/
def Change.linkTable? : Change → Option LinkTable
  | .link place _ _ | .unlink place _ _ | .claim place _ _ | .release place _ => some place
  | .insert _ _ | .update _ _ _ _ | .delete _ _ _ => none

theorem Change.table_of_linkTable? {c : Change} {place : LinkTable} (h : c.linkTable? = some place) :
    c.table = place.table := by
  cases c with
  | insert | update | delete => cases h
  | link | unlink | claim | release =>
    obtain rfl := Option.some.inj h
    rfl

namespace LinkSet

variable {l : LinkSet} {owner : Table} {row : Row} {events : List Event}

/-- The events by which the links of a row's record become those of the set. -/
inductive Applied (l : LinkSet) (owner : Table) (row : Row) : List Event → Prop
  /-- They are those of the set. -/
  | kept {rows : Rows} : (row.cell l.relation.joinKey).isNull = false →
      Cell.without l.ids rows.keys = [] → Cell.without rows.keys l.ids = [] →
      Applied l owner row [⟨.query (.links l.table (row.cell l.relation.joinKey)), .ok rows⟩]
  /-- They differ, the relation may change, and neither what goes nor what comes is a system record. -/
  | moved {rows : Rows} {looks changes : List Event} {detached attached : List Cell} :
      (row.cell l.relation.joinKey).isNull = false →
      detached = Cell.without rows.keys l.ids → attached = Cell.without l.ids rows.keys →
      ¬(attached = [] ∧ detached = []) → (owner.isSystem row = true → owner.isExempt l.relation.name = true) →
      Event.FindNothing (l.target.looks l.checkedColumn detached ++ l.target.looks l.checkedColumn attached) looks →
      Event.Make (l.changes (row.cell l.relation.joinKey) detached attached) changes →
      Applied l owner row
        (⟨.query (.links l.table (row.cell l.relation.joinKey)), .ok rows⟩ :: looks ++ changes)

/-- Something is detached at most once, and then keys are attached, through a junction one by one. -/
theorem mem_changes {parent : Cell} {detached attached : List Cell} {c : Change}
    (hc : c ∈ l.changes parent detached attached) :
    l.relation.junction.isSome = true ∧
        (c = .unlink l.table parent detached ∨ ∃ key ∈ attached, c = .link l.table parent key) ∨
      l.relation.junction = none ∧ (c = .release l.table detached ∨ c = .claim l.table parent attached) := by
  have hone (change : Change) (keys : List Cell) (hmem : c ∈ if keys.isEmpty then [] else [change]) : c = change := by
    cases hkeys : keys.isEmpty with
    | true =>
      rw [hkeys] at hmem
      cases hmem
    | false =>
      rw [hkeys] at hmem
      exact List.mem_singleton.mp hmem
  unfold changes at hc
  cases hjunction : l.relation.junction with
  | some j =>
    rw [hjunction] at hc
    refine Or.inl ⟨rfl, (List.mem_append.mp hc).imp (hone _ _) fun hlink => ?_⟩
    obtain ⟨key, hkey, rfl⟩ := List.mem_map.mp hlink
    exact ⟨key, hkey, rfl⟩
  | none =>
    rw [hjunction] at hc
    exact Or.inr ⟨rfl, (List.mem_append.mp hc).imp (hone _ _) (hone _ _)⟩

theorem linkTable?_of_mem_changes {parent : Cell} {detached attached : List Cell} {c : Change}
    (hc : c ∈ l.changes parent detached attached) : c.linkTable? = some l.table := by
  obtain ⟨-, rfl | ⟨_, -, rfl⟩⟩ | ⟨-, rfl | rfl⟩ := mem_changes hc <;> rfl

namespace Applied

theorem loaded (h : l.Applied owner row events) : events.filterMap Event.loaded? = [] := by
  cases h with
  | kept => rfl
  | moved _ _ _ _ _ hlooks hchanges =>
    have hl := hlooks.filterMap_eq_nil fun _ _ => (rfl : Event.loaded? _ = none)
    have hc := hchanges.filterMap_eq_nil fun _ _ _ => (rfl : Event.loaded? _ = none)
    rw [List.cons_append, List.filterMap_cons, List.filterMap_append, hl, hc]
    rfl

theorem assigned (h : l.Applied owner row events) : events.filterMap Event.assigned? = [] := by
  cases h with
  | kept => rfl
  | @moved _ _ _ detached attached _ _ _ _ _ hlooks hchanges =>
    have hl := hlooks.filterMap_eq_nil fun _ _ => (rfl : Event.assigned? _ = none)
    have hc : _ = [] := hchanges.filterMap_eq_nil (f := Event.assigned?) fun c hc reply => by
      have hlinks := linkTable?_of_mem_changes hc
      cases c with
      | update => cases hlinks
      | _ => rfl
    rw [List.cons_append, List.filterMap_cons, List.filterMap_append, hl, hc]
    rfl

/-- One question is asked for the links that there are. They are those of the set, or the relation may change. -/
theorem links (h : l.Applied owner row events) :
    ∃ keys, events.filterMap Event.links? = [(l.table, row.cell l.relation.joinKey, keys)] ∧
      (Cell.without l.ids keys = [] ∧ Cell.without keys l.ids = [] ∨
        (owner.isSystem row = true → owner.isExempt l.relation.name = true)) := by
  cases h with
  | @kept rows _ hattached hdetached => exact ⟨rows.keys, rfl, Or.inl ⟨hattached, hdetached⟩⟩
  | @moved rows _ _ _ _ _ _ _ _ hallowed hlooks hchanges =>
    have hl := hlooks.filterMap_eq_nil fun _ _ => (rfl : Event.links? _ = none)
    have hc := hchanges.filterMap_eq_nil fun _ _ _ => (rfl : Event.links? _ = none)
    refine ⟨rows.keys, ?_, Or.inr hallowed⟩
    rw [List.cons_append, List.filterMap_cons, List.filterMap_append, hl, hc]
    rfl

end Applied

theorem perform_runs_ok : ∀ {changes : List Change} {events : List Event},
    (perform changes).Runs events (.ok ()) → Event.Make changes events
  | [], _, h => by
    obtain ⟨rfl, -⟩ := runs_pure.mp h
    exact .nil
  | c :: rest, _, h => by
    obtain ⟨_, outcome, _, hchange, hrest, rfl⟩ := runs_bind_ok.mp h
    obtain rfl := runs_change.mp hchange
    exact .cons ⟨outcome, rfl⟩ (perform_runs_ok hrest)

theorem current_runs_ok {parent : Cell} {keys : List Cell} (h : (l.current parent).Runs events (.ok keys)) :
    ∃ rows : Rows, events = [⟨.query (.links l.table parent), .ok rows⟩] ∧ keys = rows.keys := by
  obtain ⟨_, rows, _, hquery, hdone, rfl⟩ := runs_bind_ok.mp h
  obtain rfl := runs_query.mp hquery
  obtain ⟨rfl, hkeys⟩ := runs_pure.mp hdone
  exact ⟨rows, rfl, Except.ok.inj hkeys⟩

theorem apply_runs_ok (h : (l.apply owner row).Runs events (.ok ())) : l.Applied owner row events := by
  unfold apply at h
  obtain ⟨hnull, hwork⟩ := runs_unless_ok.mp h
  obtain ⟨_, current, _, hcurrent, hmore, rfl⟩ := runs_bind_ok.mp hwork
  obtain ⟨rows, rfl, rfl⟩ := current_runs_ok hcurrent
  have hparent : (row.cell l.relation.joinKey).isNull = false := Bool.eq_false_iff.mpr hnull
  -- the links are as they should be, or there is something to attach or to detach
  by_cases hsame : (Cell.without l.ids rows.keys).isEmpty && (Cell.without rows.keys l.ids).isEmpty
  · dsimp only at hmore
    rw [if_pos hsame] at hmore
    obtain ⟨rfl, -⟩ := runs_pure.mp hmore
    simp only [Bool.and_eq_true, List.isEmpty_iff] at hsame
    exact .kept hparent hsame.1 hsame.2
  · dsimp only at hmore
    rw [if_neg hsame] at hmore
    obtain ⟨hallowed, hchecks⟩ := runs_unless_ok.mp hmore
    obtain ⟨_, _, _, hold, hrest, rfl⟩ := runs_bind_ok.mp hchecks
    obtain ⟨_, _, _, hnew, hperform, rfl⟩ := runs_bind_ok.mp hrest
    simp only [Bool.and_eq_true, List.isEmpty_iff] at hsame
    have hlooks := List.rel_append (Table.checkLinks_runs_ok hold) (Table.checkLinks_runs_ok hnew)
    have hexempt : owner.isSystem row = true → owner.isExempt l.relation.name = true := by simpa using hallowed
    have happlied := Applied.moved hparent rfl rfl hsame hexempt hlooks (perform_runs_ok hperform)
    simpa using happlied

theorem applyAll_runs_ok : ∀ {links : List LinkSet} {events : List Event},
    (applyAll owner row links).Runs events (.ok ()) → Event.Each (·.Applied owner row) links events
  | [], _, h => by
    obtain ⟨rfl, -⟩ := runs_pure.mp h
    exact .nil
  | l :: rest, _, h => by
    obtain ⟨_, _, _, hfirst, hrest, rfl⟩ := runs_bind_ok.mp h
    exact .cons (apply_runs_ok hfirst) (applyAll_runs_ok hrest)

end LinkSet

/-! ### Mutations -/

namespace Repository

variable {table : Table} {changes : Changes} {key : Cell} {row : Row} {events : List Event}

/-- The events by which a record is inserted, and its key. -/
structure Inserts (table : Table) (changes : Changes) (key : Cell) (events : List Event) : Prop where
  parts : ∃ checks outcome after,
    events = checks ++ ⟨.change (.insert table.name changes.assignments), .ok outcome⟩ :: after ∧
    Event.FindNothing (changes.foreignKeys.flatMap (·.attaching)) checks ∧
    (newKey table changes.assignments outcome).Runs [] (.ok key) ∧
    (changes.links = [] ∧ after = [] ∨
      ∃ row load applied, after = load ++ applied ∧ table.Loads key row load ∧
        Event.Each (·.Applied table row) changes.links applied)

/-- The events by which the row of a record is changed. -/
structure Amends (table : Table) (changes : Changes) (key : Cell) (row : Row) (events : List Event) : Prop where
  allowed : table.checkUpdate key.keyText row changes.assignments = .ok ()
  parts : ∃ load checks applied written,
    events = load ++ checks ++ applied ++ written ∧
    table.Loads key row load ∧
    Event.FindNothing (changes.foreignKeys.flatMap (·.replacing row)) checks ∧
    Event.Each (·.Applied table row) changes.links applied ∧
    Event.Make (if changes.assignments.isEmpty then []
      else [.update table.name changes.assignments table.primaryKey key]) written

namespace Amends

variable (h : Amends table changes key row events)
include h

theorem loaded : events.filterMap Event.loaded? = [row] := by
  obtain ⟨load, checks, applied, written, rfl, hload, hchecks, happlied, hwritten⟩ := h.parts
  have hc := hchecks.filterMap_eq_nil fun _ _ => (rfl : Event.loaded? _ = none)
  have hl := happlied.filterMap_eq fun _ _ _ hpart => hpart.loaded
  have hw := hwritten.filterMap_eq_nil fun _ _ _ => (rfl : Event.loaded? _ = none)
  simp [List.filterMap_append, hload.loaded, hc, hl, hw]

theorem assigned : events.filterMap Event.assigned? =
    if changes.assignments.isEmpty then [] else [changes.assignments] := by
  obtain ⟨load, checks, applied, written, rfl, hload, hchecks, happlied, hwritten⟩ := h.parts
  have hr := hload.filterMap_eq_nil fun _ => (rfl : Event.assigned? _ = none)
  have hc := hchecks.filterMap_eq_nil fun _ _ => (rfl : Event.assigned? _ = none)
  have hl := happlied.filterMap_eq fun _ _ _ hpart => hpart.assigned
  have hw : written.filterMap Event.assigned? =
      if changes.assignments.isEmpty then [] else [changes.assignments] := by
    by_cases hempty : changes.assignments.isEmpty
    · rw [if_pos hempty] at hwritten ⊢
      cases hwritten
      rfl
    · rw [if_neg hempty] at hwritten ⊢
      obtain ⟨_, _, ⟨outcome, rfl⟩, hnil, rfl⟩ := List.forall₂_cons_left_iff.mp hwritten
      cases hnil
      rfl
  simp [List.filterMap_append, hr, hc, hl, hw]

/-- For each link set its links are asked for. They are those of the set, or the relation may change. -/
theorem links : List.Forall₂ (fun (l : LinkSet) (found : LinkTable × Cell × List Cell) =>
    ∃ keys, found = (l.table, row.cell l.relation.joinKey, keys) ∧
      (Cell.without l.ids keys = [] ∧ Cell.without keys l.ids = [] ∨
        (table.isSystem row = true → table.isExempt l.relation.name = true)))
    changes.links (events.filterMap Event.links?) := by
  obtain ⟨load, checks, applied, written, rfl, hload, hchecks, happlied, hwritten⟩ := h.parts
  have hr := hload.filterMap_eq_nil fun _ => (rfl : Event.links? _ = none)
  have hc := hchecks.filterMap_eq_nil fun _ _ => (rfl : Event.links? _ = none)
  have hw := hwritten.filterMap_eq_nil fun _ _ _ => (rfl : Event.links? _ = none)
  simp only [List.filterMap_append, hr, hc, hw, List.nil_append, List.append_nil]
  refine happlied.forall₂_filterMap fun l part hpart => ?_
  obtain ⟨keys, hkeys, hkept⟩ := hpart.links
  exact ⟨_, hkeys, keys, rfl, hkept⟩

end Amends

/-- The changes by which a record and its link rows are removed. -/
def removing (table : Table) (key : Cell) (row : Row) : List Change :=
  (table.relations.filterMap fun r => r.junction.map fun j => .delete j.table j.sourceKey (row.cell r.joinKey)) ++
    [.delete table.name table.primaryKey key]

/-- The events by which the record of a row is removed. -/
structure Removes (table : Table) (key : Cell) (row : Row) (events : List Event) : Prop where
  allowed : table.isSystem row = false
  parts : ∃ load written, events = load ++ written ∧ table.Loads key row load ∧
    Event.Make (removing table key row) written

theorem newKey_runs_ok {outcome : Outcome} (h : (newKey table row outcome).Runs events (.ok key)) : events = [] := by
  unfold newKey at h
  split at h
  · exact (runs_pure.mp h).1
  · exact (runs_pure.mp h).1
  · exact (runs_throw.mp h).1

theorem insert_runs_ok (h : (insert table changes).Runs events (.ok key)) : Inserts table changes key events := by
  unfold insert at h
  obtain ⟨checks, _, _, hchecks, hwrite, rfl⟩ := runs_bind_ok.mp h
  obtain ⟨_, outcome, _, hchange, hmore, rfl⟩ := runs_bind_ok.mp hwrite
  obtain rfl := runs_change.mp hchange
  obtain ⟨_, found, after, hkey, hlinking, rfl⟩ := runs_bind_ok.mp hmore
  obtain rfl := newKey_runs_ok hkey
  -- the row is loaded only if there are links to apply
  have hwritten : found = key ∧ (changes.links = [] ∧ after = [] ∨
      ∃ row load applied, after = load ++ applied ∧ table.Loads found row load ∧
        Event.Each (·.Applied table row) changes.links applied) := by
    cases hlinks : changes.links with
    | nil =>
      rw [hlinks] at hlinking
      obtain ⟨rfl, hfound⟩ := runs_pure.mp hlinking
      exact ⟨(Except.ok.inj hfound).symm, Or.inl ⟨rfl, rfl⟩⟩
    | cons first rest =>
      rw [hlinks] at hlinking
      obtain ⟨load, row, _, hload, happly, rfl⟩ := runs_bind_ok.mp hlinking
      obtain ⟨applied, _, _, happlied, hdone, rfl⟩ := runs_bind_ok.mp happly
      obtain ⟨rfl, hfound⟩ := runs_pure.mp hdone
      exact ⟨(Except.ok.inj hfound).symm, Or.inr ⟨row, load, applied, by rw [List.append_nil], loadRow_runs_ok hload,
        LinkSet.applyAll_runs_ok happlied⟩⟩
  obtain ⟨rfl, hafter⟩ := hwritten
  exact ⟨checks, outcome, after, rfl, checkAttached_runs_ok hchecks, hkey, hafter⟩

theorem amend_runs_ok (h : (amend table changes key).Runs events (.ok ())) :
    ∃ row, Amends table changes key row events := by
  unfold amend at h
  obtain ⟨load, row, _, hload, hwork, rfl⟩ := runs_bind_ok.mp h
  obtain ⟨_, _, _, hcheck, hmore, rfl⟩ := runs_bind_ok.mp hwork
  obtain ⟨rfl, hallowed⟩ := runs_ofExcept.mp hcheck
  obtain ⟨checks, _, _, hchecks, hrest, rfl⟩ := runs_bind_ok.mp hmore
  obtain ⟨applied, _, written, happlied, hwrite, rfl⟩ := runs_bind_ok.mp hrest
  have hwritten : Event.Make (if changes.assignments.isEmpty then []
      else [.update table.name changes.assignments table.primaryKey key]) written := by
    cases hempty : changes.assignments.isEmpty with
    | true =>
      rw [hempty] at hwrite
      obtain ⟨rfl, -⟩ := runs_pure.mp hwrite
      exact .nil
    | false =>
      rw [hempty] at hwrite
      obtain ⟨_, outcome, _, hchange, hdone, rfl⟩ := runs_bind_ok.mp hwrite
      obtain rfl := runs_change.mp hchange
      obtain ⟨rfl, -⟩ := runs_pure.mp hdone
      exact .cons ⟨outcome, rfl⟩ .nil
  exact ⟨row, hallowed.symm, load, checks, applied, written, by simp, loadRow_runs_ok hload,
    checkReplaced_runs_ok hchecks, LinkSet.applyAll_runs_ok happlied, hwritten⟩

theorem deleteLinks_runs_ok : ∀ {relations : List Relation} {events : List Event},
    (deleteLinks row relations).Runs events (.ok ()) →
      Event.Make (relations.filterMap fun r => r.junction.map fun j => .delete j.table j.sourceKey (row.cell r.joinKey))
        events
  | [], _, h => by
    obtain ⟨rfl, -⟩ := runs_pure.mp h
    exact .nil
  | r :: rest, events, h => by
    rw [deleteLinks] at h
    rw [List.filterMap_cons]
    cases hjunction : r.junction with
    | none =>
      rw [hjunction] at h
      exact deleteLinks_runs_ok h
    | some j =>
      rw [hjunction] at h
      obtain ⟨_, outcome, _, hchange, hrest, rfl⟩ := runs_bind_ok.mp h
      obtain rfl := runs_change.mp hchange
      exact .cons ⟨outcome, rfl⟩ (deleteLinks_runs_ok hrest)

theorem remove_runs_ok (h : (remove table key).Runs events (.ok ())) : ∃ row, Removes table key row events := by
  unfold remove at h
  obtain ⟨load, row, _, hload, hwork, rfl⟩ := runs_bind_ok.mp h
  obtain ⟨hallowed, hdelete⟩ := runs_unless_ok.mp hwork
  obtain ⟨unlinked, _, _, hunlinked, hrest, rfl⟩ := runs_bind_ok.mp hdelete
  obtain ⟨_, outcome, _, hchange, hdone, rfl⟩ := runs_bind_ok.mp hrest
  obtain rfl := runs_change.mp hchange
  obtain ⟨rfl, -⟩ := runs_pure.mp hdone
  exact ⟨row, Bool.eq_false_iff.mpr hallowed, load, _, rfl, loadRow_runs_ok hload,
    List.rel_append (deleteLinks_runs_ok hunlinked) (.cons ⟨outcome, rfl⟩ .nil)⟩

end Repository
end RecordService
