import RecordService.Proofs.Repository.Removals

/-! # Replayed changes

What changes make of the rows of a database: a change deletes some rows of its table, assigns cells of others and adds
new ones, of which it gives some cells and leaves the rest to the store (`Database.After`). A list of changes is
replayed one after the other (`Database.Replays`), and leaves alone the tables that none of them writes. -/

namespace RecordService

/-! ### One change -/

/-- The row with values assigned in order: of two values for a column, the last one stays. -/
def TableRow.assign (row : TableRow) (values : Row) : TableRow :=
  values.foldl (fun row v => Function.update row v.1 v.2) row

/-- The row has the values; of two for a column, the first one. -/
def TableRow.Has (row : TableRow) (values : Row) : Prop :=
  ∀ column value, values.lookup column = some value → row column = value

namespace Change

/-- What a change makes of a row of its table that it does not delete. -/
def edit (equal : Cell → Cell → Bool) (row : TableRow) : Change → TableRow
  | update _ values primaryKey key => if equal (row primaryKey) key then row.assign values else row
  | claim links parent targets =>
    if targets.any (equal (row links.targetKey)) then row.assign [(links.parentKey, parent)] else row
  | release links targets =>
    if targets.any (equal (row links.targetKey)) then row.assign [(links.parentKey, .null)] else row
  | insert _ _ | delete _ _ _ | link _ _ _ | unlink _ _ _ => row

/-- What a change gives a new row of its table. -/
def added? : Change → Option Row
  | insert _ values => some values
  | link links parent target => some [(links.parentKey, parent), (links.targetKey, target)]
  | update _ _ _ _ | delete _ _ _ | unlink _ _ _ | claim _ _ _ | release _ _ => none

end Change

namespace Database

/-- A database after a change. -/
structure After (db : Database) (c : Change) (db' : Database) : Prop where
  equal : db'.equal = db.equal
  other : ∀ name, c.table ≠ name → db'.rows name = db.rows name
  written : ∃ added : List TableRow, List.Forall₂ TableRow.Has added c.added?.toList ∧
    db'.rows c.table = ((db.without c).rows c.table).map (c.edit db.equal ·) ++ added

/-- A database after changes. -/
inductive Replays : Database → List Change → Database → Prop
  | nil (db : Database) : Replays db [] db
  | cons {db db₁ db₂ : Database} {c : Change} {rest : List Change} :
      db.After c db₁ → Replays db₁ rest db₂ → Replays db (c :: rest) db₂

namespace Replays

variable {db db' : Database} {c : Change} {changes : List Change}

theorem equal (h : db.Replays changes db') : db'.equal = db.equal := by
  induction h with
  | nil => rfl
  | cons hfirst _ ih => exact ih.trans hfirst.equal

/-- Tables that no change writes are left alone. -/
theorem rows_eq {name : String} (h : db.Replays changes db') (hnames : ∀ c ∈ changes, c.table ≠ name) :
    db'.rows name = db.rows name := by
  induction h with
  | nil => rfl
  | cons hfirst _ ih =>
    obtain ⟨hname, hnames⟩ := List.forall_mem_cons.mp hnames
    exact (ih hnames).trans (hfirst.other _ hname)

theorem of_append {more : List Change} (h : db.Replays (changes ++ more) db') :
    ∃ between, db.Replays changes between ∧ between.Replays more db' := by
  induction changes generalizing db with
  | nil => exact ⟨db, .nil db, h⟩
  | cons c rest ih =>
    cases h with
    | cons hfirst hrest =>
      obtain ⟨between, hbefore, hafter⟩ := ih hrest
      exact ⟨between, .cons hfirst hbefore, hafter⟩

end Replays
end Database
end RecordService
