import RecordService.Plan.Resolve
import RecordService.Request.Sort

/-! # Sort keys

Sort terms become key columns, each once and in order of first mention; a relation stands for its target's primary
key. The primary key of the root closes every order, so that no two records tie. -/

namespace RecordService

structure SortKey where
  column : Sql.ColumnRef
  descending : Bool
deriving DecidableEq, Repr

/-- An expression and its direction. -/
def orderTerm (expr : String) (descending : Bool) : String :=
  expr ++ if descending then " DESC" else " ASC"

namespace SortKey

def text (k : SortKey) : String :=
  orderTerm k.column.text k.descending

/-- The key with the value it sorts by under another name. -/
def textAs (k : SortKey) (label : String) : String :=
  orderTerm label k.descending

end SortKey

/-- The column a sort term orders by: nothing if its path leads nowhere. -/
def SortTerm.compile (s : Setting) (t : SortTerm) (d : Draft) : Except CompileError (Option Sql.ColumnRef × Draft) :=
  match s.resolve? d.plan t.path .forSort with
  | none => do
    let d ← s.unresolved d t.path
    return (none, d)
  | some (resolved, plan) =>
    if resolved.throughMany then .error (.invalidSort t.path .throughMany)
    else
      match resolved with
      | .column _ tableAlias column => .ok (some ⟨tableAlias, column.name⟩, { d with plan })
      | .relation _ parentPath parentAlias _ r target =>
        if r.isMany then .error (.invalidSort t.path .isMany)
        else
          let (hop, plan) := plan.cross parentPath parentAlias r target .forSort
          .ok (some ⟨hop.tableAlias, target.primaryKey⟩, { d with plan })

namespace SortKey

/-- Adds a key unless its column is a key already. -/
def insert (keys : List SortKey) (k : SortKey) : List SortKey :=
  if keys.any (·.column == k.column) then keys else keys ++ [k]

/-- The keys of the terms in order, added to those there are. -/
def compileAll (s : Setting) : List SortTerm → List SortKey → Draft → Except CompileError (List SortKey × Draft)
  | [], keys, d => .ok (keys, d)
  | t :: rest, keys, d => do
    let (column, d) ← t.compile s d
    match column with
    | some c => compileAll s rest (insert keys ⟨c, t.descending⟩) d
    | none => compileAll s rest keys d

/-- The keys of a sort list, closed by the primary key of the root. -/
def listOf (s : Setting) (terms : List SortTerm) (d : Draft) : Except CompileError (List SortKey × Draft) := do
  let (keys, d) ← compileAll s terms [] d
  return (insert keys ⟨⟨d.plan.root, s.root.primaryKey⟩, false⟩, d)

end SortKey
end RecordService
