import RecordService.Sql.Cell
import RecordService.Text.Fingerprint

/-! # Statement text

A fragment is a piece of SQL with the cells that its placeholders bind, in order; joining and wrapping keep that
order. Names are written in double quotes, with quotes inside them doubled. -/

namespace RecordService.Sql

/-- A name in quotes. -/
def quoteName (name : String) : String :=
  String.ofList ('"' :: name.toList.flatMap (fun c => if c = '"' then ['"', '"'] else [c]) ++ ['"'])

/-- A column of a table known by an alias. -/
structure ColumnRef where
  tableAlias : String
  column : String
deriving DecidableEq, Repr

/-- The alias and the column, each in quotes. -/
def ColumnRef.text (c : ColumnRef) : String :=
  quoteName c.tableAlias ++ "." ++ quoteName c.column

/-- As many placeholders as a list has cells. -/
def placeholders (cells : List Cell) : String :=
  String.intercalate ", " (cells.map fun _ => "?")

structure Fragment where
  sql : String
  params : List Cell
deriving DecidableEq, Repr

namespace Fragment

/-- Text without placeholders. -/
def raw (sql : String) : Fragment :=
  ⟨sql, []⟩

def append (a b : Fragment) : Fragment :=
  ⟨a.sql ++ b.sql, a.params ++ b.params⟩

instance : Append Fragment := ⟨append⟩

/-- The fragments in order, with the separator between them. -/
def join (separator : String) : List Fragment → Fragment
  | [] => raw ""
  | [f] => f
  | f :: rest => f ++ raw separator ++ join separator rest

/-- The fragment between two texts. -/
def wrap (f : Fragment) (before after : String) : Fragment :=
  ⟨before ++ f.sql ++ after, f.params⟩

/-- The condition after its keyword, if there is one. -/
def whereClause : Option Fragment → Fragment
  | some condition => condition.wrap " WHERE " ""
  | none => raw ""

end Fragment

/-- How a clause goes with the clauses before it. -/
inductive Connective where
  | and
  | or
deriving DecidableEq, Repr

/-- The connective between two conditions, with its blanks. -/
def Connective.text : Connective → String
  | and => " AND "
  | or => " OR "

/-- Clauses in a row as one condition; each but the first is preceded by its connective. -/
def Fragment.ofClauses : List (Connective × Fragment) → Option Fragment
  | [] => none
  | (_, first) :: rest => some (rest.foldl (fun out (c, f) => out ++ raw c.text ++ f) first)

/-- A complete statement. -/
structure Statement where
  sql : String
  params : List Cell
deriving DecidableEq, Repr

def Statement.fingerprint (s : Statement) : String :=
  Text.fingerprintHex s.sql

def Fragment.statement (f : Fragment) : Statement :=
  ⟨f.sql, f.params⟩

end RecordService.Sql
