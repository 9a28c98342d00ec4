import RecordService.Json.Fields
import RecordService.Script.Callee

/-! # Scripts

A script is a list of statements, and falls off its end with nothing. Expressions name values, build arrays and maps,
and call the host. A script is read from a document with one object for each statement and expression. -/

namespace RecordService.Script

/-- A step into a value: the key of a map or the place in an array. -/
inductive Access where
  | key (name : String)
  | place (index : Int)
deriving DecidableEq, Repr

inductive Expr where
  | literal (value : Json)
  /-- A part of the value with a name. -/
  | get (name : String) (path : List Access)
  | map (entries : List (String × Expr))
  | list (items : List Expr)
  /-- A call of the host. -/
  | call (callee : Callee) (args : List Expr)

inductive Statement where
  /-- Gives a name to a value. -/
  | bind (name : String) (value : Expr)
  /-- Evaluates an expression for what it does. -/
  | eval (e : Expr)
  /-- Ends the script with a value. -/
  | finish (e : Expr)
  /-- Evaluates an expression and shows the value to nobody. -/
  | print (e : Expr)
  | throw (e : Expr)
  /-- Calls a function that throws the value. -/
  | throwFromFunction (e : Expr)
  /-- Runs a block, and another one if it throws, with a name for what was thrown. -/
  | attempt (block : List Statement) (name : String) (handler : List Statement)
  /-- Loops without end. -/
  | spin

/-- Statements that are run in order. -/
abbrev Block := List Statement

namespace Expr

def accessOfJson? : Json → Option Access
  | .str name => some (.key name)
  | .num n => n.toInt64?.map .place
  | _ => none

mutual

def ofJson? : Json → Option Expr
  | .obj [("lit", value)] => some (.literal value.settle)
  | .obj [("get", .arr (.str name :: path))] => (path.mapM accessOfJson?).map (.get name)
  | .obj [("map", .obj entries)] => (entriesOfJson? entries).map .map
  | .obj [("list", .arr items)] => (itemsOfJson? items).map .list
  | .obj [("repo", .arr (.str table :: .str method :: args))] =>
    (itemsOfJson? args).map (.call (.records table method))
  | .obj [("helper", .arr (.str name :: args))] => (itemsOfJson? args).map (.call (.helper name))
  | .obj [("raise", .arr (.num (.int status) :: args))] =>
    (itemsOfJson? args).map (.call (.failure status))
  | _ => none

def itemsOfJson? : List Json → Option (List Expr)
  | [] => some []
  | item :: rest => do return (← ofJson? item) :: (← itemsOfJson? rest)

def entriesOfJson? : List (String × Json) → Option (List (String × Expr))
  | [] => some []
  | (key, value) :: rest => do return (key, ← ofJson? value) :: (← entriesOfJson? rest)

end

end Expr

namespace Statement

/-- What the members of a statement may be. -/
structure Members where
  texts : List (String × String)
  exprs : List (String × Expr)
  blocks : List (String × Block)

mutual

def ofJson? : Json → Option Statement
  | .obj entries =>
    let m := members entries
    match m.texts, m.exprs, m.blocks with
    | [("let", name)], [("be", e)], [] => some (.bind name e)
    | [], [("do", e)], [] => some (.eval e)
    | [], [("print", e)], [] => some (.print e)
    | [], [("return", e)], [] => some (.finish e)
    | [], [("throw", e)], [] => some (.throw e)
    | [], [("throw_in_fn", e)], [] => some (.throwFromFunction e)
    | [("as", name)], [], [("try", block), ("catch", handler)] => some (.attempt block name handler)
    | [("as", name)], [], [("catch", handler), ("try", block)] => some (.attempt block name handler)
    | [], [], [] => if (Entries.get? entries "spin").isSome then some .spin else none
    | _, _, _ => none
  | _ => none

/-- The members of a statement, each read as what it can be. -/
def members : List (String × Json) → Members
  | [] => ⟨[], [], []⟩
  | (key, .str text) :: rest =>
    let m := members rest
    { m with texts := (key, text) :: m.texts }
  | (key, .arr items) :: rest =>
    let m := members rest
    match blockOfJson? items with
    | some block => { m with blocks := (key, block) :: m.blocks }
    | none => m
  | (key, value) :: rest =>
    let m := members rest
    match Expr.ofJson? value with
    | some e => { m with exprs := (key, e) :: m.exprs }
    | none => m

def blockOfJson? : List Json → Option Block
  | [] => some []
  | item :: rest => do return (← ofJson? item) :: (← blockOfJson? rest)

end

end Statement
end RecordService.Script

namespace RecordService

abbrev Script := Script.Block

/-- A script in a document. -/
def Script.ofJson? : Json → Option Script
  | .arr items => Script.Statement.blockOfJson? items
  | _ => none

end RecordService
