import RecordService.Script.Basic
import RecordService.Script.Run

/-! # Evaluating scripts

Expressions are evaluated from left to right, and arguments before the call. A name holds until the end of its block;
a later one of the same name hides it. What can have no effect is left out (`Expr.isIdle`, `Statement.isIdle`), even
when it names something that is not there. An endless loop ends only if the operations are bounded. -/

namespace RecordService.Script

/-- The values of names, the last given first. -/
abbrev Env := List (String × Value)

/-- What goes on after a statement. -/
inductive Flow where
  | next (env : Env)
  | finished (value : Value)

/-! ### Steps into a value -/

/-- A place among so many; a negative one counts from the end. -/
def placeIn? (size : Nat) (place : Int) : Option Nat :=
  let i := if place < 0 then size + place else place
  if 0 ≤ i && i < size then some i.toNat else none

/-- A bit of an integer, the lowest at place zero. -/
def bit (i : Int) (place : Nat) : Bool :=
  i / (twoPow place : Int) % 2 == 1

/-- The bits of an integer. -/
def bitCount : Nat := 64

def Access.typeName : Access → String
  | .key name => (Value.text name).typeName
  | .place i => (Value.int i).typeName

/-- The fault of a step that is not of the type of this one. -/
def Access.instead (a expected : Access) : Fault :=
  .wrongStep expected.typeName a.typeName

/-- One step into a value. A key that a map lacks leads to nothing. -/
def step : Value → Access → Except Fault Value
  | .map entries, .key name => .ok ((Value.get? entries name).getD .unit)
  | .map _, a => .error (a.instead (.key ""))
  | .array items, .place i =>
    match (placeIn? items.length i).bind (items[·]?) with
    | some item => .ok item
    | none => .error (.outOfArray i items.length)
  | .text s, .place i =>
    match (placeIn? s.length i).bind (s.toList[·]?) with
    | some c => .ok (.char c)
    | none => .error (.outOfText i s.length)
  | .int n, .place i =>
    match placeIn? bitCount i with
    | some place => .ok (.bool (bit n place))
    | none => .error (.outOfBits i bitCount)
  | .array _, a | .text _, a | .int _, a => .error (a.instead (.place 0))
  | value, a => .error (.noParts value.typeName a.typeName)

/-- A part of the value of a name. -/
def lookUp (env : Env) (name : String) (path : List Access) : Except Fault Value :=
  match env.lookup name with
  | some value => path.foldlM step value
  | none => .error (.unknownName name)

/-! ### Expressions -/

mutual

/-- Whether the expression can have no effect: it builds a value from names and literals. -/
def Expr.isIdle : Expr → Bool
  | .literal _ => true
  | .get _ path => path.isEmpty
  | .map entries => entriesIdle entries
  | .list items => itemsIdle items
  | .call .. => false

def Expr.itemsIdle : List Expr → Bool
  | [] => true
  | item :: rest => Expr.isIdle item && itemsIdle rest

def Expr.entriesIdle : List (String × Expr) → Bool
  | [] => true
  | (_, item) :: rest => Expr.isIdle item && entriesIdle rest

end

mutual

def Expr.eval (c : ScriptContext) (env : Env) : Expr → Run Value
  | .literal value => .done (.ofJson value)
  | .get name path => .ofExcept (lookUp env name path)
  | .map entries => do return .ofEntries (← evalEntries c env entries)
  | .list items => do return .array (← evalItems c env items)
  | .call callee args => do
    let values ← evalItems c env args
    Run.ask (← .ofExcept (callee.path c values)) values

def Expr.evalItems (c : ScriptContext) (env : Env) : List Expr → Run (List Value)
  | [] => .done []
  | item :: rest => do
    let value ← Expr.eval c env item
    return value :: (← evalItems c env rest)

def Expr.evalEntries (c : ScriptContext) (env : Env) : List (String × Expr) → Run (List (String × Value))
  | [] => .done []
  | (key, item) :: rest => do
    let value ← Expr.eval c env item
    return (key, value) :: (← evalEntries c env rest)

end

/-! ### Statements -/

/-- Whether the statement at the end of a block can have no effect: the names of the block end with it. -/
def Statement.isIdle : Statement → Bool
  | .bind _ e | .eval e => e.isIdle
  | _ => false

/-- Whether nothing but idle statements is left of a block. -/
def idleFrom (block : Block) : Bool :=
  block.all Statement.isIdle

/-- The names from before a block, after it. -/
def leave (env : Env) : Flow → Flow
  | .next _ => .next env
  | flow => flow

mutual

/-- Runs a statement; `bounded` says whether the number of operations is. -/
def Statement.exec (c : ScriptContext) (bounded : Bool) (env : Env) : Statement → Run Flow
  | .bind name e => do return .next ((name, ← e.eval c env) :: env)
  | .eval e =>
    if e.isIdle then .done (.next env)
    else do
      let _ ← e.eval c env
      return .next env
  | .print e => do
    let _ ← e.eval c env
    return .next env
  | .finish e => do return .finished (← e.eval c env)
  | .throw e => do .thrown ⟨← e.eval c env, false⟩
  | .throwFromFunction e => do .thrown ⟨← e.eval c env, true⟩
  | .attempt block name handler => do
    let flow ← (execInner c bounded env block).handle fun value => execInner c bounded ((name, value) :: env) handler
    return leave env flow
  | .spin => if bounded then .failed "Too many operations" else .endless

/-- Runs the statements of a block inside a script, up to the idle ones at its end. -/
def Statement.execInner (c : ScriptContext) (bounded : Bool) (env : Env) : List Statement → Run Flow
  | [] => .done (.next env)
  | s :: rest =>
    if idleFrom (s :: rest) then .done (.next env)
    else do
      match ← Statement.exec c bounded env s with
      | .next env => execInner c bounded env rest
      | .finished value => return .finished value

end

/-- Runs the statements of a script. -/
def execBlock (c : ScriptContext) (bounded : Bool) (env : Env) : Block → Run Flow
  | [] => .done (.next env)
  | s :: rest => do
    match ← s.exec c bounded env with
    | .next env => execBlock c bounded env rest
    | .finished value => return .finished value

/-- The names that every script starts with. -/
def start (c : ScriptContext) : Env :=
  [("args", .ofJson c.args), ("body", .ofJson c.body), ("query", .ofJson c.query), ("params", .ofJson c.params),
   ("user", .ofJson c.user)]

/-- Runs a script. -/
def run : Interpreter Script := fun script context limits => do
  match ← execBlock context (limits.operations != 0) (start context) script with
  | .next _ => return .null
  | .finished value => return value.toJson

end RecordService.Script
