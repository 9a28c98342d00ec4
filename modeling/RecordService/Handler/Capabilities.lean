import RecordService.Handler.Target
import RecordService.Json.Printer
import RecordService.Repository.Basic
import RecordService.Text.Slug
import RecordService.Worker.Message

/-! # What scripts may ask of the host

A call is answered by the repository of a table, by a helper, or by the error that it names. Every failure goes back
to the script as a message, most of them with a status. -/

namespace RecordService

/-- A helper answers from the arguments, or never. -/
abbrev Helper := List Json → Option CallReply

namespace CallError

def withStatus (status : UInt16) (message : String) : CallError :=
  ⟨message, some status⟩

def ofError (e : Error) : CallError :=
  withStatus (UInt16.ofNat e.status) e.message

end CallError

namespace Helper

/-- The slug of a text or a number. -/
def slugify : Helper := fun args => some <|
  match args.head? with
  | some (.str text) => .ok (.str (Text.slugify text))
  | some (.num n) => .ok (.str (Text.slugify n.text))
  | _ => .error (.withStatus 400 "slugify expects a string")

/-- The time that a clock shows. -/
def now (clock : String) : Helper :=
  fun _ => some (.ok (.str clock))

end Helper

structure Capabilities where
  registry : Registry
  /-- The helpers in order of their names. -/
  helpers : List (String × Helper)

namespace Capabilities

/-- Capabilities with the helpers that are always there. -/
def standard (registry : Registry) (clock : String) : Capabilities :=
  ⟨registry, [("now", Helper.now clock), ("slugify", Helper.slugify)]⟩

/-- Adds a helper, in the place of one of the same name. -/
def withHelper (c : Capabilities) (name : String) (helper : Helper) : Capabilities :=
  let before := c.helpers.filter (·.1 < name)
  let after := c.helpers.filter (name < ·.1)
  { c with helpers := before ++ (name, helper) :: after }

def helperNames (c : Capabilities) : List String :=
  c.helpers.map (·.1)

/-- The message of an error that a script throws by a call. -/
def thrownMessage (args : List Json) : String :=
  match args.head? with
  | some (.str message) => message
  | some .null => ""
  | some value => value.compact
  | none => ""

/-- The request in the argument of a find. -/
def requestOf : Json → Except CallError FindRequest
  | .null => .ok .all
  | d => (FindRequest.ofJson? d).elim (.error (.withStatus 400 "invalid find request")) .ok

/-- Lets an operation fail as a call fails. -/
def lift {α : Type} (op : Operation α) : ExceptT CallError Program α :=
  ExceptT.mk ((Except.mapError CallError.ofError) <$> op.run)

/-- Calls a method on the records of a repository. -/
def callRecords (r : Repository) (method : RecordMethod) (args : List Json) : ExceptT CallError Program Json := do
  if args.length < method.arity then
    throw (.withStatus 400 s!"repos.{r.table}.{method.name} expects {method.arity} argument(s)")
  let first := args.head?.getD .null
  let second := args.tail.head?.getD .null
  match method with
  | .find => do
    let request ← ExceptT.mk (.done (requestOf first))
    return (← lift (r.find request)).toJson
  | .findOne => return (← lift (r.findOne first)).getD .null
  | .create => lift (r.create first)
  | .update => lift (r.update first second)
  | .delete => do
    lift (r.delete first)
    return .bool true

/-- The table that a script means by a name. -/
def tableOf (context : ScriptContext) (name : String) : Except CallError String :=
  match name, context.mainTable with
  | "main", some main => .ok main
  | "main", none => .error (.withStatus 400 "no main table for this request")
  | _, _ => .ok name

/-- Answers a call, if it is ever answered. -/
def invoke (c : Capabilities) (context : ScriptContext) (path : String) (args : List Json) :
    Program (Option CallReply) :=
  match CallTarget.ofPath? path with
  | none => return some (.error (.withStatus 400 s!"unknown capability '{path}'"))
  | some (.failure status) => return some (.error (.withStatus status (thrownMessage args)))
  | some (.helper name) =>
    match c.helpers.lookup name with
    | some helper => return helper args
    | none => return some (.error (.withStatus 400 s!"unknown helper '{name}'"))
  | some (.records name method) => do
    let reply ← ExceptT.run do
      let table ← ExceptT.mk (.done (tableOf context name))
      callRecords (← lift (c.registry.repository table)) method args
    return some reply

end Capabilities
end RecordService
