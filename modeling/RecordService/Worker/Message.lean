import RecordService.Json.Fields
import RecordService.Json.Printer

/-! # Messages between the host and a worker

The host sends scripts to execute and the results of calls; a worker announces itself, calls the host, and ends each
execution with a value or an error. A script is of any type `σ` that can be written as a document. -/

namespace RecordService

/-- Why a call failed, as the script gets to see it. -/
structure CallError where
  message : String
  status : Option UInt16
deriving DecidableEq, Repr

/-- What the host answers to a call. -/
abbrev CallReply := Except CallError Json

/-- What a script gets to see of its request, and the names that it may call. -/
structure ScriptContext where
  args : Json
  body : Json
  query : Json
  params : Json
  user : Json
  /-- The table that goes by the name `main`. -/
  mainTable : Option String
  tables : List String
  helpers : List String

/-- Bounds of one evaluation; a bound of zero operations is none. -/
structure SandboxLimits where
  operations : UInt64
  callLevels : UInt64
  stringSize : UInt64
  arraySize : UInt64
  mapSize : UInt64
deriving DecidableEq, Repr

/-- What the host sends. -/
inductive HostMessage (σ : Type) where
  | execute (execution : UInt64) (script : σ) (context : ScriptContext) (limits : SandboxLimits)
  | callResult (execution call : UInt64) (result : Option Json) (error : Option CallError)
  | shutdown

/-- What a worker sends. -/
inductive WorkerMessage where
  | ready (process : UInt32)
  | call (execution call : UInt64) (path : String) (args : List Json)
  | done (execution : UInt64) (data : Json)
  | error (execution : UInt64) (message : String) (stack : Option String) (status : Option UInt16)

/-- The execution that a message belongs to. -/
def HostMessage.execution? {σ : Type} : HostMessage σ → Option UInt64
  | execute execution .. => some execution
  | callResult execution .. => some execution
  | shutdown => none

/-- The execution that a message belongs to. -/
def WorkerMessage.execution? : WorkerMessage → Option UInt64
  | ready _ => none
  | call execution .. => some execution
  | done execution _ => some execution
  | error execution .. => some execution

/-! ### Words of fixed width -/

namespace Json

def word16? (d : Json) : Option UInt16 :=
  (countBelow? UInt16.size d).map UInt16.ofNat

def word32? (d : Json) : Option UInt32 :=
  (countBelow? UInt32.size d).map UInt32.ofNat

def word64? (d : Json) : Option UInt64 :=
  (countBelow? UInt64.size d).map UInt64.ofNat

def ofWord64 (n : UInt64) : Json :=
  .int n.toNat

/-- A member that is left out when there is nothing to write. -/
def member? {α : Type} (name : String) (write : α → Json) (value : Option α) : Entries :=
  (value.map fun v => (name, write v)).toList

/-- The tag of a message, and the message without it. The tag is the member `type` of an object, wherever it
stands, or the first item of an array. -/
def tagged? : Json → Option (String × Json)
  | .obj entries =>
    match entries.filter (·.1 == "type") with
    | [(_, .str tag)] => some (tag, .obj (entries.filter (·.1 != "type")))
    | _ => none
  | .arr (.str tag :: items) => some (tag, .arr items)
  | _ => none

/-- A message with its tag. -/
def withTag (tag : String) (members : Entries) : Json :=
  .obj (("type", .str tag) :: members)

end Json

/-! ### As documents -/

namespace CallError

def toJson (e : CallError) : Json :=
  .obj (("message", .str e.message) :: Json.member? "statusCode" (fun s : UInt16 => .int s.toNat) e.status)

def ofJson? (d : Json) : Option CallError := do
  let m ← d.members? ["message", "statusCode"]
  return {
    message := ← Json.field? m "message" Json.text?
    status := ← Json.fieldOr? m "statusCode" none (Json.optional? Json.word16?) }

end CallError

namespace ScriptContext

/-- The context that says nothing. -/
def empty : ScriptContext :=
  ⟨.null, .null, .null, .null, .null, none, [], []⟩

def toJson (c : ScriptContext) : Json :=
  .obj [("args", c.args), ("body", c.body), ("query", c.query), ("params", c.params), ("user", c.user),
        ("mainTable", Json.ofText? c.mainTable), ("tables", Json.ofTexts c.tables), ("helpers", Json.ofTexts c.helpers)]

def ofJson? (d : Json) : Option ScriptContext := do
  let m ← d.members? ["args", "body", "query", "params", "user", "mainTable", "tables", "helpers"]
  return {
    args := ← Json.fieldOr? m "args" .null Json.document?
    body := ← Json.fieldOr? m "body" .null Json.document?
    query := ← Json.fieldOr? m "query" .null Json.document?
    params := ← Json.fieldOr? m "params" .null Json.document?
    user := ← Json.fieldOr? m "user" .null Json.document?
    mainTable := ← Json.fieldOr? m "mainTable" none (Json.optional? Json.text?)
    tables := ← Json.fieldOr? m "tables" [] (Json.list? Json.text?)
    helpers := ← Json.fieldOr? m "helpers" [] (Json.list? Json.text?) }

end ScriptContext

namespace SandboxLimits

def standard : SandboxLimits :=
  ⟨1000000, 64, 1048576, 100000, 100000⟩

def toJson (l : SandboxLimits) : Json :=
  .obj [("max_operations", Json.ofWord64 l.operations), ("max_call_levels", Json.ofWord64 l.callLevels),
        ("max_string_size", Json.ofWord64 l.stringSize), ("max_array_size", Json.ofWord64 l.arraySize),
        ("max_map_size", Json.ofWord64 l.mapSize)]

def names : List String :=
  ["max_operations", "max_call_levels", "max_string_size", "max_array_size", "max_map_size"]

def ofJson? (d : Json) : Option SandboxLimits := do
  let m ← d.members? names
  return {
    operations := ← Json.fieldOr? m "max_operations" standard.operations Json.word64?
    callLevels := ← Json.fieldOr? m "max_call_levels" standard.callLevels Json.word64?
    stringSize := ← Json.fieldOr? m "max_string_size" standard.stringSize Json.word64?
    arraySize := ← Json.fieldOr? m "max_array_size" standard.arraySize Json.word64?
    mapSize := ← Json.fieldOr? m "max_map_size" standard.mapSize Json.word64? }

end SandboxLimits

namespace HostMessage

variable {σ : Type}

def toJson (script : σ → Json) : HostMessage σ → Json
  | execute execution s context limits =>
    Json.withTag "execute" [("executionId", Json.ofWord64 execution), ("script", script s),
      ("context", context.toJson), ("limits", limits.toJson)]
  | callResult execution call result error =>
    Json.withTag "call_result" ([("executionId", Json.ofWord64 execution), ("callId", Json.ofWord64 call)] ++
      Json.member? "result" id result ++ Json.member? "error" CallError.toJson error)
  | shutdown => Json.withTag "shutdown" []

def executeOfJson? (script? : Json → Option σ) (d : Json) : Option (HostMessage σ) := do
  let m ← d.members? ["executionId", "script", "context", "limits"]
  return .execute (← Json.field? m "executionId" Json.word64?) (← Json.field? m "script" script?)
    (← Json.field? m "context" ScriptContext.ofJson?) (← Json.field? m "limits" SandboxLimits.ofJson?)

def callResultOfJson? (d : Json) : Option (HostMessage σ) := do
  let m ← d.members? ["executionId", "callId", "result", "error"]
  return .callResult (← Json.field? m "executionId" Json.word64?) (← Json.field? m "callId" Json.word64?)
    (← Json.fieldOr? m "result" none (Json.optional? Json.document?))
    (← Json.fieldOr? m "error" none (Json.optional? CallError.ofJson?))

def ofJson? (script? : Json → Option σ) (d : Json) : Option (HostMessage σ) :=
  match d.tagged? with
  | some ("execute", members) => executeOfJson? script? members
  | some ("call_result", members) => callResultOfJson? members
  | some ("shutdown", .obj _) => some .shutdown
  | some ("shutdown", .arr []) => some .shutdown
  | _ => none

/-- What a result says to the script that called: an error first, and nothing is `null`. -/
def reply (result : Option Json) (error : Option CallError) : CallReply :=
  match error with
  | some e => .error e
  | none => .ok (result.getD .null)

/-- The result in a reply. -/
def result? : CallReply → Option Json
  | .ok value => some value
  | .error _ => none

/-- The error in a reply. -/
def error? : CallReply → Option CallError
  | .ok _ => none
  | .error e => some e

/-- The reply to a call as a message. -/
def ofReply (execution call : UInt64) (r : CallReply) : HostMessage σ :=
  .callResult execution call (result? r) (error? r)

end HostMessage

namespace WorkerMessage

def toJson : WorkerMessage → Json
  | ready process => Json.withTag "ready" [("pid", .int process.toNat)]
  | call execution id path args =>
    Json.withTag "call" [("executionId", Json.ofWord64 execution), ("callId", Json.ofWord64 id),
      ("path", .str path), ("args", .arr args)]
  | done execution data => Json.withTag "done" [("executionId", Json.ofWord64 execution), ("data", data)]
  | error execution message stack status =>
    Json.withTag "error" ([("executionId", Json.ofWord64 execution), ("message", .str message)] ++
      Json.member? "stack" .str stack ++ Json.member? "statusCode" (fun s : UInt16 => .int s.toNat) status)

def readyOfJson? (d : Json) : Option WorkerMessage := do
  let m ← d.members? ["pid"]
  return .ready (← Json.field? m "pid" Json.word32?)

def callOfJson? (d : Json) : Option WorkerMessage := do
  let m ← d.members? ["executionId", "callId", "path", "args"]
  return .call (← Json.field? m "executionId" Json.word64?) (← Json.field? m "callId" Json.word64?)
    (← Json.field? m "path" Json.text?) (← Json.field? m "args" (Json.list? Json.document?))

def doneOfJson? (d : Json) : Option WorkerMessage := do
  let m ← d.members? ["executionId", "data"]
  return .done (← Json.field? m "executionId" Json.word64?) (← Json.field? m "data" Json.document?)

def errorOfJson? (d : Json) : Option WorkerMessage := do
  let m ← d.members? ["executionId", "message", "stack", "statusCode"]
  return .error (← Json.field? m "executionId" Json.word64?) (← Json.field? m "message" Json.text?)
    (← Json.fieldOr? m "stack" none (Json.optional? Json.text?))
    (← Json.fieldOr? m "statusCode" none (Json.optional? Json.word16?))

def ofJson? (d : Json) : Option WorkerMessage :=
  match d.tagged? with
  | some ("ready", members) => readyOfJson? members
  | some ("call", members) => callOfJson? members
  | some ("done", members) => doneOfJson? members
  | some ("error", members) => errorOfJson? members
  | _ => none

/-- A record by its name and the texts of its fields. -/
def inspectRecord (name : String) (fields : List (String × String)) : String :=
  name ++ " \x7b " ++ String.intercalate ", " (fields.map fun (field, text) => field ++ ": " ++ text) ++ " \x7d"

/-- The text of a value that may be missing. -/
def inspectOption {α : Type} (text : α → String) : Option α → String
  | none => "None"
  | some value => "Some(" ++ text value ++ ")"

/-- The message with the names of its fields, as errors show it. -/
def inspect : WorkerMessage → String
  | ready process => inspectRecord "Ready" [("pid", toString process)]
  | call execution id path args =>
    inspectRecord "Call" [("execution_id", toString execution), ("call_id", toString id),
      ("path", Text.inspect '"' path), ("args", "[" ++ String.intercalate ", " (args.map Json.inspect) ++ "]")]
  | done execution data => inspectRecord "Done" [("execution_id", toString execution), ("data", data.inspect)]
  | error execution message stack status =>
    inspectRecord "Error" [("execution_id", toString execution), ("message", Text.inspect '"' message),
      ("stack", inspectOption (Text.inspect '"') stack), ("status_code", inspectOption toString status)]

end WorkerMessage
end RecordService
