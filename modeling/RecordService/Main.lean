import RecordService.Catalog.Document
import RecordService.CommandLine.Commands
import RecordService.Config.Toml
import RecordService.Json.Printer
import RecordService.Store.Vacant
import RecordService.Worker.Link
import Std.Time

/-! # The program

Reads the words of the command line and the files that they name, has the command carried out, and prints what it
leaves behind. As a worker it serves a host over its standard input and output. The store that it opens has no rows. -/

namespace RecordService.CommandLine

/-- A failure of the system, as it is shown. -/
def systemMessage : IO.Error → String
  | .noFileOrDirectory .. => "No such file or directory (os error 2)"
  | .permissionDenied .. => "Permission denied (os error 13)"
  | e => toString e

/-- The text of a file, or why there is none. -/
def readFile (path : String) : IO (Except String String) := do
  try
    return .ok (← IO.FS.readFile path)
  catch e =>
    return .error (systemMessage e)

/-! ### Settings -/

/-- The file of the settings, if none is named. -/
def usualConfigFile : IO (Option String) := do
  if let some path ← IO.getEnv "RECORD_SERVICE_CONFIG" then return some path
  let inside (base : String) : String := base ++ "/record-service/config.toml"
  if let some base ← IO.getEnv "XDG_CONFIG_HOME" then return some (inside base)
  if let some home ← IO.getEnv "HOME" then return some (inside (home ++ "/.config"))
  return none

/-- The settings of a file. One that is not there says nothing. -/
def loadConfig (path : Option String) : IO (Except String Config) := do
  let some path := path <|> (← usualConfigFile) | return .ok .standard
  try
    match Config.ofText? (← IO.FS.readFile path) with
    | some c => return .ok c
    | none => return .error s!"failed to parse config {path}"
  catch
    | .noFileOrDirectory .. => return .ok .standard
    | e => return .error s!"failed to read config {path}: {systemMessage e}"

/-! ### Commands -/

/-- The time, in the form of internet dates. -/
def clock : IO String := do
  let now ← Std.Time.Timestamp.now
  return (Std.Time.DateTime.ofTimestamp now .UTC).format "uuuu-MM-dd'T'HH:mm:ss.SSSSSSSSS'Z'"

/-- The catalog in the text of a file. -/
def catalogOf : Except String String → Except String Catalog
  | .error reason => .error s!"I/O error: {reason}"
  | .ok text =>
    match Json.readLoosely? text with
    | some d => (Catalog.ofJson d).mapError Error.message
    | none => .error s!"{Error.message .document}: {Json.complaint text}"

/-- The script in the text of a file. -/
def scriptOf (file : Except String String) : Except String Script := do
  let d ← Json.readOrComplain (← file)
  (Script.ofJson? d).elim (.error "invalid script") .ok

/-- What there is, when these files have been read. -/
def surroundings (files : List (String × Except String String)) (clock : String) : Surroundings Vacant :=
  let file (path : String) : Except String String :=
    (files.lookup path).getD (.error "No such file or directory (os error 2)")
  { catalog := fun path => catalogOf (file path)
    database := fun _ catalog => .ok ⟨catalog⟩
    answer := Vacant.answer
    script := fun path => scriptOf (file path)
    processes := fun program =>
      match program.map fun path => (path, file path) with
      | some (path, .error reason) => fun _ => .error s!"{path}: {reason}"
      | _ => .standard
    clock }

/-- Has a command carried out. -/
def carryOut (config : Option String) (c : Command) : IO Report := do
  match ← loadConfig config with
  | .error message => return .ofResult (.error message)
  | .ok settings =>
    let files ← (c.files settings).mapM fun path => do return (path, ← readFile path)
    return c.perform (surroundings files (← clock)) settings

/-! ### Serving a host -/

/-- So many bytes, or fewer where the stream ends. -/
partial def readBytes (input : IO.FS.Stream) (size : Nat) (read : ByteArray) : IO ByteArray := do
  if size ≤ read.size then return read
  let more ← input.read (USize.ofNat (size - read.size))
  if more.isEmpty then return read
  readBytes input size (read ++ more)

/-- The bytes of the next frame. -/
def readFrame (input : IO.FS.Stream) : IO (List UInt8) := do
  let header ← readBytes input 4 .empty
  match header.toList with
  | [a, b, c, d] =>
    let size := Frame.length a b c d
    if Frame.bound < size then return header.toList
    return (← readBytes input (4 + size) header).toList
  | bytes => return bytes

def sendMessage (output : IO.FS.Stream) (m : WorkerMessage) : IO Unit := do
  match Frame.write m.toJson.compact.toUTF8.toList with
  | .ok bytes => do
    output.write ⟨bytes.toArray⟩
    output.flush
  | .error fault => throw (.userError fault.message)

/-- Serves a host until it hangs up or the worker ends. -/
partial def serveHost (input output : IO.FS.Stream) (w : Worker) : IO UInt32 := do
  match Inbound.ofBytes Script.ofJson? (← readFrame input) with
  | .ok message :: _ =>
    let (w, sent) := w.receive Script.run message
    if let some m := sent then sendMessage output m
    match w with
    | .stopped => return 0
    | w => serveHost input output w
  | .error _ :: _ => return if w.isCalling then 0 else 1
  | [] => return 0

/-- Announces a worker and serves a host. -/
def serveWorker : IO UInt32 := do
  let output ← IO.getStdout
  sendMessage output (.ready 0)
  serveHost (← IO.getStdin) output .waiting

/-- Prints what a command leaves behind. -/
def Report.print (r : Report) : IO UInt32 := do
  IO.print r.output
  IO.eprint r.error
  return UInt32.ofNat r.exit

end RecordService.CommandLine

open RecordService.CommandLine

def main (words : List String) : IO UInt32 := do
  match Invocation.ofWords words with
  | .ok .worker => serveWorker
  | .ok (.command config c) => (← carryOut config c).print
  | .error fault => (Report.ofFault fault).print
