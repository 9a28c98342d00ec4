/-! # The words of the command line

Options are given as `--name=value`, as `--name value`, or, if they take no value, as `--name`. The one word that is
no option names the command; which options there are depends on it. A value is checked as it is read. -/

namespace RecordService.CommandLine

/-- What the value of an option may be. -/
inductive ValueKind where
  | text
  /-- A text that is not empty. -/
  | path
  | count
  /-- One of a few words. -/
  | choice (words : List String)
deriving DecidableEq, Repr

/-- An option that may be given. -/
structure OptionSpec where
  name : String
  /-- Its value and what messages call it; without it, the option takes none. -/
  value : Option (String × ValueKind)
  /-- Whether a value that is a word of its own may start with a hyphen. -/
  hyphens : Bool
deriving DecidableEq, Repr

/-- What is wrong with the words. -/
inductive UsageFault where
  | unexpected (word : String)
  | unknownCommand (word : String)
  | noCommand
  | noValue (option : String)
  | valueRefused (value option : String)
  | repeated (option : String)
  | badCount (value option reason : String)
  | badChoice (value option : String) (words : List String)
  | missing (option : String)
deriving DecidableEq, Repr

namespace UsageFault

def message : UsageFault → String
  | unexpected word => s!"unexpected argument '{word}' found"
  | unknownCommand word => s!"unrecognized subcommand '{word}'"
  | noCommand => "a subcommand is required but none was provided"
  | noValue option => s!"a value is required for '{option}' but none was supplied"
  | valueRefused value option => s!"unexpected value '{value}' for '{option}' found; no more were expected"
  | repeated option => s!"the argument '{option}' cannot be used multiple times"
  | badCount value option reason => s!"invalid value '{value}' for '{option}': {reason}"
  | badChoice value option words =>
    s!"invalid value '{value}' for '{option}'\n  [possible values: " ++ String.intercalate ", " words ++ "]"
  | missing option => s!"the following required arguments were not provided:\n  {option}"

end UsageFault

namespace OptionSpec

def flag (name : String) : OptionSpec :=
  ⟨name, none, false⟩

def text (name label : String) : OptionSpec :=
  ⟨name, some (label, .text), false⟩

def path (name label : String) : OptionSpec :=
  ⟨name, some (label, .path), false⟩

def count (name label : String) : OptionSpec :=
  ⟨name, some (label, .count), false⟩

/-- The option as messages show it. -/
def shown (o : OptionSpec) : String :=
  match o.value with
  | some (label, _) => s!"--{o.name} <{label}>"
  | none => s!"--{o.name}"

end OptionSpec

/-- A count of 64 bits, with an optional plus sign. -/
def countOf (text : String) : Except String Nat :=
  let digits := match text.toList with
    | '+' :: digits => digits
    | digits => digits
  if text.isEmpty then .error "cannot parse integer from empty string"
  else if digits.isEmpty || !digits.all Char.isDigit then .error "invalid digit found in string"
  else
    let n := digits.foldl (fun n d => n * 10 + (d.toNat - '0'.toNat)) 0
    if n < UInt64.size then .ok n else .error "number too large to fit in target type"

/-- Refuses a value that is not of its kind. -/
def checkValue (o : OptionSpec) (value : String) : Except UsageFault Unit :=
  match o.value with
  | some (_, .count) =>
    match countOf value with
    | .ok _ => .ok ()
    | .error reason => .error (.badCount value o.shown reason)
  | some (_, .path) => if value.isEmpty then .error (.noValue o.shown) else .ok ()
  | some (_, .choice words) => if words.contains value then .ok () else .error (.badChoice value o.shown words)
  | _ => .ok ()

/-- The name of an option and the value that stands in the same word. -/
def splitOption (word : String) : String × Option String :=
  let cs := word.toList.drop 2
  let name := String.ofList (cs.takeWhile (· != '='))
  match cs.dropWhile (· != '=') with
  | _ :: value => (name, some (String.ofList value))
  | [] => (name, none)

/-- What has been read. -/
structure Reading where
  /-- The options that may be given now. -/
  specs : List OptionSpec
  command : Option String
  /-- The option whose value is the next word. -/
  pending : Option OptionSpec
  /-- The options given, with their values. -/
  given : List (String × String)
deriving DecidableEq, Repr

namespace Reading

def start (specs : List OptionSpec) : Reading :=
  ⟨specs, none, none, []⟩

/-- Notes an option and its value. -/
def give (r : Reading) (o : OptionSpec) (value : String) : Except UsageFault Reading := do
  if (r.given.lookup o.name).isSome then throw (.repeated o.shown)
  checkValue o value
  return { r with pending := none, given := r.given ++ [(o.name, value)] }

/-- Reads a word that is an option. -/
def takeOption (r : Reading) (word : String) : Except UsageFault Reading :=
  let (name, value) := splitOption word
  match r.specs.find? (·.name == name) with
  | none => .error (.unexpected s!"--{name}")
  | some o =>
    match o.value, value with
    | some _, some value => r.give o value
    | some _, none => .ok { r with pending := some o }
    | none, some value => .error (.valueRefused value o.shown)
    | none, none => r.give o ""

/-- Reads a word that is no option: the command, once. -/
def takeCommand (commands : List (String × List OptionSpec)) (r : Reading) (word : String) :
    Except UsageFault Reading :=
  match r.command, commands.lookup word with
  | some _, _ => .error (.unexpected word)
  | none, some specs => .ok { r with command := some word, specs := r.specs ++ specs }
  | none, none => .error (.unknownCommand word)

/-- Reads a word. -/
def take (commands : List (String × List OptionSpec)) (r : Reading) (word : String) : Except UsageFault Reading :=
  match r.pending with
  | some o => if "-".isPrefixOf word && !o.hyphens then .error (.noValue o.shown) else r.give o word
  | none => if "-".isPrefixOf word then r.takeOption word else takeCommand commands r word

/-- Reads all words. -/
def ofWords (specs : List OptionSpec) (commands : List (String × List OptionSpec)) (words : List String) :
    Except UsageFault Reading := do
  let r ← words.foldlM (take commands) (start specs)
  match r.pending with
  | some o => throw (.noValue o.shown)
  | none => return r

def text? (r : Reading) (name : String) : Option String :=
  r.given.lookup name

def count? (r : Reading) (name : String) : Option Nat :=
  (r.text? name).bind fun value => (countOf value).toOption

def has (r : Reading) (name : String) : Bool :=
  (r.text? name).isSome

/-- The value of an option that has to be given. -/
def need (r : Reading) (o : OptionSpec) : Except UsageFault String :=
  match r.text? o.name with
  | some value => .ok value
  | none => .error (.missing o.shown)

end Reading
end RecordService.CommandLine
