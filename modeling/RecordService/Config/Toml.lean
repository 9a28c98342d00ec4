import RecordService.Config.Document
import RecordService.Json.Token

/-! # Settings in TOML

A settings file is TOML: lines of keys and values, under the headers of their tables. What stands in it is read as a
document. Dates, texts over several lines and arrays of tables are not read. -/

namespace RecordService.Toml

/-- The characters after the blanks of a line. -/
def skipBlanks (cs : List Char) : List Char :=
  cs.dropWhile fun c => c == ' ' || c == '\t'

/-- The characters after blanks, line ends and comments. -/
def skipLines (comment : Bool) : List Char → List Char
  | [] => []
  | '\n' :: rest => skipLines false rest
  | c :: rest =>
    if comment || c == ' ' || c == '\t' || c == '\r' then skipLines comment rest
    else if c == '#' then skipLines true rest
    else c :: rest

/-- What follows the end of a line, which may hold a comment. -/
def endLine? (cs : List Char) : Option (List Char) :=
  match skipBlanks cs with
  | [] => some []
  | '\n' :: rest => some rest
  | '\r' :: '\n' :: rest => some rest
  | '#' :: rest => some (skipLines true rest)
  | _ => none

/-! ### Texts -/

/-- The character with a number, if it is one. -/
def scalar? (code : Nat) : Option Char :=
  if code < 0xD800 || (0xE000 ≤ code && code < 0x110000) then some (Char.ofNat code) else none

/-- The character of an escape of one letter. -/
def escape? : Char → Option Char
  | '/' => none
  | c => Json.plainEscape? c

/-- The characters up to the closing double quote, and what follows it. -/
def quoted? : List Char → Option (List Char × List Char)
  | '"' :: rest => some ([], rest)
  | '\\' :: 'u' :: a :: b :: c :: d :: rest => do
    let code ← scalar? (← Json.hexWord? a b c d)
    let (text, rest) ← quoted? rest
    return (code :: text, rest)
  | '\\' :: 'U' :: a :: b :: c :: d :: e :: f :: g :: h :: rest => do
    let code ← scalar? ((← Json.hexWord? a b c d) * 65536 + (← Json.hexWord? e f g h))
    let (text, rest) ← quoted? rest
    return (code :: text, rest)
  | '\\' :: c :: rest => do
    let c ← escape? c
    let (text, rest) ← quoted? rest
    return (c :: text, rest)
  | c :: rest =>
    if c == '\\' || (c.toNat < 32 && c != '\t') || c.toNat == 127 then none
    else do
      let (text, rest) ← quoted? rest
      return (c :: text, rest)
  | [] => none

/-- The characters up to the closing single quote, and what follows it. Nothing in them is an escape. -/
def literal? (cs : List Char) : Option (List Char × List Char) :=
  let text := cs.takeWhile (· != '\'')
  match cs.dropWhile (· != '\'') with
  | _ :: rest => if text.all fun c => 32 ≤ c.toNat || c == '\t' then some (text, rest) else none
  | [] => none

/-! ### Keys -/

def isBareKey (c : Char) : Bool :=
  c.isAlphanum || c == '_' || c == '-'

def keyPart? : List Char → Option (String × List Char)
  | '"' :: rest => (quoted? rest).map fun (text, rest) => (String.ofList text, rest)
  | '\'' :: rest => (literal? rest).map fun (text, rest) => (String.ofList text, rest)
  | cs =>
    let name := cs.takeWhile isBareKey
    if name.isEmpty then none else some (String.ofList name, cs.dropWhile isBareKey)

/-- The parts of a key with points, in so many rounds at most. -/
def keyRounds : Nat → List Char → Option (List String × List Char)
  | 0, _ => none
  | more + 1, cs => do
    let (part, rest) ← keyPart? (skipBlanks cs)
    match skipBlanks rest with
    | '.' :: rest => do
      let (parts, rest) ← keyRounds more rest
      return (part :: parts, rest)
    | rest => return ([part], rest)

def key? (cs : List Char) : Option (List String × List Char) :=
  keyRounds (cs.length + 1) cs

/-! ### Tables -/

/-- A new member under a path of tables. A name that is taken is refused, unless a table is to be entered. -/
def insert? (es : Entries) (path : List String) (value : Json) : Option Entries :=
  match path with
  | [] => none
  | [name] => if (Entries.get? es name).isSome then none else some (es ++ [(name, value)])
  | name :: rest =>
    match Entries.get? es name with
    | some (.obj inner) => (insert? inner rest value).map fun inner => Entries.put es name (.obj inner)
    | some _ => none
    | none => (insert? [] rest value).map fun inner => es ++ [(name, .obj inner)]

/-- The members with a table under a path. A table may be there already if it came with a longer path. -/
def enter? (es : Entries) (path : List String) : Option Entries :=
  match path with
  | [] => some es
  | name :: rest =>
    match Entries.get? es name with
    | some (.obj inner) => (enter? inner rest).map fun inner => Entries.put es name (.obj inner)
    | some _ => none
    | none => (enter? [] rest).map fun inner => es ++ [(name, .obj inner)]

/-! ### Values -/

/-- The digits of a number without the marks between them. -/
def digits? (cs : List Char) : Option (List Char) :=
  let digits := cs.filter (· != '_')
  if digits.isEmpty || cs.head? == some '_' || cs.getLast? == some '_' || !digits.all Char.isAlphanum then none
  else some digits

/-- The number of digits to a base. -/
def ofBase? (base : Nat) (cs : List Char) : Option Nat := do
  (← digits? cs).foldlM (fun n c => do
    let d ← Json.hexValue? c
    if d < base then some (n * base + d) else none) 0

/-- A whole number of 64 bits. -/
def whole? (negative : Bool) (n : Nat) : Option Json :=
  let i : Int := if negative then -n else n
  if fitsInt64 i then some (.int i) else none

/-- A number without its sign. -/
def magnitude? (negative : Bool) (word : List Char) : Option Json :=
  match word with
  | '0' :: 'x' :: rest => (ofBase? 16 rest).bind (whole? negative)
  | '0' :: 'o' :: rest => (ofBase? 8 rest).bind (whole? negative)
  | '0' :: 'b' :: rest => (ofBase? 2 rest).bind (whole? negative)
  | _ => do
    if word.head? == some '_' || word.getLast? == some '_' then none
    match ← Json.scanNumber? negative (word.filter (· != '_')) with
    | (.num (.int i), []) => whole? (i < 0) i.natAbs
    | (.num n, []) => some (.num n)
    | _ => none

/-- The value of a word: a truth value or a number. -/
def word? : List Char → Option Json
  | ['t', 'r', 'u', 'e'] => some (.bool true)
  | ['f', 'a', 'l', 's', 'e'] => some (.bool false)
  | ['0'] => some (.int 0)
  | ['-', '0'] => some (.int 0)
  | '+' :: rest => magnitude? false rest
  | '-' :: rest => magnitude? true rest
  | rest => magnitude? false rest

def isWordChar (c : Char) : Bool :=
  c.isAlphanum || c == '_' || c == '-' || c == '+' || c == '.'

mutual

/-- A value, in so many rounds at most. -/
def value? : Nat → List Char → Option (Json × List Char)
  | 0, _ => none
  | more + 1, cs =>
    match cs with
    | '"' :: rest => (quoted? rest).map fun (text, rest) => (.str (String.ofList text), rest)
    | '\'' :: rest => (literal? rest).map fun (text, rest) => (.str (String.ofList text), rest)
    | '[' :: rest => (items? more (skipLines false rest)).map fun (items, rest) => (.arr items, rest)
    | '\x7b' :: rest =>
      match skipBlanks rest with
      | '\x7d' :: rest => some (.obj [], rest)
      | rest => (members? more [] rest).map fun (es, rest) => (.obj es, rest)
    | _ => (word? (cs.takeWhile isWordChar)).map (·, cs.dropWhile isWordChar)

/-- The items of an array up to its end. -/
def items? : Nat → List Char → Option (List Json × List Char)
  | 0, _ => none
  | _ + 1, ']' :: rest => some ([], rest)
  | more + 1, cs => do
    let (item, rest) ← value? more cs
    match skipLines false rest with
    | ',' :: rest => do
      let (items, rest) ← items? more (skipLines false rest)
      return (item :: items, rest)
    | ']' :: rest => return ([item], rest)
    | _ => none

/-- The members of a table in braces up to its end. -/
def members? : Nat → Entries → List Char → Option (Entries × List Char)
  | 0, _, _ => none
  | more + 1, es, cs => do
    let (path, rest) ← key? cs
    match rest with
    | '=' :: rest => do
      let (value, rest) ← value? more (skipBlanks rest)
      let es ← insert? es path value
      match skipBlanks rest with
      | ',' :: rest => members? more es rest
      | '\x7d' :: rest => return (es, rest)
      | _ => none
    | _ => none

end

/-! ### Documents -/

/-- What has been read. -/
structure Reading where
  entries : Entries
  /-- The table that the next keys belong to. -/
  table : List String
  /-- The tables that have had their header. -/
  headers : List (List String)

/-- A header or a key with its value, and what follows the line. -/
def line? (r : Reading) (cs : List Char) : Option (Reading × List Char) := do
  match cs with
  | '[' :: rest =>
    let (path, rest) ← key? rest
    match rest with
    | ']' :: rest =>
      if r.headers.contains path then none
      return (⟨← enter? r.entries path, path, path :: r.headers⟩, ← endLine? rest)
    | _ => none
  | _ =>
    let (path, rest) ← key? cs
    match rest with
    | '=' :: rest =>
      let (value, rest) ← value? (rest.length + 1) (skipBlanks rest)
      return ({ r with entries := ← insert? r.entries (r.table ++ path) value }, ← endLine? rest)
    | _ => none

/-- The lines of a text, in so many rounds at most. -/
def lines? : Nat → Reading → List Char → Option Entries
  | 0, _, _ => none
  | more + 1, r, cs =>
    match skipLines false cs with
    | [] => some r.entries
    | cs => do
      let (r, rest) ← line? r cs
      lines? more r rest

/-- The document of a text. -/
def read? (text : String) : Option Json :=
  let cs := text.toList
  (lines? (cs.length + 1) ⟨[], [], []⟩ cs).map .obj

end RecordService.Toml

namespace RecordService.Config

/-- The settings of a text. -/
def ofText? (text : String) : Option Config :=
  (Toml.read? text).bind ofJson?

end RecordService.Config
