import RecordService.Json.Basic
import RecordService.Text.Visible

/-! # Printing documents

`compact` puts no blank between tokens; it is the text of a document bound to a statement. `pretty` indents by two
blanks a level and writes empty containers on one line. `inspect` names the kind of every value, and is the text of a
document in messages about what was not expected. -/

namespace RecordService.Json

/-- A character inside a quoted text. Quotes, backslashes and control characters are escaped, all others stand
for themselves. -/
def escapeChar (c : Char) : List Char :=
  match c with
  | '"' => ['\\', '"']
  | '\\' => ['\\', '\\']
  | '\n' => ['\\', 'n']
  | '\r' => ['\\', 'r']
  | '\t' => ['\\', 't']
  | '\x08' => ['\\', 'b']
  | '\x0c' => ['\\', 'f']
  | c =>
    if c.toNat < 32 then
      ['\\', 'u', '0', '0', Nat.digitChar (c.toNat / 16), Nat.digitChar (c.toNat % 16)]
    else [c]

/-- A text in quotes. -/
def quote (text : String) : String :=
  String.ofList ('"' :: text.toList.flatMap escapeChar ++ ['"'])

mutual

/-- The document without blanks. -/
def compact : Json → String
  | .null => "null"
  | .bool true => "true"
  | .bool false => "false"
  | .num n => n.text
  | .str s => quote s
  | .arr items => "[" ++ String.intercalate "," (compactItems items) ++ "]"
  | .obj entries => "\x7b" ++ String.intercalate "," (compactEntries entries) ++ "\x7d"

def compactItems : List Json → List String
  | [] => []
  | item :: rest => compact item :: compactItems rest

def compactEntries : List (String × Json) → List String
  | [] => []
  | (key, value) :: rest => (quote key ++ ":" ++ compact value) :: compactEntries rest

end

/-- Indentation of a level. -/
def indent (level : Nat) : String :=
  String.ofList (List.replicate (2 * level) ' ')

/-- Lines of a container: one item a line, one level deeper than its brackets. -/
def block (level : Nat) (opening closing : String) (lines : List String) : String :=
  if lines.isEmpty then opening ++ closing
  else
    let inner := lines.map fun line => "\n" ++ indent (level + 1) ++ line
    opening ++ String.intercalate "," inner ++ "\n" ++ indent level ++ closing

mutual

/-- The document over several lines, standing at a level of indentation. -/
def prettyAt (level : Nat) : Json → String
  | .null => "null"
  | .bool true => "true"
  | .bool false => "false"
  | .num n => n.text
  | .str s => quote s
  | .arr items => block level "[" "]" (prettyItems (level + 1) items)
  | .obj entries => block level "\x7b" "\x7d" (prettyEntries (level + 1) entries)

def prettyItems (level : Nat) : List Json → List String
  | [] => []
  | item :: rest => prettyAt level item :: prettyItems level rest

def prettyEntries (level : Nat) : List (String × Json) → List String
  | [] => []
  | (key, value) :: rest => (quote key ++ ": " ++ prettyAt level value) :: prettyEntries level rest

end

/-- The document over several lines. -/
def pretty (value : Json) : String :=
  value.prettyAt 0

mutual

/-- The document with the kind of every value. -/
def inspect : Json → String
  | .null => "Null"
  | .bool b => "Bool(" ++ toString b ++ ")"
  | .num n => "Number(" ++ n.text ++ ")"
  | .str s => "String(" ++ Text.inspect '"' s ++ ")"
  | .arr items => "Array [" ++ String.intercalate ", " (inspectItems items) ++ "]"
  | .obj entries => "Object \x7b" ++ String.intercalate ", " (inspectEntries entries) ++ "\x7d"

def inspectItems : List Json → List String
  | [] => []
  | item :: rest => inspect item :: inspectItems rest

def inspectEntries : List (String × Json) → List String
  | [] => []
  | (key, value) :: rest => (Text.inspect '"' key ++ ": " ++ inspect value) :: inspectEntries rest

end

end RecordService.Json
