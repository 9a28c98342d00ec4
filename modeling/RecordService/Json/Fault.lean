import RecordService.Json.Reader

/-! # What is wrong with a text

A text that is no document has a first place where a reader has to give up. `fault` finds it: it goes through the
bytes with the kinds of the open containers, and says what it met and where. -/

namespace RecordService.Json

inductive FaultKind where
  | endInArray
  | endInObject
  | endInText
  | endInValue
  | colon
  | arrayComma
  | objectComma
  | word
  | value
  | escape
  | number
  | range
  | control
  | key
  | surrogate
  | unfinishedPair
  | trailingComma
  | trailing
  | depth
deriving DecidableEq, Repr

def FaultKind.message : FaultKind → String
  | endInArray => "EOF while parsing a list"
  | endInObject => "EOF while parsing an object"
  | endInText => "EOF while parsing a string"
  | endInValue => "EOF while parsing a value"
  | colon => "expected `:`"
  | arrayComma => "expected `,` or `]`"
  | objectComma => "expected `,` or `\x7d`"
  | word => "expected ident"
  | value => "expected value"
  | escape => "invalid escape"
  | number => "invalid number"
  | range => "number out of range"
  | control => "control character (\\u0000-\\u001F) found while parsing a string"
  | key => "key must be a string"
  | surrogate => "lone leading surrogate in hex escape"
  | unfinishedPair => "unexpected end of hex escape"
  | trailingComma => "trailing comma"
  | trailing => "trailing characters"
  | depth => "recursion limit exceeded"

/-- What is met, after so many bytes. -/
structure Fault where
  kind : FaultKind
  offset : Nat
deriving DecidableEq, Repr

/-- A place in a text: the bytes before it, and those that follow. -/
structure Cursor where
  taken : Nat
  rest : List UInt8
deriving DecidableEq, Repr

namespace Cursor

/-- The place after so many bytes more. -/
def skip (c : Cursor) (n : Nat) : Cursor :=
  ⟨c.taken + n, c.rest.drop n⟩

/-- The place of the first byte that a test refuses. -/
def skipWhile (c : Cursor) (p : UInt8 → Bool) : Cursor :=
  ⟨c.taken + (c.rest.takeWhile p).length, c.rest.dropWhile p⟩

/-- The place after the blanks. -/
def token (c : Cursor) : Cursor :=
  c.skipWhile fun b => b == 32 || b == 10 || b == 9 || b == 13

/-- A fault in what has been taken. -/
def here (c : Cursor) (kind : FaultKind) : Fault :=
  ⟨kind, c.taken⟩

/-- A fault in the byte that comes next. -/
def ahead (c : Cursor) (kind : FaultKind) : Fault :=
  ⟨kind, c.taken + (c.rest.take 1).length⟩

/-- Whether the next byte is the one. -/
def sees (c : Cursor) (b : UInt8) : Bool :=
  c.rest.head? == some b

end Cursor

abbrev Scan := Except Fault Cursor

def isDigitByte (b : UInt8) : Bool :=
  48 ≤ b && b ≤ 57

/-- The rest of a word. -/
def scanWord (c : Cursor) : List UInt8 → Scan
  | [] => .ok c
  | b :: more =>
    match c.rest with
    | [] => .error (c.here .endInValue)
    | found :: _ => if found == b then scanWord (c.skip 1) more else .error ((c.skip 1).here .word)

/-! ### Numbers -/

/-- The digits of an exponent, after its letter and its sign. -/
def exponentDigits (c : Cursor) : Scan :=
  match c.rest with
  | [] => .error (c.here .endInValue)
  | b :: _ => if isDigitByte b then .ok (c.skipWhile isDigitByte) else .error ((c.skip 1).here .number)

/-- An exponent, if there is one. -/
def exponentPart (c : Cursor) : Scan :=
  if c.sees 101 || c.sees 69 then
    let c := c.skip 1
    exponentDigits (if c.sees 43 || c.sees 45 then c.skip 1 else c)
  else .ok c

/-- The places, if there is a point. -/
def placesPart (c : Cursor) : Scan :=
  if c.sees 46 then
    let c := c.skip 1
    match c.rest with
    | [] => .error (c.ahead .endInValue)
    | b :: _ => if isDigitByte b then .ok (c.skipWhile isDigitByte) else .error (c.ahead .number)
  else .ok c

/-- The digits before the point. -/
def wholePart (c : Cursor) : Scan :=
  match c.rest with
  | [] => .error (c.here .endInValue)
  | 48 :: rest =>
    let next : Cursor := ⟨c.taken + 1, rest⟩
    if rest.head?.any isDigitByte then .error (next.ahead .number) else .ok next
  | b :: _ => if isDigitByte b then .ok (c.skipWhile isDigitByte) else .error ((c.skip 1).here .number)

/-- A number after its sign. Its value has to be a finite double. -/
def scanNumber (start : Cursor) : Scan := do
  let c ← exponentPart (← placesPart (← wholePart start))
  let digits := (start.rest.take (c.taken - start.taken)).map fun b => Char.ofNat b.toNat
  if (scanNumber? false digits).any (·.1 == .unreadable) then throw (c.here .range)
  return c

/-! ### Texts -/

/-- The number of four hexadecimal digits. -/
def hexBytes? (a b c d : UInt8) : Option Nat :=
  hexWord? (Char.ofNat a.toNat) (Char.ofNat b.toNat) (Char.ofNat c.toNat) (Char.ofNat d.toNat)

/-- Four hexadecimal digits: their number, and the place after them. -/
def scanHex (c : Cursor) : Except Fault (Nat × Cursor) :=
  match c.rest with
  | a :: b :: d :: e :: _ =>
    match hexBytes? a b d e with
    | some n => .ok (n, c.skip 4)
    | none => .error ((c.skip 4).here .escape)
  | rest => .error ((c.skip rest.length).here .endInText)

/-- One byte that has to be there between the halves of a pair. -/
def pairByte (c : Cursor) (b : UInt8) : Scan :=
  match c.rest with
  | [] => .error (c.here .endInText)
  | found :: _ => if found == b then .ok (c.skip 1) else .error ((c.skip 1).here .unfinishedPair)

/-- An escape by number. The first half of a pair needs the second. -/
def scanUnicode (c : Cursor) : Scan := do
  let (n, c) ← scanHex c
  if 0xDC00 ≤ n && n < 0xE000 then throw (c.here .surrogate)
  if 0xD800 ≤ n && n < 0xDC00 then
    let (low, c) ← scanHex (← pairByte (← pairByte c 92) 117)
    if 0xDC00 ≤ low && low < 0xE000 then return c else throw (c.here .surrogate)
  return c

/-- An escape, after its backslash. -/
def scanEscape (c : Cursor) : Scan :=
  match c.rest with
  | [] => .error (c.here .endInText)
  | 117 :: _ => scanUnicode (c.skip 1)
  | b :: _ =>
    if (plainEscape? (Char.ofNat b.toNat)).isSome then .ok (c.skip 1) else .error ((c.skip 1).here .escape)

/-- A text after its opening quote, in so many rounds at most; each takes a byte. -/
def scanString : Nat → Cursor → Scan
  | 0, c => .error (c.here .endInText)
  | more + 1, c =>
    match c.rest with
    | [] => .error (c.here .endInText)
    | 34 :: _ => .ok (c.skip 1)
    | 92 :: _ =>
      match scanEscape (c.skip 1) with
      | .ok c => scanString more c
      | .error f => .error f
    | b :: _ => if b < 32 then .error ((c.skip 1).here .control) else scanString more (c.skip 1)

/-! ### Documents -/

/-- A container that is open. -/
inductive Container where
  | arr
  | obj
deriving DecidableEq, Repr

/-- What comes next. -/
inductive Turn where
  | value
  | item
  | member
  | after
deriving DecidableEq, Repr

/-- A place among the containers that are open there. -/
structure Position where
  turn : Turn
  cursor : Cursor
  containers : List Container
deriving DecidableEq, Repr

/-- A value: the whole of it, or its opening bracket. -/
def valueStep (c : Cursor) (containers : List Container) : Except Fault Position :=
  let whole (s : Scan) : Except Fault Position := s.map fun c => ⟨.after, c, containers⟩
  let deeper (turn : Turn) (container : Container) : Except Fault Position :=
    if containers.length < maxDepth then .ok ⟨turn, c.skip 1, container :: containers⟩ else .error (c.ahead .depth)
  match c.rest with
  | [] => .error (c.ahead .endInValue)
  | 110 :: _ => whole (scanWord (c.skip 1) [117, 108, 108])
  | 116 :: _ => whole (scanWord (c.skip 1) [114, 117, 101])
  | 102 :: _ => whole (scanWord (c.skip 1) [97, 108, 115, 101])
  | 45 :: _ => whole (scanNumber (c.skip 1))
  | 34 :: rest => whole (scanString rest.length.succ (c.skip 1))
  | 91 :: _ => deeper .item .arr
  | 123 :: _ => deeper .member .obj
  | b :: _ => if isDigitByte b then whole (scanNumber c) else .error (c.ahead .value)

/-- A key and its colon. -/
def keyStep (c : Cursor) (containers : List Container) : Except Fault Position := do
  let c := (← scanString c.rest.length (c.skip 1)).token
  match c.rest with
  | [] => throw (c.ahead .endInObject)
  | 58 :: _ => return ⟨.value, c.skip 1, containers⟩
  | _ => throw (c.ahead .colon)

/-- The key after a comma. -/
def nextKeyStep (c : Cursor) (containers : List Container) : Except Fault Position :=
  match c.rest with
  | [] => .error (c.ahead .endInValue)
  | 34 :: _ => keyStep c containers
  | 125 :: _ => .error (c.ahead .trailingComma)
  | _ => .error (c.ahead .key)

/-- What follows a value; nothing more at the end of the text. -/
def afterStep (c : Cursor) : List Container → Except Fault (Option Position)
  | [] => if c.rest.isEmpty then .ok none else .error (c.ahead .trailing)
  | .arr :: outer =>
    match c.rest with
    | [] => .error (c.ahead .endInArray)
    | 93 :: _ => .ok (some ⟨.after, c.skip 1, outer⟩)
    | 44 :: _ =>
      let next := (c.skip 1).token
      if next.sees 93 then .error (next.ahead .trailingComma) else .ok (some ⟨.value, next, .arr :: outer⟩)
    | _ => .error (c.ahead .arrayComma)
  | .obj :: outer =>
    match c.rest with
    | [] => .error (c.ahead .endInObject)
    | 125 :: _ => .ok (some ⟨.after, c.skip 1, outer⟩)
    | 44 :: _ => (nextKeyStep (c.skip 1).token (.obj :: outer)).map some
    | _ => .error (c.ahead .objectComma)

/-- One step; nothing more when the document is complete. -/
def faultStep (p : Position) : Except Fault (Option Position) :=
  let c := p.cursor.token
  match p.turn with
  | .value => (valueStep c p.containers).map some
  | .item =>
    match c.rest with
    | [] => .error (c.ahead .endInArray)
    | 93 :: _ => .ok (some ⟨.after, c.skip 1, p.containers.tail⟩)
    | _ => (valueStep c p.containers).map some
  | .member =>
    match c.rest with
    | [] => .error (c.ahead .endInObject)
    | 125 :: _ => .ok (some ⟨.after, c.skip 1, p.containers.tail⟩)
    | 34 :: _ => (keyStep c p.containers).map some
    | _ => .error (c.ahead .key)
  | .after => afterStep c p.containers

/-- The first fault, in so many rounds at most; each takes a byte. -/
def faultFrom : Nat → Position → Option Fault
  | 0, _ => none
  | more + 1, p =>
    match faultStep p with
    | .error f => some f
    | .ok none => none
    | .ok (some p) => faultFrom more p

/-- The first fault of a text, if it has one. -/
def fault? (text : String) : Option Fault :=
  let bytes := text.toUTF8.toList
  faultFrom (bytes.length + 2) ⟨.value, ⟨0, bytes⟩, []⟩

/-- The line and the column after so many bytes. -/
def lineAndColumn (bytes : List UInt8) (offset : Nat) : Nat × Nat :=
  let before := bytes.take offset
  (before.count 10 + 1, (before.reverse.takeWhile (· != 10)).length)

/-- What is wrong with a text, and where. -/
def complaint (text : String) : String :=
  match fault? text with
  | some f =>
    let (line, column) := lineAndColumn text.toUTF8.toList f.offset
    s!"{f.kind.message} at line {line} column {column}"
  | none => "invalid document"

/-- The document of a text, or what is wrong with it. -/
def readOrComplain (text : String) : Except String Json :=
  match read? text with
  | some d => .ok d
  | none => .error (complaint text)

end RecordService.Json
