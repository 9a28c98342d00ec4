import RecordService.Json.Basic
import RecordService.Double.Reader

/-! # Tokens of a document text

`scan?` cuts a text into tokens: punctuation, words, quoted texts and numbers. It refuses a control character in a
quoted text, an unknown escape and a leading zero. A number too large for a double and a text with half of a surrogate
pair are well formed, but have no value. -/

namespace RecordService.Json

inductive Token where
  | openArr
  | closeArr
  | openObj
  | closeObj
  | comma
  | colon
  | null
  | bool (value : Bool)
  | num (value : Number)
  | str (text : String)
  /-- A number or a text that is well formed, but has no value. -/
  | unreadable
deriving DecidableEq, Repr

/-- The value of a hexadecimal digit. -/
def hexValue? (c : Char) : Option Nat :=
  if c.isDigit then some (c.toNat - '0'.toNat)
  else if 'a' ≤ c && c ≤ 'f' then some (c.toNat - 'a'.toNat + 10)
  else if 'A' ≤ c && c ≤ 'F' then some (c.toNat - 'A'.toNat + 10)
  else none

/-- The number of four hexadecimal digits. -/
def hexWord? (a b c d : Char) : Option Nat := do
  return ((← hexValue? a) * 16 + (← hexValue? b)) * 256 + (← hexValue? c) * 16 + (← hexValue? d)

/-- The character of an escape of one letter. -/
def plainEscape? : Char → Option Char
  | '"' => some '"'
  | '\\' => some '\\'
  | '/' => some '/'
  | 'b' => some '\x08'
  | 'f' => some '\x0c'
  | 'n' => some '\n'
  | 'r' => some '\r'
  | 't' => some '\t'
  | _ => none

/-- Whether a code unit is the first half of a surrogate pair. -/
def isHighHalf (code : Nat) : Bool :=
  0xD800 ≤ code && code < 0xDC00

/-- Whether a code unit is the second half of a surrogate pair. -/
def isLowHalf (code : Nat) : Bool :=
  0xDC00 ≤ code && code < 0xE000

/-- The character of a surrogate pair. -/
def ofHalves (high low : Nat) : Char :=
  Char.ofNat (0x10000 + (high - 0xD800) * 0x400 + (low - 0xDC00))

/-- The characters up to the closing quote, behind those already taken (the latest first), and what follows it. Half of
a surrogate pair leaves no characters, but the text goes on. -/
def scanText? (taken : Option (List Char)) : List Char → Option (Option (List Char) × List Char)
  | '"' :: rest => some (taken.map List.reverse, rest)
  | '\\' :: 'u' :: a :: b :: c :: d :: rest => do
    let code ← hexWord? a b c d
    if isLowHalf code then scanText? none rest
    else if isHighHalf code then
      match rest with
      | '\\' :: 'u' :: e :: f :: g :: h :: rest =>
        let low ← hexWord? e f g h
        scanText? (if isLowHalf low then taken.map (ofHalves code low :: ·) else none) rest
      | rest => scanText? none rest
    else scanText? (taken.map (Char.ofNat code :: ·)) rest
  | '\\' :: c :: rest => do
    let c ← plainEscape? c
    scanText? (taken.map (c :: ·)) rest
  | c :: rest =>
    if c == '\\' || c.toNat < 32 then none else scanText? (taken.map (c :: ·)) rest
  | [] => none

/-- The leading digits of a significand that stay below `2^64`, as a number, and how many digits were left out. -/
def significandOf (start : Nat) : List Char → Nat × Nat
  | [] => (start, 0)
  | d :: rest =>
    let next := start * 10 + (d.toNat - '0'.toNat)
    if next < UInt64.size then significandOf next rest else (start, rest.length + 1)

/-- The number spelled by a sign, digits, places and exponent. Digits that no longer fit 64 bits only count for the
exponent. -/
def numberOf? (negative : Bool) (whole places : List Char) (exponent : Option Int) : Option Number :=
  let (significand, dropped) := significandOf 0 whole
  if places.isEmpty && exponent.isNone then
    if dropped = 0 then
      if !negative then some (.int significand)
      else if 0 < significand && significand ≤ twoPow 63 then some (.int (-significand))
      else some (.float (Double.neg (.ofNat significand)))
    else (Double.ofParts? negative significand dropped).map .float
  else
    let (significand, unread) := significandOf significand places
    let point : Int := dropped - (places.length - unread : Nat)
    match exponent with
    | none => (Double.ofParts? negative significand point).map .float
    | some e => (Double.ofParts? negative significand (point + e)).map .float

/-- The exponent after a mantissa, if the text goes on with one; refused when it has no digit. -/
def scanExponent? (cs : List Char) : Option (Option Int × List Char) :=
  match cs with
  | c :: rest =>
    if c == 'e' || c == 'E' then
      let (negative, rest) := Double.takeSign rest
      let digits := rest.takeWhile Char.isDigit
      if digits.isEmpty then none
      else
        let e : Int := Double.digitsValue digits
        some (some (if negative then -e else e), rest.dropWhile Char.isDigit)
    else some (none, cs)
  | [] => some (none, [])

/-- The places after a point, if the text goes on with one; refused when there is none. -/
def scanPlaces? : List Char → Option (List Char × List Char)
  | '.' :: rest =>
    let places := rest.takeWhile Char.isDigit
    if places.isEmpty then none else some (places, rest.dropWhile Char.isDigit)
  | cs => some ([], cs)

/-- A number whose sign has been read. -/
def scanNumber? (negative : Bool) (cs : List Char) : Option (Token × List Char) := do
  let whole := cs.takeWhile Char.isDigit
  if whole.isEmpty || (whole.head? == some '0' && 1 < whole.length) then none
  let (places, rest) ← scanPlaces? (cs.dropWhile Char.isDigit)
  let (exponent, rest) ← scanExponent? rest
  return (((numberOf? negative whole places exponent).map .num).getD .unreadable, rest)

/-- The blanks between tokens. -/
def isSpace (c : Char) : Bool :=
  c == ' ' || c == '\n' || c == '\t' || c == '\r'

/-- The first token of a text that does not start with a blank, and what follows it. -/
def scanToken? : List Char → Option (Token × List Char)
  | '[' :: rest => some (.openArr, rest)
  | ']' :: rest => some (.closeArr, rest)
  | '\x7b' :: rest => some (.openObj, rest)
  | '\x7d' :: rest => some (.closeObj, rest)
  | ',' :: rest => some (.comma, rest)
  | ':' :: rest => some (.colon, rest)
  | '"' :: rest =>
    (scanText? (some []) rest).map fun (text, rest) => ((text.map (.str ∘ String.ofList)).getD .unreadable, rest)
  | '-' :: rest => scanNumber? true rest
  | 'n' :: 'u' :: 'l' :: 'l' :: rest => some (.null, rest)
  | 't' :: 'r' :: 'u' :: 'e' :: rest => some (.bool true, rest)
  | 'f' :: 'a' :: 'l' :: 's' :: 'e' :: rest => some (.bool false, rest)
  | cs => scanNumber? false cs

/-- All tokens of a text, behind those already found (the latest first); every round takes at least one character, so
as many rounds as characters suffice. -/
def scanRounds (found : List Token) : Nat → List Char → Option (List Token)
  | _, [] => some found.reverse
  | 0, _ => none
  | more + 1, c :: rest =>
    if isSpace c then scanRounds found more rest
    else do
      let (token, rest) ← scanToken? (c :: rest)
      scanRounds (token :: found) more rest

/-- The tokens of a text. -/
def scan? (text : String) : Option (List Token) :=
  let cs := text.toList
  scanRounds [] cs.length cs

end RecordService.Json
