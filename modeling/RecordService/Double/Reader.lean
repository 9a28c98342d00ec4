import RecordService.Double.Basic

/-! # Reading a decimal

`ofDecimal` is the double nearest to a decimal, `ofText?` reads one spelled with an optional sign, digits before
or after the point, and an optional exponent. `ofParts?` is the reading of numbers in documents: it scales a
64-bit significand by a power of ten that is itself a double, so it rounds more than once. -/

namespace RecordService.Double

/-- The value of a run of digits. -/
def digitsValue (ds : List Char) : Nat :=
  ds.foldl (fun n d => n * 10 + (d.toNat - '0'.toNat)) 0

/-- An optional sign, and what follows it. -/
def takeSign : List Char → Bool × List Char
  | '-' :: rest => (true, rest)
  | '+' :: rest => (false, rest)
  | rest => (false, rest)

/-- The double nearest to `± digits · 10 ^ exponent`. Beyond the range of the format the exponent alone decides,
so that no large power is computed. -/
def ofDecimal (negative : Bool) (digits : Nat) (exponent : Int) : Double :=
  if digits = 0 then ofMagnitude negative 0
  else if 310 < exponent then ofMagnitude negative infinityBits
  else if exponent + digits.log2 < -400 then ofMagnitude negative 0
  else if 0 ≤ exponent then ofRatio negative (digits * tenPow exponent.toNat) 1
  else ofRatio negative digits (tenPow (-exponent).toNat)

/-- The exponent part of a decimal text: nothing, or `e` with an optional sign and at least one digit. -/
def exponentPart? : List Char → Option Int
  | [] => some 0
  | c :: rest =>
    if c == 'e' || c == 'E' then
      let (negative, digits) := takeSign rest
      if digits.isEmpty || !digits.all Char.isDigit then none
      else some (if negative then -(digitsValue digits : Int) else digitsValue digits)
    else none

/-- A decimal spelled as text: its sign, its digits before and after the point, and its exponent. -/
structure Spelling where
  negative : Bool
  whole : List Char
  places : List Char
  exponent : Int

/-- Reads a whole text as a decimal with at least one digit. -/
def Spelling.ofText? (text : List Char) : Option Spelling :=
  let (negative, body) := takeSign text
  let whole := body.takeWhile Char.isDigit
  let rest := body.dropWhile Char.isDigit
  let (places, rest) := match rest with
    | '.' :: r => (r.takeWhile Char.isDigit, r.dropWhile Char.isDigit)
    | r => ([], r)
  if whole.isEmpty && places.isEmpty then none
  else (exponentPart? rest).map fun e => ⟨negative, whole, places, e⟩

/-- The double nearest to a whole text; infinite when the number is too large. -/
def ofText? (text : List Char) : Option Double :=
  (Spelling.ofText? text).map fun s =>
    ofDecimal s.negative (digitsValue (s.whole ++ s.places)) (s.exponent - s.places.length)

/-- The powers of ten by which a document's number is scaled, up to `1e308`. -/
def powerOfTen (k : Nat) : Double :=
  ofNat (tenPow k)

/-- Scales a finite double by `10 ^ exponent` in steps of at most `10 ^ 308`; `none` when it grows beyond the
format. The number of steps is bounded by the exponent. -/
def scaleByTen? (x : Double) (exponent : Int) : Option Double :=
  if exponent.natAbs ≤ 308 then
    if 0 ≤ exponent then
      let y := x.mul (powerOfTen exponent.natAbs)
      if y.isFinite then some y else none
    else some (x.div (powerOfTen exponent.natAbs))
  else if x.isZero then some x
  else if 0 ≤ exponent then none
  else scaleByTen? (x.div (powerOfTen 308)) (exponent + 308)
termination_by exponent.natAbs
decreasing_by omega

/-- A document's number from its significand and exponent: the significand as a double, then scaled. -/
def ofParts? (negative : Bool) (significand : Nat) (exponent : Int) : Option Double :=
  (scaleByTen? (ofNat significand) exponent).map fun x => if negative then x.neg else x

end RecordService.Double
