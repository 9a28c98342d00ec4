import RecordService.Double.Reader

/-! # Scaling in extended precision

The store reads a number in a text with significands of 64 bits: it keeps the leading digits that fit, scales them by
powers of ten, each of them rounded and each product rounded again, and rounds to a double at the end. `readExtended?`
may therefore differ in the last bit from the double nearest to the text. -/

namespace RecordService

/-- A number `significand · 2 ^ exponent`; a rounded one has a significand of 64 bits. -/
structure Extended where
  significand : Nat
  exponent : Int
deriving DecidableEq, Repr

namespace Extended

/-- The power of two at which `num / den` has a significand of 64 bits. -/
def unitExponent (num den : Nat) : Int :=
  let q₀ := (num.log2 : Int) - den.log2 - 63
  let (a, b) := Double.scaled num den q₀
  if a / b < twoPow 63 then q₀ - 1 else q₀

/-- The number nearest to `num / den`, a half to the even significand. -/
def ofRatio (num den : Nat) : Extended :=
  let q := unitExponent num den
  let (a, b) := Double.scaled num den q
  ⟨Double.roundDiv a b, q⟩

/-- The rounded product. -/
def mul (x y : Extended) : Extended :=
  let product := ofRatio (x.significand * y.significand) 1
  { product with exponent := product.exponent + x.exponent + y.exponent }

/-- The rounded power `10 ^ k`, or `10 ^ (-k)`. -/
def tens (down : Bool) (k : Nat) : Extended :=
  if down then ofRatio 1 (tenPow k) else ofRatio (tenPow k) 1

/-- Multiplies by a factor so many times. -/
def mulTimes (factor : Extended) : Nat → Extended → Extended
  | 0, x => x
  | more + 1, x => mulTimes factor more (x.mul factor)

/-- Scales by `10 ^ k`, or `10 ^ (-k)`: by hundreds of tens first, then by tens, then by single ones. -/
def scaleByTens (down : Bool) (k : Nat) (x : Extended) : Extended :=
  mulTimes (tens down 1) (k % 10) <| mulTimes (tens down 10) (k % 100 / 10) <| mulTimes (tens down 100) (k / 100) x

/-- The nearest double. -/
def toDouble (negative : Bool) (x : Extended) : Double :=
  .ofScaled negative x.significand x.exponent

/-- A significand takes no more digits once it has reached this. -/
def fullSignificand : Nat := (UInt64.size - 10) / 10

/-- Takes digits at the end of a significand until it is full; with the number of digits left out. -/
def takeDigits (significand : Nat) : List Char → Nat × Nat
  | [] => (significand, 0)
  | d :: rest =>
    if significand < fullSignificand then takeDigits (significand * 10 + (d.toNat - '0'.toNat)) rest
    else (significand, rest.length + 1)

/-- Moves tens of the exponent into the significand while they fit. -/
def fill (significand : Nat) : Nat → Nat × Nat
  | 0 => (significand, 0)
  | e + 1 => if significand < (UInt64.size - 1) / 10 then fill (significand * 10) e else (significand, e + 1)

/-- Moves zeros at the end of the significand into the negative exponent. -/
def strip (significand : Nat) : Nat → Nat × Nat
  | 0 => (significand, 0)
  | e + 1 => if significand % 10 = 0 then strip (significand / 10) e else (significand, e + 1)

/-- The double of `± significand · 10 ^ exponent`. -/
def ofDecimal (negative : Bool) (significand : Nat) (exponent : Int) : Double :=
  if significand = 0 then .ofMagnitude negative 0
  else
    let down : Bool := exponent < 0
    let (s, e) := if down then strip significand exponent.natAbs else fill significand exponent.natAbs
    (scaleByTens down e ⟨s, 0⟩).toDouble negative

end Extended

/-- Reads a whole text as a decimal, in extended precision. An exponent counts up to ten thousand. -/
def Double.readExtended? (text : List Char) : Option Double :=
  (Spelling.ofText? text).map fun s =>
    let (significand, dropped) := Extended.takeDigits 0 s.whole
    let (significand, unread) := Extended.takeDigits significand s.places
    Extended.ofDecimal s.negative significand
      (max (-10000) (min s.exponent 10000) + dropped - (s.places.length - unread : Nat))

end RecordService
