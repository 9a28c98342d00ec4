import RecordService.Width

/-! # Doubles by their bits

A double is kept as its 64 bits, so that equality is decidable and tells `0.0` from `-0.0`. A finite double
stands for `± significand · 2 ^ scale`; every operation computes that value exactly in natural numbers and
rounds once, to nearest with ties to the even significand (`ofRatio`). -/

namespace RecordService

/-- A binary64 number. -/
structure Double where
  bits : UInt64
deriving DecidableEq, Repr, Inhabited

namespace Double

/-- Set for `-0.0` too. -/
def isNegative (x : Double) : Bool :=
  twoPow 63 ≤ x.bits.toNat

/-- The bits without the sign. Of two numbers the one farther from zero has the greater. -/
def magnitude (x : Double) : Nat :=
  x.bits.toNat % twoPow 63

/-- The eleven bits of the biased exponent. -/
def exponentField (x : Double) : Nat :=
  x.bits.toNat / twoPow 52 % twoPow 11

/-- The fifty-two bits of the fraction. -/
def fraction (x : Double) : Nat :=
  x.bits.toNat % twoPow 52

def isFinite (x : Double) : Bool :=
  x.exponentField != 2047

def isNaN (x : Double) : Bool :=
  x.exponentField == 2047 && x.fraction != 0

/-- True of both zeros. -/
def isZero (x : Double) : Bool :=
  x.exponentField == 0 && x.fraction == 0

/-- The significand as an integer, with the hidden bit of a normal number. -/
def significand (x : Double) : Nat :=
  if x.exponentField = 0 then x.fraction else x.fraction + twoPow 52

/-- The power of two that scales the significand. -/
def scale (x : Double) : Int :=
  (max x.exponentField 1 : Nat) - 1075

/-- The double whose magnitude has the given bits. -/
def ofMagnitude (negative : Bool) (magnitude : Nat) : Double :=
  ⟨UInt64.ofNat (magnitude + if negative then twoPow 63 else 0)⟩

/-- The bits of positive infinity; the finite magnitudes are the smaller ones. -/
def infinityBits : Nat := 2047 * twoPow 52

def zero : Double := ⟨0⟩

/-- Rounds `num / den` to the nearest integer, a half to the even one. -/
def roundDiv (num den : Nat) : Nat :=
  let q := num / den
  let r := num % den
  if 2 * r < den then q else if den < 2 * r then q + 1 else q + q % 2

/-- Writes `num · 2 ^ (-q) / den` as a fraction of natural numbers. -/
def scaled (num den : Nat) (q : Int) : Nat × Nat :=
  if 0 ≤ q then (num, den * twoPow q.toNat) else (num * twoPow (-q).toNat, den)

/-- The power of two at which `num / den` has a significand of fifty-three bits, but not below the least
one of the format. -/
def unitExponent (num den : Nat) : Int :=
  let q₀ := max ((num.log2 : Int) - den.log2 - 52) (-1074)
  let (a, b) := scaled num den q₀
  if a / b < twoPow 52 then max (q₀ - 1) (-1074) else q₀

/-- The double nearest to `± num / den`; infinite when the magnitude is too large, and infinite also for a
zero denominator. A rounding that carries into the next binade adds one to the exponent field by itself. -/
def ofRatio (negative : Bool) (num den : Nat) : Double :=
  if num = 0 then ofMagnitude negative 0
  else if den = 0 then ofMagnitude negative infinityBits
  else
    let q := unitExponent num den
    let (a, b) := scaled num den q
    ofMagnitude negative (min ((q + 1074).toNat * twoPow 52 + roundDiv a b) infinityBits)

/-- The double nearest to `± significand · 2 ^ exponent`. -/
def ofScaled (negative : Bool) (significand : Nat) (exponent : Int) : Double :=
  if 0 ≤ exponent then ofRatio negative (significand * twoPow exponent.toNat) 1
  else ofRatio negative significand (twoPow (-exponent).toNat)

def ofNat (n : Nat) : Double :=
  ofRatio false n 1

def ofInt (i : Int) : Double :=
  ofRatio (i < 0) i.natAbs 1

/-- Flips the sign, of a zero too. -/
def neg (x : Double) : Double :=
  ⟨x.bits ^^^ 0x8000000000000000⟩

/-- The rounded product of two finite doubles. -/
def mul (x y : Double) : Double :=
  ofScaled (x.isNegative != y.isNegative) (x.significand * y.significand) (x.scale + y.scale)

/-- The rounded quotient of two finite doubles. -/
def div (x y : Double) : Double :=
  let q := x.scale - y.scale
  let (a, b) := scaled x.significand y.significand (-q)
  ofRatio (x.isNegative != y.isNegative) a b

/-- Equality as numbers: the zeros agree and a NaN differs from everything. -/
def sameNumber (x y : Double) : Bool :=
  (x == y && !x.isNaN) || (x.isZero && y.isZero)

/-- The magnitude without its fraction. -/
def truncated (x : Double) : Nat :=
  if 0 ≤ x.scale then x.significand * twoPow x.scale.toNat else x.significand / twoPow (-x.scale).toNat

/-- The integer that a double is, when it is one and lies strictly between the ends of the signed 64-bit range. -/
def toInt64? (x : Double) : Option Int :=
  let i : Int := if x.isNegative then -x.truncated else x.truncated
  if x.isFinite && (ofInt i).sameNumber x && fitsInt64 (i - 1) && fitsInt64 (i + 1) then some i else none

/-- Conversion to an unsigned 64-bit count: the fraction is dropped, and what lies outside the range goes to
its nearer end. A NaN counts as zero. -/
def toCount (x : Double) : Nat :=
  if x.isNaN || x.isNegative then 0
  else if x.isFinite then min x.truncated (UInt64.size - 1)
  else UInt64.size - 1

end Double
end RecordService
