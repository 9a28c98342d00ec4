import RecordService.Double.Shortest

/-! # Floats as text

Every float text shows the shortest digits. The notations of the service differ only in a `Style` record: documents
write a number in positional form while its exponent is small, and identities never use an exponent. A script that
shows a number by itself decides by its magnitude. -/

namespace RecordService.Double

/-- How the shortest digits of a float are written. -/
structure Style where
  /-- Exponents `e`, of a number `d.ddd · 10 ^ e`, that are written in positional form. -/
  isPositional : Int → Bool
  /-- Whether a whole number in positional form ends in `.0`. -/
  fraction : Bool
  /-- Whether an exponent that is not negative has a sign. -/
  plus : Bool
  /-- The tie between two shortest decimals. -/
  tie : Tie

/-- Numbers of a document: positional from `1e-5` up to but not including `1e16`, with a fraction. -/
def Style.document : Style :=
  ⟨fun e => -5 ≤ e && e < 16, true, true, .even⟩

/-- Numbers inside an identity: always positional, whole numbers without a fraction. -/
def Style.plain : Style :=
  ⟨fun _ => true, false, false, .up⟩

/-- Numbers of a script by themselves, near enough to one: always positional, with a fraction. -/
def Style.positional : Style :=
  ⟨fun _ => true, true, false, .up⟩

/-- Numbers of a script by themselves, far from one: never positional. -/
def Style.exponential : Style :=
  ⟨fun _ => false, true, false, .up⟩

/-- Numbers that a script shows inside an array or a map: positional from `1e-4` up to but not including `1e16`. -/
def Style.nested : Style :=
  ⟨fun e => -4 ≤ e && e < 16, true, false, .up⟩

/-- Digits with the point after the first `point` of them; zeros fill the gap on either side. -/
def placePoint (digits : List Char) (point : Int) (fraction : Bool) : List Char :=
  if point ≤ 0 then '0' :: '.' :: List.replicate (-point).toNat '0' ++ digits
  else if digits.length ≤ point.toNat then
    digits ++ List.replicate (point.toNat - digits.length) '0' ++ if fraction then ['.', '0'] else []
  else digits.take point.toNat ++ '.' :: digits.drop point.toNat

/-- Writes `d.ddde±x`, with no leading zero in the exponent. -/
def withExponent (digits : List Char) (e : Int) (plus : Bool) : List Char :=
  let mantissa := match digits with
    | d :: r :: rest => d :: '.' :: r :: rest
    | ds => ds
  let sign := if e < 0 then ['-'] else if plus then ['+'] else []
  mantissa ++ 'e' :: sign ++ Nat.toDigits 10 e.natAbs

/-- A decimal with digits other than zero, written in a style. Zeros at the end of the digits move into the
exponent first. -/
def Decimal.write (d : Decimal) (style : Style) : List Char :=
  let all := Nat.toDigits 10 d.digits
  let digits := (all.reverse.dropWhile (· == '0')).reverse
  let point := d.exponent + all.length
  if style.isPositional (point - 1) then placePoint digits point style.fraction
  else withExponent digits (point - 1) style.plus

/-- The text of a float. -/
def write (x : Double) (style : Style) : String :=
  let sign := if x.isNegative then ['-'] else []
  String.ofList <|
    if x.isNaN then ['N', 'a', 'N']
    else if !x.isFinite then sign ++ ['i', 'n', 'f']
    else if x.isZero then sign ++ if style.fraction then ['0', '.', '0'] else ['0']
    else sign ++ (x.shortest style.tie).write style

/-- Below this magnitude a script uses exponents: the number of single precision nearest to `1e-13`. -/
def leastPositional : Double :=
  ofScaled false 14757395 (-67)

/-- Above this magnitude a script uses exponents: the number of single precision nearest to `1e13`. -/
def greatestPositional : Double :=
  ofScaled false 9536743 20

/-- The text of a float that a script shows by itself. A zero has no sign. -/
def display (x : Double) : String :=
  if x.isZero then zero.write .positional
  else if leastPositional.magnitude ≤ x.magnitude && x.magnitude ≤ greatestPositional.magnitude then
    x.write .positional
  else x.write .exponential

end RecordService.Double
