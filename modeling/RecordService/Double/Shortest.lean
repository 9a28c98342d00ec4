import RecordService.Double.Basic

/-! # The shortest decimal that reads back

The reals that round to a finite nonzero double form an interval around it, with its ends exactly when the
significand is even. `shortest` looks on the decimal grids of 1, 2, … 17 digits in turn: if a point of a grid
lies in the interval, so does one of the two neighbours of the value on that grid, so the first grid with a hit
has the fewest digits. Of two hits the nearer is taken, and an exact tie goes as `Tie` says. -/

namespace RecordService.Double

/-- Which of two equally near decimals is taken. -/
inductive Tie where
  | even
  | up
deriving DecidableEq, Repr

/-- A decimal `digits · 10 ^ exponent`. -/
structure Decimal where
  digits : Nat
  exponent : Int
deriving DecidableEq, Repr

/-- A magnitude with the interval that rounds to it, over one denominator. -/
structure Neighbourhood where
  low : Nat
  value : Nat
  high : Nat
  denominator : Nat
  closed : Bool

/-- In quarters of the unit, so that both half gaps are whole: the gap below the least significand of a binade
is half of the one above. -/
def neighbourhood (x : Double) : Neighbourhood :=
  let m := x.significand
  let below := if m = twoPow 52 && 1 < x.exponentField then 1 else 2
  let up := if 0 ≤ x.scale then twoPow x.scale.toNat else 1
  let down := if 0 ≤ x.scale then 4 else 4 * twoPow (-x.scale).toNat
  ⟨(4 * m - below) * up, 4 * m * up, (4 * m + 2) * up, down, m % 2 = 0⟩

/-- The number of decimal digits. -/
def digitCount (n : Nat) : Nat :=
  (Nat.toDigits 10 n).length

/-- The least `p` with `num / den < 10 ^ p`. -/
def decimalPoint (num den : Nat) : Int :=
  if den ≤ num then digitCount (num / den)
  else
    let d := digitCount (den / num)
    if den = num * tenPow (d - 1) then 2 - d else 1 - d

namespace Neighbourhood

/-- Whether `c · 10 ^ k` rounds to the value. -/
def contains (n : Neighbourhood) (c : Nat) (k : Int) : Bool :=
  let x := if 0 ≤ k then c * tenPow k.toNat * n.denominator else c * n.denominator
  let unit := if 0 ≤ k then 1 else tenPow (-k).toNat
  if n.closed then n.low * unit ≤ x && x ≤ n.high * unit else n.low * unit < x && x < n.high * unit

/-- The grid of step `10 ^ k`: the value's neighbour below, and how the value lies between its neighbours. -/
def floorOn (n : Neighbourhood) (k : Int) : Nat × Ordering :=
  let num := if 0 ≤ k then n.value else n.value * tenPow (-k).toNat
  let den := if 0 ≤ k then n.denominator * tenPow k.toNat else n.denominator
  (num / den, compare (2 * (num % den)) den)

/-- The decimal of step `10 ^ k` that rounds to the value and is nearest to it, if one does. -/
def hit? (n : Neighbourhood) (tie : Tie) (k : Int) : Option Nat :=
  let (c, side) := n.floorOn k
  match n.contains c k, n.contains (c + 1) k with
  | true, true =>
    match side, tie with
    | .lt, _ => some c
    | .gt, _ => some (c + 1)
    | .eq, .even => some (c + c % 2)
    | .eq, .up => some (c + 1)
  | true, false => some c
  | false, true => some (c + 1)
  | false, false => none

/-- The first hit among grids of growing fineness; after seventeen digits there is always one. -/
def search (n : Neighbourhood) (tie : Tie) (k : Int) : Nat → Decimal
  | 0 => ⟨(n.floorOn k).1, k⟩
  | more + 1 =>
    match n.hit? tie k with
    | some c => ⟨c, k⟩
    | none => search n tie (k - 1) more

end Neighbourhood

/-- The decimal of fewest digits that rounds to the magnitude of a finite double; `0` for the zeros. -/
def shortest (x : Double) (tie : Tie) : Decimal :=
  if x.isZero then ⟨0, 0⟩
  else
    let n := x.neighbourhood
    n.search tie (decimalPoint n.value n.denominator - 1) 17

end RecordService.Double
