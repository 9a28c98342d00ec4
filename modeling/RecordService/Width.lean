/-! # Powers and widths

Powers of two and of ten, and the integers that fit a word of 64 bits with a sign. -/

namespace RecordService

def twoPow (exponent : Nat) : Nat :=
  Nat.pow 2 exponent

def tenPow (exponent : Nat) : Nat :=
  Nat.pow 10 exponent

/-- Whether an integer is one of 64 bits. -/
def fitsInt64 (i : Int) : Bool :=
  -9223372036854775808 ≤ i && i ≤ 9223372036854775807

end RecordService
