/-! # Fingerprints

The 64-bit xxHash of a text with seed zero, in sixteen hexadecimal digits. It names a statement in logs. -/

namespace RecordService.Text

/-- The word turned left by `r` bits, for `0 < r < 64`. -/
def rotate (x : UInt64) (r : UInt64) : UInt64 :=
  (x <<< r) ||| (x >>> (64 - r))

namespace Fingerprint

def prime1 : UInt64 := 0x9E3779B185EBCA87
def prime2 : UInt64 := 0xC2B2AE3D27D4EB4F
def prime3 : UInt64 := 0x165667B19E3779F9
def prime4 : UInt64 := 0x85EBCA77C2B2AE63
def prime5 : UInt64 := 0x27D4EB2F165667C5

/-- Bytes as a number, the least first. -/
def word (bytes : List UInt8) : UInt64 :=
  bytes.foldr (fun b n => n * 256 + b.toUInt64) 0

/-- One lane of the hash takes in a word of eight bytes. -/
def round (lane input : UInt64) : UInt64 :=
  rotate (lane + input * prime2) 31 * prime1

/-- A lane folded into the hash. -/
def mergeLane (hash lane : UInt64) : UInt64 :=
  (hash ^^^ round 0 lane) * prime1 + prime4

/-- The four lanes. -/
structure Lanes where
  a : UInt64
  b : UInt64
  c : UInt64
  d : UInt64

def Lanes.start : Lanes :=
  ⟨prime1 + prime2, prime2, 0, 0 - prime1⟩

/-- A stripe of thirty-two bytes feeds each lane one word. -/
def Lanes.feed (l : Lanes) (stripe : List UInt8) : Lanes :=
  ⟨round l.a (word (stripe.take 8)), round l.b (word ((stripe.drop 8).take 8)),
   round l.c (word ((stripe.drop 16).take 8)), round l.d (word ((stripe.drop 24).take 8))⟩

/-- The lanes as one number. -/
def Lanes.join (l : Lanes) : UInt64 :=
  let sum := rotate l.a 1 + rotate l.b 7 + rotate l.c 12 + rotate l.d 18
  [l.a, l.b, l.c, l.d].foldl mergeLane sum

/-- Feeds all whole stripes; the rest is shorter than a stripe. -/
def stripes (l : Lanes) (bytes : List UInt8) : Lanes × List UInt8 :=
  if _h : bytes.length < 32 then (l, bytes)
  else stripes (l.feed (bytes.take 32)) (bytes.drop 32)
termination_by bytes.length
decreasing_by simp only [List.length_drop]; omega

/-- The bytes after the last stripe: words of eight, then one of four, then single bytes. -/
def tail (hash : UInt64) : List UInt8 → UInt64
  | b₀ :: b₁ :: b₂ :: b₃ :: b₄ :: b₅ :: b₆ :: b₇ :: rest =>
    tail (rotate (hash ^^^ round 0 (word [b₀, b₁, b₂, b₃, b₄, b₅, b₆, b₇])) 27 * prime1 + prime4) rest
  | b₀ :: b₁ :: b₂ :: b₃ :: rest =>
    tail (rotate (hash ^^^ word [b₀, b₁, b₂, b₃] * prime1) 23 * prime2 + prime3) rest
  | b :: rest => tail (rotate (hash ^^^ b.toUInt64 * prime5) 11 * prime1) rest
  | [] => hash

/-- Spreads every bit over the whole result. -/
def avalanche (h : UInt64) : UInt64 :=
  let h := (h ^^^ (h >>> 33)) * prime2
  let h := (h ^^^ (h >>> 29)) * prime3
  h ^^^ (h >>> 32)

/-- The hash of a sequence of bytes. -/
def hash (bytes : List UInt8) : UInt64 :=
  let (lanes, rest) := stripes .start bytes
  let start := if bytes.length < 32 then prime5 else lanes.join
  avalanche (tail (start + UInt64.ofNat bytes.length) rest)

end Fingerprint

/-- The hash of the UTF-8 bytes of a text. -/
def fingerprint (text : String) : UInt64 :=
  Fingerprint.hash text.toUTF8.data.toList

/-- The fingerprint in sixteen lower-case hexadecimal digits. -/
def fingerprintHex (text : String) : String :=
  let digits := Nat.toDigits 16 (fingerprint text).toNat
  String.ofList (List.replicate (16 - digits.length) '0' ++ digits)

end RecordService.Text
