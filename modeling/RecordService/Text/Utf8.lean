/-! # Reading bytes as text

Bytes are read as UTF-8. What is not UTF-8 becomes replacement characters: one for each longest run of bytes that
begins a character and does not end it, and one for each byte that begins none. -/

namespace RecordService.Text.Utf8

/-- What a byte above 127 begins: how many bytes follow it, and the range of the first of them. -/
def lead? (b : Nat) : Option (Nat × Nat × Nat) :=
  if 0xC2 ≤ b && b ≤ 0xDF then some (1, 0x80, 0xBF)
  else if b = 0xE0 then some (2, 0xA0, 0xBF)
  else if b = 0xED then some (2, 0x80, 0x9F)
  else if 0xE1 ≤ b && b ≤ 0xEF then some (2, 0x80, 0xBF)
  else if b = 0xF0 then some (3, 0x90, 0xBF)
  else if 0xF1 ≤ b && b ≤ 0xF3 then some (3, 0x80, 0xBF)
  else if b = 0xF4 then some (3, 0x80, 0x8F)
  else none

/-- The bytes that continue a character: at most `count`, the first within the range and the others within that of
all such bytes. -/
def continuation (count low high : Nat) (bytes : List UInt8) : List UInt8 :=
  match count, bytes with
  | n + 1, b :: rest =>
    if low ≤ b.toNat && b.toNat ≤ high then b :: continuation n 0x80 0xBF rest else []
  | _, _ => []

/-- The character of a leading byte and those that continue it. -/
def assemble (first : Nat) (more : List UInt8) : Char :=
  let lead := match more.length with
    | 1 => first % 32
    | 2 => first % 16
    | _ => first % 8
  Char.ofNat (more.foldl (fun n b => n * 64 + b.toNat % 64) lead)

/-- The first character of bytes that begin with one above 127, and how many bytes of the rest belong to it. -/
def character (first : UInt8) (rest : List UInt8) : Char × Nat :=
  match lead? first.toNat with
  | none => ('\uFFFD', 0)
  | some (count, low, high) =>
    let more := continuation count low high rest
    (if more.length = count then assemble first.toNat more else '\uFFFD', more.length)

/-- The characters of bytes. -/
def decode : List UInt8 → List Char
  | [] => []
  | b :: rest =>
    if b < 0x80 then Char.ofNat b.toNat :: decode rest
    else (character b rest).1 :: decode (rest.drop (character b rest).2)
termination_by bytes => bytes.length
decreasing_by
  all_goals simp only [List.length_drop, List.length_cons]; omega

end RecordService.Text.Utf8
