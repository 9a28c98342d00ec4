/-! # Frames

A stream of bytes carries payloads in frames: four bytes of length, the lowest first, and then the payload. A stream
ends where a header is cut short; a payload that is cut short and a length above the bound are faults. Both ends of
a channel write and read frames by these functions. -/

namespace RecordService

namespace Frame

/-- The longest payload of a frame, in bytes. -/
def bound : Nat :=
  64 * 1024 * 1024

/-- Why a payload cannot be written or a frame cannot be read. -/
inductive Fault where
  /-- The payload to write is longer than a frame may be. -/
  | payload (size : Nat)
  /-- The header announces more than a frame may hold. -/
  | announced (size : Nat)
  /-- The stream ends inside the payload. -/
  | cut
deriving DecidableEq, Repr

def Fault.message : Fault → String
  | payload size => s!"payload of {size} bytes exceeds the frame limit"
  | announced size => s!"frame of {size} bytes exceeds the {bound} byte limit"
  | cut => "failed to fill whole buffer"

/-- The four bytes of a length. -/
def header (size : Nat) : List UInt8 :=
  [UInt8.ofNat size, UInt8.ofNat (size / 256), UInt8.ofNat (size / 65536), UInt8.ofNat (size / 16777216)]

/-- The length in four bytes. -/
def length (a b c d : UInt8) : Nat :=
  a.toNat + 256 * b.toNat + 65536 * c.toNat + 16777216 * d.toNat

/-- The frame of a payload. -/
def write (payload : List UInt8) : Except Fault (List UInt8) :=
  if payload.length ≤ bound then .ok (header payload.length ++ payload)
  else .error (.payload payload.length)

/-- The payload of the first frame of a stream and what follows the frame, or nothing where the stream ends. -/
def read : List UInt8 → Except Fault (Option (List UInt8 × List UInt8))
  | a :: b :: c :: d :: rest =>
    let size := length a b c d
    if bound < size then .error (.announced size)
    else if rest.length < size then .error .cut
    else .ok (some (rest.take size, rest.drop size))
  | _ => .ok none

theorem read_length {bytes payload rest : List UInt8} (h : read bytes = .ok (some (payload, rest))) :
    rest.length < bytes.length := by
  unfold read at h
  split at h
  · simp only at h
    split at h
    · cases h
    · split at h
      · cases h
      · cases h
        simp only [List.length_drop, List.length_cons]
        omega
  · cases h

/-- The payloads of a stream up to its end or its first fault. -/
def readAll (bytes : List UInt8) : List (List UInt8) × Option Fault :=
  match _h : read bytes with
  | .ok none => ([], none)
  | .error fault => ([], some fault)
  | .ok (some (payload, rest)) =>
    let (payloads, fault) := readAll rest
    (payload :: payloads, fault)
termination_by bytes.length
decreasing_by exact read_length _h

theorem readAll_of_none {bytes : List UInt8} (h : read bytes = .ok none) : readAll bytes = ([], none) := by
  unfold readAll
  split <;> simp_all

theorem readAll_of_error {bytes : List UInt8} {fault : Fault} (h : read bytes = .error fault) :
    readAll bytes = ([], some fault) := by
  unfold readAll
  split <;> simp_all

theorem readAll_of_some {bytes payload rest : List UInt8} (h : read bytes = .ok (some (payload, rest))) :
    readAll bytes = (payload :: (readAll rest).1, (readAll rest).2) := by
  conv => lhs; unfold readAll
  split <;> simp_all

/-- The frames of payloads, one after the other. -/
def writeAll : List (List UInt8) → Except Fault (List UInt8)
  | [] => .ok []
  | payload :: rest => do return (← write payload) ++ (← writeAll rest)

end Frame
end RecordService
