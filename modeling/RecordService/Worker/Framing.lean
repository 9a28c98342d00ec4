import RecordService.Worker.Transfer

/-! # Frames on a wire

One frame is taken by `Frame.taking` and put by `Frame.putting`, whichever way an end waits for its channel. However
the bytes of a stream are cut into pieces, taking follows `Frame.read` (`Frame.takeAll_eq_readAll`). -/

namespace RecordService.Frame

/-- Takes one frame; there is none where the stream ends before a header is whole. -/
def taking : Transfer (Except Fault (Option (List UInt8))) :=
  .take 4 fun
    | some [a, b, c, d] =>
      let size := length a b c d
      if bound < size then .done (.error (.announced size))
      else .take size fun
        | some payload => .done (.ok (some payload))
        | none => .done (.error .cut)
    | _ => .done (.ok none)

/-- Puts the frame of a payload. -/
def putting (payload : List UInt8) : Transfer (Except Fault Unit) :=
  if payload.length ≤ bound then .put (header payload.length) (.put payload (.done (.ok ())))
  else .done (.error (.payload payload.length))

variable {w : Wire}

theorem taking_wait_short (h : w.arriving.flatten.length < 4) :
    taking.wait w = (.ok none, { w with arriving := [] }) := by
  simp [taking, Transfer.wait, Wire.gather_of_lt h]

/-- A whole header is taken off the stream, and then decides. -/
theorem taking_wait_header {a b c d : UInt8} {rest : List UInt8} (h : w.arriving.flatten = a :: b :: c :: d :: rest) :
    ∃ arriving, arriving.flatten = rest ∧
      taking.wait w =
        (if bound < length a b c d then (.error (.announced (length a b c d)), { w with arriving })
        else
          (match (Wire.gather (length a b c d) arriving).1 with
            | some payload => .ok (some payload)
            | none => .error .cut,
          { w with arriving := (Wire.gather (length a b c d) arriving).2 })) := by
  have hle : 4 ≤ w.arriving.flatten.length := by simp [h]
  obtain ⟨htake, hdrop⟩ := Wire.gather_of_le hle
  refine ⟨(Wire.gather 4 w.arriving).2, by simp [hdrop, h], ?_⟩
  simp only [taking, Transfer.wait, htake, h, List.take_succ_cons, List.take_zero]
  split
  · rfl
  · simp only [Transfer.wait]
    split <;> rfl

/-- What is taken is what is read from the bytes, and what follows the frame is left. -/
theorem taking_run_read (pace : Pace) (w : Wire) :
    (taking.run pace w).1 = (read w.arriving.flatten).map (Option.map Prod.fst) ∧
      ∀ payload rest, read w.arriving.flatten = .ok (some (payload, rest)) →
        (taking.run pace w).2.arriving.flatten = rest := by
  rw [Transfer.run_eq_wait]
  generalize hbytes : w.arriving.flatten = bytes
  unfold read
  split
  · rename_i a b c d rest
    obtain ⟨arriving, hrest, hwait⟩ := taking_wait_header hbytes
    rw [hwait]
    by_cases hbound : bound < length a b c d
    · simp [hbound, Except.map]
    by_cases hcut : rest.length < length a b c d
    · simp [hbound, hcut, Except.map, Wire.gather_of_lt (hrest ▸ hcut)]
    · obtain ⟨htake, hdrop⟩ := Wire.gather_of_le (hrest ▸ Nat.le_of_not_lt hcut)
      simp [hbound, hcut, Except.map, htake, hdrop, hrest]
  · rename_i hshort
    have hlt : w.arriving.flatten.length < 4 := by
      rw [hbytes]
      match bytes, hshort with
      | [], _ | [_], _ | [_, _], _ | [_, _, _], _ => simp
      | a :: b :: c :: d :: rest, hshort => exact absurd rfl (hshort a b c d rest)
    simp [taking_wait_short hlt, Except.map]

theorem read_of_taking {pace : Pace} {outcome : Except Fault (Option (List UInt8))} {w' : Wire}
    (h : taking.run pace w = (outcome, w')) :
    read w.arriving.flatten = outcome.map (Option.map fun payload => (payload, w'.arriving.flatten)) := by
  obtain ⟨hread, hrest⟩ := taking_run_read pace w
  rw [h] at hread hrest
  simp only at hread hrest
  subst hread
  cases hbytes : read w.arriving.flatten with
  | error fault => rfl
  | ok frame =>
    cases frame with
    | none => rfl
    | some frame => simp [Except.map, hrest frame.1 frame.2 hbytes]

/-- Frame after frame, until the stream ends or one cannot be taken. -/
def takeAll (pace : Pace) (w : Wire) : List (List UInt8) × Option Fault :=
  match _h : taking.run pace w with
  | (.ok none, _) => ([], none)
  | (.error fault, _) => ([], some fault)
  | (.ok (some payload), w') =>
    let (payloads, fault) := takeAll pace w'
    (payload :: payloads, fault)
termination_by w.arriving.flatten.length
decreasing_by exact read_length (read_of_taking _h)

/-- The frames of payloads, one after the other, until one cannot be put. -/
def putAll (pace : Pace) : List (List UInt8) → Wire → Except Fault Unit × Wire
  | [], w => (.ok (), w)
  | payload :: rest, w =>
    match (putting payload).run pace w with
    | (.ok (), w) => putAll pace rest w
    | (.error fault, w) => (.error fault, w)

theorem takeAll_eq_readAll (pace : Pace) (w : Wire) : takeAll pace w = readAll w.arriving.flatten := by
  fun_induction takeAll pace w with
  | case1 w w' h => rw [readAll_of_none (read_of_taking h)]
  | case2 w fault w' h => rw [readAll_of_error (read_of_taking h)]
  | case3 w payload w' h payloads fault hrest ih => rw [readAll_of_some (read_of_taking h), ← ih, hrest]

end RecordService.Frame
