import Mathlib.Algebra.Group.Nat.Defs
import RecordService.Worker.Framing

/-! # Streams of frames

What can be read off a stream is read off its first bytes: each outcome of `Frame.read` stands for one form of them,
and a header names every length below 2³². By induction on the payloads, what a reader comes to in the end says how the
whole stream is made up (`readAll_eq_iff`). The ends of a channel are compared with that through
`takeAll_eq_readAll`, so that neither the pieces nor the turns matter. -/

namespace RecordService.Frame

/-- The bytes of payloads in frames. -/
def stream (payloads : List (List UInt8)) : List UInt8 :=
  payloads.flatMap fun payload => header payload.length ++ payload

/-- A frame can hold each of them. -/
def Fit (payloads : List (List UInt8)) : Prop :=
  ∀ payload ∈ payloads, payload.length ≤ bound

@[simp] theorem stream_nil : stream [] = [] := rfl

@[simp] theorem stream_cons (payload : List UInt8) (payloads : List (List UInt8)) :
    stream (payload :: payloads) = header payload.length ++ (payload ++ stream payloads) := by
  simp [stream]

@[simp] theorem fit_nil : Fit [] := by simp [Fit]

@[simp] theorem fit_cons {payload : List UInt8} {payloads : List (List UInt8)} :
    Fit (payload :: payloads) ↔ payload.length ≤ bound ∧ Fit payloads := by
  simp [Fit]

/-! ### Headers -/

theorem length_lt (a b c d : UInt8) : length a b c d < 2 ^ 32 := by
  have ha := a.toNat_lt
  have hb := b.toNat_lt
  have hc := c.toNat_lt
  have hd := d.toNat_lt
  simp only [length]
  omega

theorem header_length (a b c d : UInt8) : header (length a b c d) = [a, b, c, d] := by
  have ha := a.toNat_lt
  have hb := b.toNat_lt
  have hc := c.toNat_lt
  have hd := d.toNat_lt
  simp only [header, length, List.cons.injEq, and_true, ← UInt8.toNat_inj, UInt8.toNat_ofNat']
  omega

/-- No length below 2³² is cut off by its header. -/
theorem length_header {size : Nat} (h : size < 2 ^ 32) :
    ∃ a b c d, header size = [a, b, c, d] ∧ length a b c d = size := by
  refine ⟨_, _, _, _, rfl, ?_⟩
  simp only [length, UInt8.toNat_ofNat']
  omega

theorem bound_lt : bound < 2 ^ 32 := by decide

/-! ### One frame -/

/-- What follows a header is judged by the length that it names. -/
theorem read_header {size : Nat} (h : size < 2 ^ 32) (rest : List UInt8) :
    read (header size ++ rest) =
      if bound < size then .error (.announced size)
      else if rest.length < size then .error .cut
      else .ok (some (rest.take size, rest.drop size)) := by
  obtain ⟨a, b, c, d, hheader, rfl⟩ := length_header h
  simp [hheader, read]

/-- A stream is too short for a header or starts with one. -/
theorem short_or_header (bytes : List UInt8) :
    bytes.length < 4 ∨ ∃ size rest, size < 2 ^ 32 ∧ bytes = header size ++ rest := by
  match bytes with
  | [] | [_] | [_, _] | [_, _, _] => exact .inl (by simp)
  | a :: b :: c :: d :: rest => exact .inr ⟨length a b c d, rest, length_lt a b c d, by simp [header_length]⟩

/-- How a stream may begin, and what a reader makes of it. -/
inductive Begins : List UInt8 → Except Fault (Option (List UInt8 × List UInt8)) → Prop
  /-- The end of the stream, or a header that is cut short. -/
  | short {bytes : List UInt8} (hshort : bytes.length < 4) : Begins bytes (.ok none)
  | frame {payload rest : List UInt8} (hle : payload.length ≤ bound) :
      Begins (header payload.length ++ (payload ++ rest)) (.ok (some (payload, rest)))
  | cut {size : Nat} {body : List UInt8} (hle : size ≤ bound) (hcut : body.length < size) :
      Begins (header size ++ body) (.error .cut)
  | announced {size : Nat} {rest : List UInt8} (hlt : bound < size) (hsize : size < 2 ^ 32) :
      Begins (header size ++ rest) (.error (.announced size))

theorem begins_read (bytes : List UInt8) : Begins bytes (read bytes) := by
  obtain hshort | ⟨size, rest, hsize, rfl⟩ := short_or_header bytes
  · have hread : read bytes = .ok none := by
      match bytes, hshort with
      | [], _ | [_], _ | [_, _], _ | [_, _, _], _ => rfl
    exact hread ▸ .short hshort
  · rw [read_header hsize]
    -- the length is looked at before the payload, so one above the bound stops the reader at once
    by_cases hlt : bound < size
    · rw [if_pos hlt]
      exact .announced hlt hsize
    rw [if_neg hlt]
    by_cases hcut : rest.length < size
    · rw [if_pos hcut]
      exact .cut (Nat.le_of_not_lt hlt) hcut
    rw [if_neg hcut]
    have hlength : (rest.take size).length = size := List.length_take_of_le (Nat.le_of_not_lt hcut)
    have hframe : Begins (header (rest.take size).length ++ (rest.take size ++ rest.drop size)) _ :=
      .frame (by omega)
    rwa [hlength, List.take_append_drop] at hframe

theorem read_eq_iff {bytes : List UInt8} {outcome : Except Fault (Option (List UInt8 × List UInt8))} :
    read bytes = outcome ↔ Begins bytes outcome := by
  constructor
  · rintro rfl
    exact begins_read bytes
  · intro h
    cases h with
    | short hshort =>
      match bytes, hshort with
      | [], _ | [_], _ | [_, _], _ | [_, _, _], _ => rfl
    | @frame payload rest hle =>
      rw [read_header (Nat.lt_of_le_of_lt hle bound_lt), if_neg (Nat.not_lt.2 hle)]
      simp
    | cut hle hcut => rw [read_header (Nat.lt_of_le_of_lt hle bound_lt), if_neg (Nat.not_lt.2 hle), if_pos hcut]
    | announced hlt hsize => rw [read_header hsize, if_pos hlt]

/-! ### Frame after frame -/

/-- A reader stops here and reads no payload. -/
def Stops (bytes : List UInt8) (fault : Option Fault) : Prop :=
  Begins bytes (fault.elim (.ok none) .error)

theorem readAll_eq_nil_iff {bytes : List UInt8} {fault : Option Fault} :
    readAll bytes = ([], fault) ↔ Stops bytes fault := by
  rw [Stops, ← read_eq_iff]
  cases hread : read bytes with
  | error found =>
    rw [readAll_of_error hread]
    cases fault <;> simp
  | ok frame =>
    cases frame with
    | none =>
      rw [readAll_of_none hread]
      cases fault <;> simp
    | some frame =>
      rw [readAll_of_some hread]
      cases fault <;> simp

theorem readAll_eq_cons_iff {bytes payload : List UInt8} {payloads : List (List UInt8)} {fault : Option Fault} :
    readAll bytes = (payload :: payloads, fault) ↔
      ∃ rest, read bytes = .ok (some (payload, rest)) ∧ readAll rest = (payloads, fault) := by
  cases hread : read bytes with
  | error found => simp [readAll_of_error hread]
  | ok frame =>
    cases frame with
    | none => simp [readAll_of_none hread]
    | some frame =>
      obtain ⟨found, rest⟩ := frame
      rw [readAll_of_some hread]
      constructor
      · intro h
        cases h
        exact ⟨rest, rfl, rfl⟩
      · rintro ⟨_, h, hrest⟩
        cases h
        rw [hrest]

/-- The payloads that are read are those of the frames in front, and what follows these makes the reader stop. -/
theorem readAll_eq_iff {bytes : List UInt8} {payloads : List (List UInt8)} {fault : Option Fault} :
    readAll bytes = (payloads, fault) ↔
      Fit payloads ∧ ∃ rest, bytes = stream payloads ++ rest ∧ Stops rest fault := by
  induction payloads generalizing bytes with
  | nil => simp [readAll_eq_nil_iff]
  | cons payload payloads ih =>
    rw [readAll_eq_cons_iff]
    constructor
    · rintro ⟨rest, hread, hrest⟩
      cases read_eq_iff.1 hread with | frame hle =>
      obtain ⟨hfit, tail, rfl, hstops⟩ := ih.1 hrest
      exact ⟨fit_cons.2 ⟨hle, hfit⟩, tail, by simp, hstops⟩
    · rintro ⟨hfit, tail, rfl, hstops⟩
      obtain ⟨hle, hfit⟩ := fit_cons.1 hfit
      refine ⟨stream payloads ++ tail, read_eq_iff.2 ?_, ih.2 ⟨hfit, tail, rfl, hstops⟩⟩
      simpa using Begins.frame hle

theorem readAll_stream {payloads : List (List UInt8)} (h : Fit payloads) :
    readAll (stream payloads) = (payloads, none) :=
  readAll_eq_iff.2 ⟨h, [], by simp, .short (by simp)⟩

theorem writeAll_of_fit {payloads : List (List UInt8)} (h : Fit payloads) :
    writeAll payloads = .ok (stream payloads) := by
  induction payloads with
  | nil => rfl
  | cons payload payloads ih =>
    obtain ⟨hle, hfit⟩ := fit_cons.1 h
    simp only [writeAll, write, if_pos hle, ih hfit, stream_cons]
    simp [bind, Except.bind, pure, Except.pure]

/-! ### Putting frames -/

variable (pace : Pace)

theorem putting_run {payload : List UInt8} (h : payload.length ≤ bound) (w : Wire) :
    ∃ room, (putting payload).run pace w =
      (.ok (), { w with room, sent := w.sent ++ (header payload.length ++ payload) }) := by
  rw [Transfer.run_eq_wait]
  simp only [putting, if_pos h, Transfer.wait, List.append_assoc]
  exact ⟨_, rfl⟩

/-- A payload that no frame can hold does not reach the channel. -/
theorem putting_run_of_lt {payload : List UInt8} (h : bound < payload.length) (w : Wire) :
    (putting payload).run pace w = (.error (.payload payload.length), w) := by
  rw [Transfer.run_eq_wait, putting, if_neg (Nat.not_le.2 h), Transfer.wait]

theorem putAll_of_fit {payloads : List (List UInt8)} (h : Fit payloads) (w : Wire) :
    (putAll pace payloads w).1 = .ok () ∧ (putAll pace payloads w).2.sent = w.sent ++ stream payloads := by
  induction payloads generalizing w with
  | nil => simp [putAll]
  | cons payload payloads ih =>
    obtain ⟨hle, hfit⟩ := fit_cons.1 h
    obtain ⟨room, hput⟩ := putting_run pace hle w
    simp only [putAll, hput]
    obtain ⟨hok, hsent⟩ := ih hfit { w with room, sent := w.sent ++ (header payload.length ++ payload) }
    exact ⟨hok, by simp [hsent]⟩

/-! ### The results -/

/-- Payloads that frames can hold arrive as they were sent, however the bytes are cut up on the way and whichever way
each end waits. -/
theorem frames_round_trip (writer reader : Pace) :
    (∀ payloads out, Fit payloads →
      (putAll writer payloads out).1 = .ok () ∧
      (putAll writer payloads out).2.sent = out.sent ++ stream payloads ∧ writeAll payloads = .ok (stream payloads) ∧
      ∀ w : Wire, w.arriving.flatten = stream payloads → takeAll reader w = (payloads, none)) ∧
    (∀ size ≤ bound, ∃ a b c d, header size = [a, b, c, d] ∧ length a b c d = size) ∧
    (∀ payload out, bound < payload.length →
      (putting payload).run writer out = (.error (.payload payload.length), out)) ∧
    (∀ (w : Wire) size rest, bound < size → size < 2 ^ 32 → w.arriving.flatten = header size ++ rest →
      (taking.run reader w).1 = .error (.announced size) ∧ (taking.run reader w).2.arriving.flatten = rest) ∧
    (∀ w, taking.run .polled w = taking.run .blocking w) ∧
    ∀ payload w, (putting payload).run .polled w = (putting payload).run .blocking w := by
  refine ⟨fun payloads out hfit => ?_, fun size hsize => length_header (Nat.lt_of_le_of_lt hsize bound_lt),
    fun payload out hlong => putting_run_of_lt writer hlong out, fun w size rest hbound hsize hbytes => ?_,
    fun w => Transfer.settle_eq_wait _ w, fun payload w => Transfer.settle_eq_wait _ w⟩
  · obtain ⟨hok, hsent⟩ := putAll_of_fit writer hfit out
    refine ⟨hok, hsent, writeAll_of_fit hfit, fun w hw => ?_⟩
    rw [takeAll_eq_readAll, hw]
    exact readAll_stream hfit
  · obtain ⟨a, b, c, d, hheader, hlength⟩ := length_header hsize
    rw [hheader] at hbytes
    obtain ⟨arriving, hrest, hwait⟩ := taking_wait_header hbytes
    rw [hlength, if_pos hbound] at hwait
    rw [Transfer.run_eq_wait, hwait]
    exact ⟨rfl, hrest⟩

theorem frames_round_trip_pieces :
    Fit [[123, 125], []] ∧
    (putAll .polled [[123, 125], []] ⟨[], [0, 3, 0], []⟩).2.sent = [2, 0, 0, 0, 123, 125, 0, 0, 0, 0] ∧
    takeAll .polled ⟨[[2], [], [0, 0, 0, 123], [125, 0, 0], [0, 0]], [], []⟩ = ([[123, 125], []], none) ∧
    (∃ a b c d, header bound = [a, b, c, d] ∧ length a b c d = bound) ∧
    (putting (List.replicate (bound + 1) 0)).run .polled ⟨[], [2], []⟩ =
      (.error (.payload (bound + 1)), ⟨[], [2], []⟩) ∧
    (taking.run .blocking ⟨[[1, 0], [0, 4, 9]], [], []⟩).1 = .error (.announced (bound + 1)) ∧
    (taking.run .blocking ⟨[[1, 0], [0, 4, 9]], [], []⟩).2.arriving.flatten = [9] := by
  have hfit : Fit [[123, 125], []] := by simp [bound]
  obtain ⟨hfits, hheaders, hlong, -, -, -⟩ := frames_round_trip .polled .polled
  obtain ⟨-, hsent, -, htaken⟩ := hfits [[123, 125], []] ⟨[], [0, 3, 0], []⟩ hfit
  have hrefused := hlong (List.replicate (bound + 1) 0) ⟨[], [2], []⟩ (by simp)
  have hannounced := (frames_round_trip .blocking .blocking).2.2.2.1 ⟨[[1, 0], [0, 4, 9]], [], []⟩ (bound + 1) [9]
    (by decide) (by decide) (by decide)
  rw [List.length_replicate] at hrefused
  exact ⟨hfit, hsent.trans (by decide), htaken _ (by decide), hheaders bound (Nat.le_refl _), hrefused, hannounced⟩

/-- A reader stops without a fault at fewer than four bytes after whole frames, at the end of the stream or inside of a
header; inside of a payload and at a length above the bound it stops with a fault. -/
theorem stream_ends (pace : Pace) (w : Wire) (payloads : List (List UInt8)) :
    (takeAll pace w = (payloads, none) ↔
      Fit payloads ∧ ∃ tail, w.arriving.flatten = stream payloads ++ tail ∧ tail.length < 4) ∧
    (takeAll pace w = (payloads, some .cut) ↔
      Fit payloads ∧ ∃ size body, w.arriving.flatten = stream payloads ++ (header size ++ body) ∧
        size ≤ bound ∧ body.length < size) ∧
    (∀ size, takeAll pace w = (payloads, some (.announced size)) ↔
      Fit payloads ∧ ∃ rest, w.arriving.flatten = stream payloads ++ (header size ++ rest) ∧
        bound < size ∧ size < 2 ^ 32) ∧
    ∀ size, takeAll pace w ≠ (payloads, some (.payload size)) := by
  simp only [takeAll_eq_readAll, ne_eq, readAll_eq_iff, Stops, Option.elim_none, Option.elim_some]
  refine ⟨⟨?_, ?_⟩, ⟨?_, ?_⟩, fun size => ⟨?_, ?_⟩, ?_⟩
  · rintro ⟨hfit, tail, hbytes, hbegins⟩
    cases hbegins with | short hshort =>
    exact ⟨hfit, tail, hbytes, hshort⟩
  · rintro ⟨hfit, tail, hbytes, hshort⟩
    exact ⟨hfit, tail, hbytes, .short hshort⟩
  · rintro ⟨hfit, _, hbytes, hbegins⟩
    cases hbegins with | cut hle hcut =>
    exact ⟨hfit, _, _, hbytes, hle, hcut⟩
  · rintro ⟨hfit, size, body, hbytes, hle, hcut⟩
    exact ⟨hfit, _, hbytes, .cut hle hcut⟩
  · rintro ⟨hfit, _, hbytes, hbegins⟩
    cases hbegins with | announced hlt hsize =>
    exact ⟨hfit, _, hbytes, hlt, hsize⟩
  · rintro ⟨hfit, rest, hbytes, hlt, hsize⟩
    exact ⟨hfit, _, hbytes, .announced hlt hsize⟩
  · rintro size ⟨-, _, -, hbegins⟩
    cases hbegins

/-- A header that is cut short ends a stream like the end of its last frame. -/
theorem header_cut_ends_without_fault :
    (∀ pace, takeAll pace ⟨[[2, 0, 0, 0, 123, 125, 1]], [], []⟩ = ([[123, 125]], none)) ∧
    ¬ ∃ payloads, Fit payloads ∧ stream payloads = [2, 0, 0, 0, 123, 125, 1] := by
  have hread : readAll [2, 0, 0, 0, 123, 125, 1] = ([[123, 125]], none) :=
    readAll_eq_iff.2 ⟨by simp [bound], [1], rfl, .short (by decide)⟩
  refine ⟨fun pace => by rw [takeAll_eq_readAll]; exact hread, ?_⟩
  rintro ⟨payloads, hfit, hstream⟩
  have hall := readAll_stream hfit
  rw [hstream, hread] at hall
  cases hall
  exact absurd hstream (by decide)

end RecordService.Frame
