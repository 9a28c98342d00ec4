import RecordService.Worker.Frame

/-! # Transfers

A channel brings bytes in pieces and takes bytes as it has room for them. A transfer is what one end does with it: it
takes a number of bytes or puts some, and goes on. A blocking end stays with each of these until all bytes have moved;
a polled end is left in every turn in which no byte moves, and polled again. Either way it comes to the same
(`Transfer.run_eq_wait`). -/

namespace RecordService

/-- One end of a channel. In a turn in which nothing moves an empty piece arrives, or there is room for no byte. -/
structure Wire where
  /-- The pieces that are still to come; after them the stream ends. -/
  arriving : List (List UInt8)
  /-- For how many bytes there is room, turn by turn; after these turns, for all. -/
  room : List Nat
  sent : List UInt8
deriving DecidableEq, Repr

inductive Transfer (α : Type) where
  | done (value : α)
  /-- Goes on with so many bytes, or with none if the stream ends before they are there. -/
  | take (count : Nat) (next : Option (List UInt8) → Transfer α)
  | put (bytes : List UInt8) (next : Transfer α)

/-- How an end waits for its channel. -/
inductive Pace where
  | blocking
  | polled
deriving DecidableEq, Repr

namespace Wire

/-- The number of turns that are still to come. -/
def turns (w : Wire) : Nat :=
  w.arriving.length + w.room.length

/-! ### Taking -/

/-- So many bytes, if they come before the stream ends, and the pieces that are left. -/
def gather : Nat → List (List UInt8) → Option (List UInt8) × List (List UInt8)
  | 0, pieces => (some [], pieces)
  | _ + 1, [] => (none, [])
  | n + 1, piece :: rest =>
    if n + 1 < piece.length then (some (piece.take (n + 1)), piece.drop (n + 1) :: rest)
    else
      let (more, rest) := gather (n + 1 - piece.length) rest
      (more.map (piece ++ ·), rest)

/-- What a poll for some bytes comes to. -/
inductive Gathered where
  | whole (bytes : Option (List UInt8))
  /-- These bytes came before a turn in which none did. -/
  | part (bytes : List UInt8)

def Gathered.prepend (piece : List UInt8) : Gathered → Gathered
  | whole bytes => whole (bytes.map (piece ++ ·))
  | part bytes => part (piece ++ bytes)

/-- The bytes that come before a turn without any, as far as they are wanted, and the pieces that are left. -/
def pollGather : Nat → List (List UInt8) → Gathered × List (List UInt8)
  | 0, pieces => (.whole (some []), pieces)
  | _ + 1, [] => (.whole none, [])
  | n + 1, piece :: rest =>
    if piece = [] then (.part [], rest)
    else if n + 1 < piece.length then (.whole (some (piece.take (n + 1))), piece.drop (n + 1) :: rest)
    else
      let (more, rest) := pollGather (n + 1 - piece.length) rest
      (more.prepend piece, rest)

/-- After a part, what is still wanted comes from the pieces that are left. -/
theorem gather_eq (count : Nat) (pieces : List (List UInt8)) :
    gather count pieces =
      match pollGather count pieces with
      | (.whole bytes, rest) => (bytes, rest)
      | (.part got, rest) =>
        let (more, rest) := gather (count - got.length) rest
        (more.map (got ++ ·), rest) := by
  fun_induction pollGather count pieces with
  | case1 pieces => simp [gather]
  | case2 n => simp [gather]
  | case3 n rest => simp [gather]
  | case4 n piece rest hsome hlong => simp [gather, hlong]
  | case5 n piece rest hsome hshort more left heq ih =>
    rw [gather, if_neg hshort, ih, heq]
    cases more with
    | whole bytes => rfl
    | part got => simp [Gathered.prepend, Nat.sub_sub, Function.comp_def]

theorem pollGather_length_le (count : Nat) (pieces : List (List UInt8)) :
    (pollGather count pieces).2.length ≤ pieces.length := by
  fun_induction pollGather count pieces with grind

theorem pollGather_length_lt {count : Nat} {pieces rest : List (List UInt8)} {got : List UInt8}
    (h : pollGather count pieces = (.part got, rest)) : rest.length < pieces.length := by
  fun_induction pollGather count pieces generalizing got rest with grind [Gathered.prepend.eq_def]

/-- What is gathered does not depend on how the bytes are cut into pieces. -/
theorem gather_of_le {count : Nat} {pieces : List (List UInt8)} (h : count ≤ pieces.flatten.length) :
    (gather count pieces).1 = some (pieces.flatten.take count) ∧
      (gather count pieces).2.flatten = pieces.flatten.drop count := by
  induction pieces generalizing count with
  | nil => simp_all [gather]
  | cons piece pieces ih =>
    cases count with
    | zero => simp [gather]
    | succ n =>
      simp only [gather, List.flatten_cons, List.take_append, List.drop_append]
      split
      · rename_i hlong
        simp [Nat.sub_eq_zero_of_le (Nat.le_of_lt hlong)]
      · rename_i hshort
        have hle : n + 1 - piece.length ≤ pieces.flatten.length := by
          simp only [List.flatten_cons, List.length_append] at h
          omega
        have htake : piece.take (n + 1) = piece := List.take_of_length_le (by omega)
        have hdrop : piece.drop (n + 1) = [] := List.drop_of_length_le (by omega)
        simp [ih hle, htake, hdrop]

theorem gather_of_lt {count : Nat} {pieces : List (List UInt8)} (h : pieces.flatten.length < count) :
    gather count pieces = (none, []) := by
  induction pieces generalizing count with
  | nil =>
    cases count with
    | zero => simp at h
    | succ n => rfl
  | cons piece pieces ih =>
    cases count with
    | zero => simp at h
    | succ n =>
      simp only [List.flatten_cons, List.length_append] at h
      have hshort : ¬ n + 1 < piece.length := by omega
      have hlt : pieces.flatten.length < n + 1 - piece.length := by omega
      simp [gather, hshort, ih hlt]

/-! ### Putting -/

/-- The room that is left after so many bytes. -/
def roomAfter : Nat → List Nat → List Nat
  | 0, room => room
  | _ + 1, [] => []
  | n + 1, free :: room => roomAfter (n + 1 - free) room

/-- How many of some bytes there is room for before a turn without any, and the room that is left. -/
def pollRoom : Nat → List Nat → Nat × List Nat
  | 0, room => (0, room)
  | n + 1, [] => (n + 1, [])
  | n + 1, free :: room =>
    if free = 0 then (0, room)
    else
      let (more, room) := pollRoom (n + 1 - free) room
      (min free (n + 1) + more, room)

theorem pollRoom_le (count : Nat) (room : List Nat) : (pollRoom count room).1 ≤ count := by
  fun_induction pollRoom count room with grind

theorem roomAfter_pollRoom (count : Nat) (room : List Nat) :
    roomAfter (count - (pollRoom count room).1) (pollRoom count room).2 = roomAfter count room := by
  fun_induction pollRoom count room with
  | case1 => rfl
  | case2 => simp [roomAfter]
  | case3 n room => simp [roomAfter]
  | case4 n free room hfree more left heq ih =>
    simp only [heq] at ih ⊢
    rw [roomAfter, ← ih]
    congr 1
    omega

theorem pollRoom_length_le (count : Nat) (room : List Nat) : (pollRoom count room).2.length ≤ room.length := by
  fun_induction pollRoom count room with grind

theorem pollRoom_length_lt {count : Nat} {room : List Nat} (h : (pollRoom count room).1 < count) :
    (pollRoom count room).2.length < room.length := by
  fun_induction pollRoom count room with grind

end Wire

namespace Transfer

variable {α : Type}

/-- What a blocking end comes to. -/
def wait : Transfer α → Wire → α × Wire
  | done value, w => (value, w)
  | take count next, w =>
    let (bytes, arriving) := Wire.gather count w.arriving
    (next bytes).wait { w with arriving }
  | put bytes next, w =>
    next.wait { w with room := Wire.roomAfter bytes.length w.room, sent := w.sent ++ bytes }

/-- One poll: as far as it goes before a turn in which nothing moves, and what is left to do then. -/
def poll : Transfer α → Wire → Transfer α × Wire
  | done value, w => (done value, w)
  | take count next, w =>
    match Wire.pollGather count w.arriving with
    | (.whole bytes, arriving) => (next bytes).poll { w with arriving }
    | (.part got, arriving) => (take (count - got.length) fun more => next (more.map (got ++ ·)), { w with arriving })
  | put bytes next, w =>
    let (moved, room) := Wire.pollRoom bytes.length w.room
    let w := { w with room, sent := w.sent ++ bytes.take moved }
    if moved < bytes.length then (put (bytes.drop moved) next, w) else next.poll w

theorem wait_poll (t : Transfer α) (w : Wire) : (t.poll w).1.wait (t.poll w).2 = t.wait w := by
  induction t generalizing w with
  | done value => rfl
  | take count next ih =>
    simp only [poll]
    rw [wait, Wire.gather_eq]
    cases Wire.pollGather count w.arriving with
    | mk got arriving =>
      cases got with
      | whole bytes => exact ih bytes _
      | part got => rfl
  | put bytes next ih =>
    simp only [poll]
    have hroom := Wire.roomAfter_pollRoom bytes.length w.room
    have hle := Wire.pollRoom_le bytes.length w.room
    split
    · simp [wait, List.append_assoc, hroom]
    · have hall : (Wire.pollRoom bytes.length w.room).1 = bytes.length := by omega
      rw [hall, Nat.sub_self, Wire.roomAfter] at hroom
      simp [wait, ih, hall, hroom]

/-- A poll that leaves something to do has come to a turn in which nothing moved. -/
theorem poll_turns_lt (t : Transfer α) (w : Wire) (h : ∀ value, (t.poll w).1 ≠ done value) :
    (t.poll w).2.turns < w.turns := by
  induction t generalizing w with
  | done value => exact absurd rfl (h value)
  | take count next ih =>
    have hle := Wire.pollGather_length_le count w.arriving
    simp only [poll] at h ⊢
    cases hgot : Wire.pollGather count w.arriving with
    | mk got arriving =>
      rw [hgot] at hle h
      cases got with
      | whole bytes => exact Nat.lt_of_lt_of_le (ih _ _ h) (Nat.add_le_add_right hle _)
      | part got => exact Nat.add_lt_add_right (Wire.pollGather_length_lt hgot) _
  | put bytes next ih =>
    have hle := Wire.pollRoom_length_le bytes.length w.room
    simp only [poll] at h ⊢
    split at h <;> rename_i hmoved
    · rw [if_pos hmoved]
      exact Nat.add_lt_add_left (Wire.pollRoom_length_lt hmoved) _
    · rw [if_neg hmoved]
      exact Nat.lt_of_lt_of_le (ih _ h) (Nat.add_le_add_left hle _)

/-- What a polled end comes to. -/
def settle (t : Transfer α) (w : Wire) : α × Wire :=
  match _h : t.poll w with
  | (done value, w') => (value, w')
  | (left@(take ..), w') => left.settle w'
  | (left@(put ..), w') => left.settle w'
termination_by w.turns
decreasing_by
  all_goals
    have hlt := poll_turns_lt t w (by simp [_h])
    rwa [_h] at hlt

def run (pace : Pace) (t : Transfer α) (w : Wire) : α × Wire :=
  match pace with
  | .blocking => t.wait w
  | .polled => t.settle w

theorem settle_eq_wait (t : Transfer α) (w : Wire) : t.settle w = t.wait w := by
  fun_induction settle t w with
  | case1 t w value w' h => rw [← wait_poll t w, h]; rfl
  | case2 t w count next w' h ih => rw [ih, ← wait_poll t w, h]
  | case3 t w bytes next w' h ih => rw [ih, ← wait_poll t w, h]

theorem run_eq_wait (pace : Pace) (t : Transfer α) (w : Wire) : t.run pace w = t.wait w := by
  cases pace with
  | blocking => rfl
  | polled => exact settle_eq_wait t w

end Transfer
end RecordService
