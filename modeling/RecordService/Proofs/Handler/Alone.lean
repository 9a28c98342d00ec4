import RecordService.Proofs.Handler.Conservation

/-! # Tasks alone on a pool

What a task comes to that no other interferes with (`run_look`, `run_giveBack`, `run_discard`), and what every such task
does to the numbers of the workers (`Passes`): it may lose some, and starts new ones with new numbers. -/

namespace RecordService

open Pool

variable {ω : Type}

namespace Pool

/-! ### Step by step -/

section
variable {start : Nat → Except String ω} {p q : Pool ω} {t t' : Pool.Task ω} {fuel : Nat}

theorem runFor_goOn (h : p.step t (signalAlone start t) = q.goOn t') :
    runFor start (fuel + 1) p t = runFor start fuel q t' := by
  rw [runFor, h]
  rfl

theorem runFor_answer {a : Answer ω} {notice : Option Notice}
    (h : p.step t (signalAlone start t) = ⟨q, .inl a, notice⟩) : runFor start (fuel + 1) p t = (a, q) := by
  rw [runFor, h]

/-- A worker that becomes ready is leased; the slot of one that does not is free. -/
theorem runFor_await (hopen : p.closed = false) (id : Nat) :
    runFor start (fuel + 3) p (.await .lease id) =
      match start id with
      | .ok worker => (.leased ⟨id, worker⟩, { p with busy := p.busy + 1 })
      | .error reason => (.failed (.spawn reason), { p with live := p.live - 1 }) := by
  cases hstart : start id with
  | ok worker =>
    have hready : p.step (.await .lease id) (signalAlone start (.await .lease id)) = p.goOn (.place .lease ⟨id, worker⟩) := by
      rw [signalAlone, hstart]
      rfl
    have hplace : p.step (.place .lease ⟨id, worker⟩) .go = p.goOn (.lend ⟨id, worker⟩) :=
      if_neg (ne_true_of_eq_false hopen)
    rw [runFor_goOn hready, runFor_goOn hplace]
    exact runFor_answer rfl
  | error reason =>
    have hbroken : p.step (.await .lease id) (signalAlone start (.await .lease id)) =
        p.goOn (.free (.answer (.failed (.spawn reason)))) := by
      rw [signalAlone, hstart]
      rfl
    rw [runFor_goOn hbroken, runFor_goOn rfl]
    exact runFor_answer rfl

end

section
variable (start : Nat → Except String ω) (p : Pool ω)

/-- An idle worker is leased if there is one, and a new one if there is a slot for it. -/
theorem run_look :
    p.run start .look =
      if p.closed then (.failed .poolClosed, p)
      else
        match p.idle with
        | h :: rest => (.leased h, { p with idle := rest, busy := p.busy + 1 })
        | [] =>
          if p.live < p.size then
            match start p.nextId with
            | .ok worker =>
              (.leased ⟨p.nextId, worker⟩, { p with live := p.live + 1, busy := p.busy + 1, nextId := p.nextId + 1 })
            | .error reason => (.failed (.spawn reason), { p with nextId := p.nextId + 1 })
          else (.failed .acquireTimeout, p) := by
  rw [run, show p.steps = 5 * p.size + 3 * p.idle.length + 2 + 6 from rfl]
  by_cases hclosed : p.closed = true
  · rw [if_pos hclosed]
    exact runFor_answer (if_pos hclosed)
  rw [if_neg hclosed]
  cases hidle : p.idle with
  | cons h rest =>
    have hlook : p.step .look .go = { p with idle := rest, busy := p.busy + 1 }.answer (.leased h) :=
      (if_neg hclosed).trans (by rw [hidle])
    exact runFor_answer hlook
  | nil =>
    have hlook : p.step .look .go = p.goOn .reserve := (if_neg hclosed).trans (by rw [hidle])
    rw [runFor_goOn hlook]
    by_cases hlive : p.live < p.size
    · have hreserve : p.step .reserve .go = { p with live := p.live + 1 }.goOn (.start .lease) := by
        dsimp only [step]
        rw [reserve?, if_pos hlive]
      -- no other step comes between the start of the worker and its lease
      let q : Pool ω := { p with live := p.live + 1, nextId := p.nextId + 1 }
      have hopen : q.closed = false := eq_false_of_ne_true hclosed
      rw [if_pos hlive, runFor_goOn hreserve, runFor_goOn rfl]
      refine (runFor_await hopen p.nextId).trans ?_
      cases start p.nextId <;> simp [q, hidle]
    · have hreserve : p.step .reserve .go = p.goOn .wait := by
        dsimp only [step]
        rw [reserve?, if_neg hlive]
      rw [if_neg hlive, runFor_goOn hreserve]
      exact runFor_answer rfl

/-- Only an open pool leases workers. -/
theorem open_of_leased {h : Handle ω} (hleased : (p.run start .look).1 = .leased h) :
    (p.run start .look).2.closed = false := by
  rw [run_look] at hleased ⊢
  split at hleased
  · cases hleased
  · next hclosed =>
    rw [if_neg hclosed]
    cases p.idle with
    | cons first rest => exact eq_false_of_ne_true hclosed
    | nil =>
      by_cases hlive : p.live < p.size
      · simp only [hlive, if_true]
        cases start p.nextId <;> exact eq_false_of_ne_true hclosed
      · simp only [hlive, if_false]
        exact eq_false_of_ne_true hclosed

/-- Who looks for a worker gets one, or learns why not. -/
theorem look_answers : (∃ h, (p.run start .look).1 = .leased h) ∨ ∃ reason, (p.run start .look).1 = .failed reason := by
  rw [run_look]
  by_cases hclosed : p.closed = true
  · exact .inr ⟨_, by rw [if_pos hclosed]⟩
  rw [if_neg hclosed]
  cases p.idle with
  | cons h rest => exact .inl ⟨h, rfl⟩
  | nil =>
    by_cases hlive : p.live < p.size
    · simp only [hlive, if_true]
      cases start p.nextId with
      | ok worker => exact .inl ⟨_, rfl⟩
      | error reason => exact .inr ⟨_, rfl⟩
    · simp only [hlive, if_false]
      exact .inr ⟨_, rfl⟩

/-- A worker that is given back to an open pool is the first to be leased. -/
theorem run_giveBack (h : Handle ω) (hopen : p.closed = false) :
    p.run start (.giveBack h) = (.finished, { p with idle := h :: p.idle, busy := p.busy - 1 }) := by
  let q : Pool ω := { p with busy := p.busy - 1 }
  have hshelve : q.step (.shelve h) .go = { q with idle := h :: p.idle }.goOn (.announce (.answer .finished)) :=
    if_neg (ne_true_of_eq_false hopen)
  rw [run, show p.steps = 5 * p.size + 3 * p.idle.length + 5 + 3 from rfl, runFor_goOn rfl, runFor_goOn hshelve]
  exact runFor_answer rfl

/-- A worker that is discarded is not kept, and its slot is free. -/
theorem run_discard (h : Handle ω) :
    p.run start (.discard h) = (.finished, { p with live := p.live - 1, busy := p.busy - 1 }) := by
  rw [run, show p.steps = 5 * p.size + 3 * p.idle.length + 5 + 3 from rfl, runFor_goOn rfl, runFor_goOn rfl]
  exact runFor_answer rfl

end

/-! ### The numbers of the workers -/

/-- The numbers of some workers, of which the next will be `n`, become others: some workers are lost, and those that are
started have the next numbers. -/
def Passes (ids : List Nat) (n : Nat) (ids' : List Nat) (n' : Nat) : Prop :=
  ∃ started lost, n' = n + started ∧ (ids' ++ lost).Perm (ids ++ List.range' n started)

namespace Passes

variable {ids ids' ids'' : List Nat} {n n' n'' : Nat}

theorem refl (ids : List Nat) (n : Nat) : Passes ids n ids n :=
  ⟨0, [], rfl, .refl _⟩

theorem perm (h : Passes ids n ids' n') (hperm : ids'.Perm ids'') : Passes ids n ids'' n' := by
  obtain ⟨started, lost, hnext, hworkers⟩ := h
  exact ⟨started, lost, hnext, (hperm.append_right lost).symm.trans hworkers⟩

/-- Of what is there in the end, some may be left out. -/
theorem left (h : Passes ids n (ids' ++ ids'') n') : Passes ids n ids' n' := by
  obtain ⟨started, lost, hnext, hworkers⟩ := h
  exact ⟨started, ids'' ++ lost, hnext, List.append_assoc .. ▸ hworkers⟩

theorem trans (h : Passes ids n ids' n') (h' : Passes ids' n' ids'' n'') : Passes ids n ids'' n'' := by
  obtain ⟨started, lost, rfl, hperm⟩ := h
  obtain ⟨started', lost', rfl, hperm'⟩ := h'
  refine ⟨started + started', lost' ++ lost, Nat.add_assoc n started started', ?_⟩
  rw [← List.range'_append_1]
  calc
    (ids'' ++ (lost' ++ lost)).Perm (ids' ++ List.range' (n + started) started' ++ lost) := by
      rw [← List.append_assoc]
      exact hperm'.append_right lost
    (ids' ++ List.range' (n + started) started' ++ lost).Perm
        (ids' ++ lost ++ List.range' (n + started) started') := by
      simp only [List.append_assoc]
      exact List.perm_append_comm.append_left ids'
    (ids' ++ lost ++ List.range' (n + started) started').Perm
        (ids ++ (List.range' n started ++ List.range' (n + started) started')) := by
      rw [← List.append_assoc ids]
      exact hperm.append_right _

/-- Numbers that were different stay so. -/
theorem nodup (h : Passes ids n ids' n') (hnodup : ids.Nodup) (hgiven : ∀ id ∈ ids, id < n) :
    ids'.Nodup ∧ ∀ id ∈ ids', id < n' := by
  obtain ⟨started, lost, rfl, hperm⟩ := h
  have hall : (ids ++ List.range' n started).Nodup := by
    refine List.Nodup.append hnodup List.nodup_range' fun id hold hnew => ?_
    have := hgiven id hold
    have := (List.mem_range'_1.mp hnew).1
    omega
  refine ⟨(List.nodup_append.mp (hperm.symm.nodup hall)).1, fun id hid => ?_⟩
  obtain hold | hnew := List.mem_append.mp (hperm.subset (List.mem_append_left lost hid))
  · exact Nat.lt_add_right started (hgiven id hold)
  · exact (List.mem_range'_1.mp hnew).2

/-- A number that was given out is not given out again. -/
theorem not_mem (h : Passes ids n ids' n') {id : Nat} (hgiven : id < n) (hnot : id ∉ ids) : id < n' ∧ id ∉ ids' := by
  obtain ⟨started, lost, rfl, hperm⟩ := h
  refine ⟨Nat.lt_add_right started hgiven, fun hid => ?_⟩
  obtain hold | hnew := List.mem_append.mp (hperm.subset (List.mem_append_left lost hid))
  · exact hnot hold
  · have := (List.mem_range'_1.mp hnew).1
    omega

end Passes

/-- The numbers of the idle workers. -/
def idleIds (p : Pool ω) : List Nat :=
  p.idle.map Handle.id

theorem step_passes {t : Pool.Task ω} (p : Pool ω) (hnone : t.promised = []) (signal : Signal ω) :
    let m := p.step t signal
    Passes (p.idleIds ++ t.workers) p.nextId
      ((m.pool.idle ++ leased m.next).map Handle.id ++ (remaining m.next).flatMap Task.workers) m.pool.nextId := by
  intro m
  have hmoves : Moves p t signal m := moves_step p t signal
  have hworkers := hmoves.workers hnone
  have hnext := hmoves.nextId
  obtain hborn | hborn := born_cases p t signal <;> rw [hborn] at hworkers hnext
  · exact ⟨0, _, hnext, hworkers⟩
  · exact ⟨1, _, hnext, hworkers⟩

/-- Whatever a task comes to, the workers after it are some of those before it and new ones. -/
theorem runFor_passes (start : Nat → Except String ω) (fuel : Nat) {p : Pool ω} {t : Pool.Task ω}
    (hnone : t.promised = []) :
    Passes (p.idleIds ++ t.workers) p.nextId
      ((runFor start fuel p t).2.idleIds ++ (leased (.inl (runFor start fuel p t).1)).map Handle.id)
      (runFor start fuel p t).2.nextId := by
  induction fuel generalizing p t with
  | zero =>
    refine ⟨0, t.workers, rfl, ?_⟩
    simp [runFor, leased]
  | succ fuel ih =>
    have hstep := step_passes p hnone (signalAlone start t)
    have hpromised := (moves_step p t (signalAlone start t)).promised hnone
    rw [runFor]
    generalize p.step t (signalAlone start t) = m at hstep hpromised
    obtain ⟨q, a | t', notice⟩ := m
    · simpa [idleIds, remaining] using hstep
    · refine Passes.trans ?_ (ih (hpromised t' List.mem_cons_self))
      simpa [idleIds, leased, remaining] using hstep

end Pool
end RecordService
