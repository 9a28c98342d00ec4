import RecordService.Handler.Service
import RecordService.Proofs.Handler.Lines
import RecordService.Proofs.Handler.Moves

/-! # Host and workers in step

Whatever the acts and their order, each line that is leased is `Engaged` and each line in the pool is `Quiet`, so that
nothing of an execution is left on a line when the next one begins. -/

namespace RecordService

open Pool

namespace Pool

variable {ω : Type} {p : Pool ω} {t : Pool.Task ω} {signal : Signal ω} {m : Move ω}

/-- The workers that a task is about to pass on or to stop. -/
def After.handles : After ω → List (Handle ω)
  | .answer a => leased (.inl a)
  | .stop rest => rest

/-- The workers that a task has and that are not ended. -/
def Task.handles : Pool.Task ω → List (Handle ω)
  | .place _ h | .lend h | .giveBack h | .shelve h => [h]
  | .free next | .announce next => next.handles
  | .stop rest => rest
  | _ => []

/-- The workers after a step are among those before it, but for one that has become ready. -/
theorem Moves.handles (h : Moves p t signal m) :
    ∀ h' ∈ m.pool.idle ++ leased m.next ++ (remaining m.next).flatMap Task.handles,
      h' ∈ p.idle ++ t.handles ∨ t ≠ .wait ∧ signal = .ready h'.worker := by
  intro h' hmem
  cases h
  case stays => exact .inl (by simpa [goOn, leased, remaining] using hmem)
  case ready purpose id worker =>
    have hcases : h' ∈ p.idle ∨ h' = ⟨id, worker⟩ := by simpa [goOn, leased, remaining, Task.handles] using hmem
    exact hcases.imp (List.mem_append_left _) (by rintro rfl; exact ⟨nofun, rfl⟩)
  all_goals
    refine .inl ?_
    revert hmem
    simp [goOn, answer, leased, remaining, Task.handles, After.handles, *] <;> grind

end Pool

namespace PoolUse

variable {ω : Type} {u : PoolUse ω} {P Q : ω → Prop}

/-- The workers that the pool has: they are idle, or on their way to a lease or from one. -/
def resting (u : PoolUse ω) : List (Handle ω) :=
  u.pool.idle ++ u.tasks.flatMap Task.handles

/-- All workers that the pool has are so, and all that are leased are so. -/
structure Keeps (u : PoolUse ω) (P Q : ω → Prop) : Prop where
  kept : ∀ h ∈ u.resting, P h.worker
  lent : ∀ h ∈ u.leases, Q h.worker

/-- What an act brings into the pool. -/
def brought : PoolAct ω → List ω
  | .release _ worker => [worker]
  | .go _ (.ready worker) => [worker]
  | _ => []

theorem Keeps.start (size stock : Nat) : (start size stock : PoolUse ω).Keeps P Q :=
  ⟨List.forall_mem_nil _, List.forall_mem_nil _⟩

theorem Keeps.mono {v : PoolUse ω} (h : u.Keeps P Q) (hresting : ∀ h' ∈ v.resting, h' ∈ u.resting ∨ P h'.worker)
    (hleases : ∀ h' ∈ v.leases, h' ∈ u.leases ∨ Q h'.worker) : v.Keeps P Q where
  kept h' hmem := (hresting h' hmem).elim (h.kept h') id
  lent h' hmem := (hleases h' hmem).elim (h.lent h') id

/-- A pool passes on its workers as they are. -/
theorem Keeps.step (h : u.Keeps P Q) (hleased : ∀ w, P w → Q w) {a : PoolAct ω} (hbrought : ∀ w ∈ brought a, P w) :
    (u.step a).Keeps P Q := by
  have hmoves := u.moves_step a
  generalize u.step a = v at hmoves
  cases hmoves with
  | stays _ hpool hleases htasks =>
    refine h.mono (fun h' hmem => .inl ?_) fun h' hmem => .inl (hleases ▸ hmem)
    rw [resting, hpool] at hmem
    exact ((htasks.flatMap_right Task.handles).append_left _).subset hmem
  | @arrives _ _ t ha hpool hleases htasks =>
    have hnone : t.handles = [] := by
      obtain ⟨-, rfl⟩ | ⟨-, rfl⟩ | ⟨-, rfl⟩ := ha <;> rfl
    refine h.mono (fun h' hmem => .inl ?_) fun h' hmem => .inl (hleases ▸ hmem)
    simpa [resting, hpool, htasks, hnone] using hmem
  | @released _ worker old _ hpool hleases htasks =>
    refine h.mono (fun h' hmem => ?_) fun h' hmem => .inl (hleases.symm.subset (List.mem_cons_of_mem _ hmem))
    have hcases : h' ∈ u.resting ∨ h' = ⟨old.id, worker⟩ := by
      simpa [resting, hpool, htasks, Task.handles, or_assoc] using hmem
    refine hcases.imp_right ?_
    rintro rfl
    exact hbrought worker List.mem_cons_self
  | killed _ hpool hleases htasks =>
    refine h.mono (fun h' hmem => .inl ?_) fun h' hmem => .inl (hleases.symm.subset (List.mem_cons_of_mem _ hmem))
    simpa [resting, hpool, htasks, Task.handles] using hmem
  | @steps _ _ heard c rest _ hplace hheard hrest hpool hleases htasks =>
    have hhandles := (Pool.moves_step u.pool c.task heard).handles
    have hresting : u.resting.Perm (u.pool.idle ++ (c.task.handles ++ rest.flatMap Task.handles)) :=
      (hrest.flatMap_right Task.handles).append_left _
    -- what the step passes on was in the pool before, or has just become ready
    have hpassed : ∀ h' ∈ v.pool.idle ++ leased (u.pool.step c.task heard).next ++
        (remaining (u.pool.step c.task heard).next).flatMap Task.handles, P h'.worker := by
      intro h' hmem
      obtain hold | ⟨hwait, hready⟩ := hhandles h' (hpool ▸ hmem)
      · refine h.kept h' (hresting.symm.subset ?_)
        rw [← List.append_assoc]
        exact List.mem_append_left _ hold
      · obtain rfl := hheard.resolve_left hwait
        exact hbrought _ (hready ▸ List.mem_cons_self)
    simp only [List.mem_append] at hpassed
    refine h.mono (fun h' hmem => ?_) fun h' hmem => ?_
    · simp only [resting, htasks, List.flatMap_append, List.mem_append] at hmem
      obtain hidle | hother | hnext := hmem
      · exact .inr (hpassed h' (.inl (.inl hidle)))
      · exact .inl (hresting.symm.subset (List.mem_append_right _ (List.mem_append_right _ hother)))
      · exact .inr (hpassed h' (.inr hnext))
    · obtain hold | hnew := List.mem_append.mp (hleases ▸ hmem)
      · exact .inl hold
      · exact .inr (hleased _ (hpassed h' (.inl (.inr hnew))))

end PoolUse

theorem forall_mem_modify {α : Type} {P : α → Prop} {l : List α} {f : α → α} (hl : ∀ x ∈ l, P x)
    (hf : ∀ x ∈ l, P (f x)) (place : Nat) : ∀ x ∈ l.modify place f, P x := by
  intro x hx
  obtain ⟨i, hi⟩ := List.mem_iff_getElem?.mp hx
  rw [List.getElem?_modify] at hi
  obtain ⟨y, hy, rfl⟩ := Option.map_eq_some_iff.mp hi
  have hmem : y ∈ l := List.mem_of_getElem? hy
  split
  · exact hf y hmem
  · exact hl y hmem

namespace Service

variable {σ : Type} {evaluate : Interpreter σ} {s : Service σ}

/-- The workers in the pool are quiet, those that are leased are engaged, and no execution met a message of another. -/
structure InStep (s : Service σ) : Prop where
  use : s.use.Keeps Line.Quiet Line.Engaged
  left : ∀ l ∈ s.left, l.Abandoned
  results : ∀ r ∈ s.results, r.1.Proper r.2

theorem InStep.start (size stock : Nat) : (start size stock : Service σ).InStep :=
  ⟨.start size stock, List.forall_mem_nil _, List.forall_mem_nil _⟩

/-- An act of the pool that brings in no worker, or one that is quiet. -/
theorem InStep.usePool (h : s.InStep) {a : PoolAct (Line σ)} (hbrought : ∀ l ∈ PoolUse.brought a, l.Quiet) :
    InStep { s with use := s.use.step a } :=
  ⟨h.use.step (fun _ => Line.Quiet.engaged) hbrought, h.left, h.results⟩

/-- A worker that has been greeted is quiet. -/
theorem quiet_of_signalTo {c : PoolClient (Line σ)} {signal : Signal UInt32} {l : Line σ}
    (h : signalTo c signal = .ready l) : l.Quiet := by
  cases signal with
  | ready process =>
    obtain rfl := Signal.ready.inj h
    exact ⟨rfl, rfl, rfl, rfl, rfl⟩
  | _ => cases h

theorem InStep.settle (h : s.InStep) (place : Nat) {fate : Fate σ} (hfate : Line.Sound fate) :
    (s.settle place fate).InStep := by
  -- a worker that is not given back is killed before it is left
  have hkill : InStep { s with use := s.use.step (.kill place) } := h.usePool (List.forall_mem_nil _)
  cases fate with
  | goes l =>
    have hengaged : l.Engaged := hfate
    have hlent : ∀ lease ∈ s.use.leases.modify place fun lease => { lease with worker := l }, lease.worker.Engaged :=
      forall_mem_modify (P := fun lease : Handle (Line σ) => lease.worker.Engaged) h.use.lent (fun _ _ => hengaged) place
    exact ⟨⟨h.use.kept, hlent⟩, h.left, h.results⟩
  | ends x result l =>
    obtain ⟨hquiet, hproper⟩ := hfate
    have hrelease : InStep { s with use := s.use.step (.release place l) } :=
      h.usePool (List.forall_mem_singleton.mpr hquiet)
    have hresults : ∀ r ∈ s.results ++ [(x, result)], r.1.Proper r.2 :=
      List.forall_mem_append.mpr ⟨h.results, List.forall_mem_singleton.mpr hproper⟩
    exact ⟨hrelease.use, h.left, hresults⟩
  | breaks x e l =>
    obtain ⟨hengaged, hproper⟩ := hfate
    have hleft := List.forall_mem_append.mpr ⟨h.left, List.forall_mem_singleton.mpr (.inl hengaged)⟩
    have hresults : ∀ r ∈ s.results ++ [(x, .error e)], r.1.Proper r.2 :=
      List.forall_mem_append.mpr ⟨h.results, List.forall_mem_singleton.mpr hproper⟩
    exact ⟨hkill.use, hleft, hresults⟩
  | drops l =>
    have hleft := List.forall_mem_append.mpr ⟨h.left, List.forall_mem_singleton.mpr (.inl hfate)⟩
    exact ⟨hkill.use, hleft, h.results⟩

theorem InStep.step (h : s.InStep) (a : ServiceAct σ) : (s.step evaluate a).InStep := by
  cases a with
  | acquire => exact h.usePool (List.forall_mem_nil _)
  | prewarm => exact h.usePool (List.forall_mem_nil _)
  | shutdown => exact h.usePool (List.forall_mem_nil _)
  | client place signal =>
    rw [Service.step]
    split
    · next c _ =>
      refine h.usePool fun l hl => ?_
      -- only a worker that gets ready comes into the pool with the signal, and it has nothing to do yet
      cases hsignal : signalTo c signal with
      | ready l' =>
        rw [hsignal] at hl
        obtain rfl := List.mem_singleton.mp hl
        exact quiet_of_signalTo hsignal
      | _ => rw [hsignal] at hl; cases hl
    · exact h
  | order place script context timeout limits =>
    rw [Service.step]
    split
    · next leased hleased =>
      split
      · next hfree =>
        have hengaged := h.use.lent leased (List.mem_of_getElem? hleased)
        have hquiet : leased.worker.Quiet := hengaged.quiet (Desk.execution?_of_isFree hfree)
        have hnext : InStep { s with nextExecution := s.nextExecution + 1 } := ⟨h.use, h.left, h.results⟩
        exact hnext.settle place (hquiet.order _ script limits)
      · exact h
    · exact h
  | host place a =>
    rw [Service.step]
    split
    · next leased hleased => exact h.settle place ((h.use.lent leased (List.mem_of_getElem? hleased)).act a)
    · exact h
  | work place a =>
    rw [Service.step]
    split
    · next leased hleased =>
      have hengaged := h.use.lent leased (List.mem_of_getElem? hleased)
      exact h.settle place (show Line.Sound (.goes _) from hengaged.work a)
    · exact h
  -- an idle worker has nothing to do, and its turn changes nothing
  | workIdle place a =>
    obtain ⟨hidle, htasks⟩ := List.forall_mem_append.mp h.use.kept
    have hwork : ∀ h ∈ s.use.pool.idle.modify place fun h => { h with worker := h.worker.work evaluate a },
        h.worker.Quiet :=
      forall_mem_modify hidle (fun h hmem => ((hidle h hmem).work a).symm ▸ hidle h hmem) place
    exact ⟨⟨List.forall_mem_append.mpr ⟨hwork, htasks⟩, h.use.lent⟩, h.left, h.results⟩
  | workAlone place a =>
    exact ⟨h.use, forall_mem_modify h.left (fun l hl => (h.left l hl).workAlone a) place, h.results⟩

theorem InStep.run (h : s.InStep) (acts : List (ServiceAct σ)) : (s.run evaluate acts).InStep := by
  induction acts generalizing s with
  | nil => exact h
  | cons a acts ih => exact ih (h.step a)

/-- The lines of all workers that were started and are not ended. -/
def lines (s : Service σ) : List (Line σ) :=
  (s.use.resting ++ s.use.leases).map Handle.worker ++ s.left

/-- Whatever the scripts do and the calls are answered, whenever the time of an execution is over or its client goes away,
and in whatever order things happen: on no line is more than one call under way, and a script that waits gets the result
of its call; a worker that was released, and any that the pool has, waits for a script and has nothing under way; on a
leased line there is nothing but what belongs to the execution; and no execution is broken off for a message that is not
part of it. -/
theorem run_inStep (evaluate : Interpreter σ) (size stock : Nat) (acts : List (ServiceAct σ)) :
    let s := (start size stock).run evaluate acts
    (∀ l ∈ s.lines, l.openCalls ≤ 1 ∧ ∀ execution call next, l.worker = .calling execution call next →
      ∀ m ∈ l.inbox, ∃ result error, m = .callResult execution call result error) ∧
    (∀ h ∈ s.use.resting, h.worker.Quiet) ∧
    (∀ h ∈ s.use.leases,
      match h.worker.desk.execution? with
      | none => h.worker.Quiet
      | some x => (∀ m ∈ h.worker.inbox, m.execution? = some x.number) ∧
        ∀ m ∈ h.worker.saying.toList ++ h.worker.outbox, m.execution? = some x.number) ∧
    ∀ r ∈ s.results, ∀ m, r.2 ≠ .error (r.1.unexpected m) := by
  intro s
  have h : s.InStep := (InStep.start size stock).run acts
  refine ⟨fun l hl => ?_, h.use.kept, fun lease hlease => ?_, fun r hr m => (h.results r hr).ne_unexpected m⟩
  · have habandoned : l.Abandoned := by
      obtain hheld | hleft := List.mem_append.mp hl
      · obtain ⟨lease, hlease, rfl⟩ := List.mem_map.mp hheld
        obtain hresting | hleased := List.mem_append.mp hlease
        · exact .inl (h.use.kept lease hresting).engaged
        · exact .inl (h.use.lent lease hleased)
      · exact h.left l hleft
    exact ⟨habandoned.openCalls_le_one, fun _ _ _ => habandoned.inbox_of_calling⟩
  · have hengaged := h.use.lent lease hlease
    split
    · next hdesk => exact hengaged.quiet hdesk
    · next x hdesk => exact hengaged.execution hdesk

/-- A script that makes a call, from the request for a worker to the result. -/
example (path : String) (reply : Json) :
    (run (fun _ _ _ => .call path [] fun _ => .done reply) (start 1 0 : Service Unit)
      [.acquire, .client 0 .go, .client 0 .go, .client 0 .go, .client 0 (.ready 4711), .client 0 .go, .client 0 .go,
        .order 0 () .empty 5000 .standard, .work 0 .take, .work 0 .say, .host 0 .hear, .host 0 (.answer (.ok .null)),
        .work 0 .take, .work 0 .say, .host 0 .hear]).results = [(⟨1, 1, 5000, .empty⟩, .ok reply)] := by
  cbv

end Service
end RecordService
