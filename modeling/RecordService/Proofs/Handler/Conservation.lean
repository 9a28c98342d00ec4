import Mathlib.Algebra.GroupWithZero.Nat
import Mathlib.Algebra.Order.Group.Nat
import Mathlib.Algebra.Order.BigOperators.Group.List
import Mathlib.Data.List.Perm.Basic
import Mathlib.Data.List.Nodup
import RecordService.Proofs.Handler.Moves

/-! # No slot and no worker of a pool is lost

Each slot that is taken is that of an idle worker, of a lease, or of a task that has it for a worker that starts or for
one on its way back (`Conserved`). Each worker is in one place only, and one that is ended is in none (`workers_step`):
its number is not given again. -/

namespace RecordService

open Pool

variable {ω : Type}

namespace Pool

/-- The workers that the task stops later. -/
def After.rest : After ω → List (Handle ω)
  | .answer _ => []
  | .stop rest => rest

/-- A lease that comes with the answer. There is none, as a lease is answered with at once. -/
def After.promised : After ω → List (Handle ω)
  | .answer a => leased (.inl a)
  | .stop _ => []

namespace Task

/-- The slots that the task has for a worker that starts. -/
def starting : Pool.Task ω → Nat
  | .start _ | .await _ _ | .place _ _ | .lend _ => 1
  | _ => 0

/-- The slots of workers on their way back: no longer leased or idle, or never ready, and neither idle nor freed yet. -/
def returning : Pool.Task ω → Nat
  | .giveBack _ | .shelve _ | .discard _ => 1
  | .free next => 1 + next.rest.length
  | .announce next => next.rest.length
  | .stop rest => rest.length
  | _ => 0

/-- The ended leases that still count as busy. -/
def owing : Pool.Task ω → Nat
  | .giveBack _ | .discard _ => 1
  | _ => 0

/-- The workers that the task has and that are not ended. -/
def workers : Pool.Task ω → List Nat
  | .await _ id => [id]
  | .place _ h | .lend h | .giveBack h | .shelve h => [h.id]
  | .free next | .announce next => next.rest.map Handle.id
  | .stop rest => rest.map Handle.id
  | _ => []

def promised : Pool.Task ω → List (Handle ω)
  | .free next | .announce next => next.promised
  | _ => []

end Task

/-- The worker that a step starts. -/
def born (p : Pool ω) : Pool.Task ω → Signal ω → List Nat
  | .start _, .go => [p.nextId]
  | _, _ => []

/-- The worker that a step ends: it did not become ready, or the pool is closed. -/
def lost (p : Pool ω) : Pool.Task ω → Signal ω → List Nat
  | .await _ id, .broken _ | .await _ id, .abandoned => [id]
  | .place _ h, .go | .shelve h, .go => if p.closed then [h.id] else []
  | .stop (h :: _), .go => [h.id]
  | _, _ => []

variable {p : Pool ω} {t : Pool.Task ω} {signal : Signal ω} {m : Move ω}

theorem Moves.promised (h : Moves p t signal m) (hnone : t.promised = []) :
    ∀ t' ∈ remaining m.next, t'.promised = [] := by
  cases h
  case stays => simpa [goOn, remaining] using hnone
  case freed => simpa [goOn, remaining, Task.promised] using hnone
  all_goals simp [goOn, answer, remaining, Task.promised, After.promised, leased]

theorem leased_of_announce {a : Answer ω} (h : (Task.announce (.answer a)).promised = []) :
    leased (.inl a : Answer ω ⊕ Pool.Task ω) = [] :=
  h

/-- The slots that a step takes or frees are those that the idle workers, the client and its task have more or less. -/
theorem Moves.live (h : Moves p t signal m) (hnone : t.promised = []) (hheld : t.returning ≤ p.live) :
    m.pool.live + p.idle.length + (t.starting + t.returning) =
      p.live + m.pool.idle.length + (leased m.next).length +
        ((remaining m.next).map fun t => t.starting + t.returning).sum := by
  cases h
  case announced => simp only [leased_of_announce hnone, remaining, Task.starting, Task.returning, After.rest]; rfl
  all_goals
    simp only [goOn, answer, leased, remaining, Task.starting, Task.returning, After.rest, List.map_cons, List.map_nil,
      List.sum_cons, List.sum_nil, List.length_cons, List.length_nil, *] at hheld ⊢
  all_goals omega

theorem Moves.busy (h : Moves p t signal m) (hnone : t.promised = []) (howed : t.owing ≤ p.busy) :
    m.pool.busy + t.owing = p.busy + (leased m.next).length + ((remaining m.next).map Task.owing).sum := by
  cases h
  case announced => simp only [leased_of_announce hnone, remaining, Task.owing]; rfl
  all_goals
    simp only [goOn, answer, leased, remaining, Task.owing, List.map_cons, List.map_nil, List.sum_cons, List.sum_nil,
      List.length_cons, List.length_nil] at howed ⊢
  all_goals omega

theorem Moves.bounded (h : Moves p t signal m) (hlive : p.live ≤ p.size) :
    m.pool.live ≤ m.pool.size ∧ m.pool.size = p.size := by
  cases h <;> refine ⟨?_, rfl⟩ <;> dsimp only [goOn, answer] <;> omega

theorem Moves.idle_eq_nil (h : Moves p t signal m) (hidle : p.closed = true → p.idle = []) (hclosed : m.pool.closed = true) :
    m.pool.idle = [] := by
  cases h <;> simp_all [goOn, answer]

theorem born_eq_nil (h : t.heeds signal = false) : born p t signal = [] := by
  unfold born
  split
  · cases h
  · rfl

theorem born_cases (p : Pool ω) (t : Pool.Task ω) (signal : Signal ω) :
    born p t signal = [] ∨ born p t signal = [p.nextId] := by
  unfold born
  split
  · exact .inr rfl
  · exact .inl rfl

theorem lost_eq_nil (h : t.heeds signal = false) : lost p t signal = [] := by
  unfold lost
  split
  all_goals first | cases h | rfl

/-- The workers after a step and those it ends are those before it and the one it starts. -/
theorem Moves.workers (h : Moves p t signal m) (hnone : t.promised = []) :
    ((m.pool.idle ++ leased m.next).map Handle.id ++ (remaining m.next).flatMap Task.workers ++ lost p t signal).Perm
      (p.idle.map Handle.id ++ t.workers ++ born p t signal) := by
  -- how often each number occurs, as a step moves workers between the lists
  rw [List.perm_iff_count]
  intro n
  cases h
  case stays hheeds => simp [born_eq_nil hheeds, lost_eq_nil hheeds, goOn, leased, remaining]
  case announced => simp [leased_of_announce hnone, remaining, Task.workers, lost, born, After.rest]
  all_goals
    simp only [goOn, answer, leased, remaining, List.flatMap_cons, List.flatMap_nil, Task.workers, lost, born,
      After.rest, *]
    simp [List.count_cons]

theorem Moves.nextId (h : Moves p t signal m) : m.pool.nextId = p.nextId + (born p t signal).length := by
  cases h
  case stays hheeds => rw [born_eq_nil hheeds]; rfl
  all_goals rfl

end Pool
namespace PoolUse

variable {u v : PoolUse ω}

/-- The slots for workers that start. -/
def starting (u : PoolUse ω) : Nat :=
  (u.tasks.map Task.starting).sum

/-- The slots of workers on their way back. -/
def returning (u : PoolUse ω) : Nat :=
  (u.tasks.map Task.returning).sum

def owing (u : PoolUse ω) : Nat :=
  (u.tasks.map Task.owing).sum

/-- The workers that are idle or leased. -/
def atHand (u : PoolUse ω) : List Nat :=
  (u.pool.idle ++ u.leases).map Handle.id

/-- The workers that are not ended. -/
def workers (u : PoolUse ω) : List Nat :=
  u.atHand ++ u.tasks.flatMap Task.workers

/-- The worker that an act ends: its lease is killed or dropped, it did not become ready, or the pool is closed. -/
def lost (u : PoolUse ω) : PoolAct ω → List Nat
  | .kill place => (u.leases[place]?.map Handle.id).toList
  | .go place signal => (u.clients[place]?.map fun c => Pool.lost u.pool c.task signal).getD []
  | _ => []

/-- The slots that are taken and the leases that count as busy are accounted for. -/
structure Conserved (u : PoolUse ω) : Prop where
  promised : ∀ t ∈ u.tasks, t.promised = []
  live : u.pool.live = u.pool.idle.length + u.leases.length + (u.starting + u.returning)
  busy : u.pool.busy = u.leases.length + u.owing
  bounded : u.pool.live ≤ u.pool.size
  idle : u.pool.closed = true → u.pool.idle = []

theorem starting_add_returning (u : PoolUse ω) :
    u.starting + u.returning = (u.tasks.map fun t => t.starting + t.returning).sum :=
  (List.sum_map_add ..).symm

theorem Conserved.start (size stock : Nat) : (start size stock : PoolUse ω).Conserved where
  promised := fun _ h => nomatch h
  live := rfl
  busy := rfl
  bounded := Nat.zero_le _
  idle := fun h => nomatch h

/-- A task that begins has the slots of the leases that it ends. -/
theorem Conserved.join (h : u.Conserved) {t : Pool.Task ω} {ended : Nat} (hpool : v.pool = u.pool)
    (hleases : u.leases.length = ended + v.leases.length) (htasks : v.tasks = u.tasks ++ [t]) (hnone : t.promised = [])
    (hslots : t.starting + t.returning = ended) (howing : t.owing = ended) : v.Conserved := by
  have hlive := h.live
  have hbusy := h.busy
  rw [starting_add_returning] at hlive
  rw [owing] at hbusy
  refine ⟨?_, ?_, ?_, hpool ▸ h.bounded, hpool ▸ h.idle⟩
  · rw [htasks, List.forall_mem_append, List.forall_mem_singleton]
    exact ⟨h.promised, hnone⟩
  · rw [starting_add_returning, hpool, htasks, List.map_append, List.sum_append, List.map_singleton, List.sum_singleton,
      hslots]
    omega
  · rw [owing, hpool, htasks, List.map_append, List.sum_append, List.map_singleton, List.sum_singleton, howing]
    omega

/-- A task that takes a step has the slots that it had, less or more those that the step frees or takes. -/
theorem Conserved.move (h : u.Conserved) {t : Pool.Task ω} {signal : Signal ω} {rest : List (Pool.Task ω)}
    (hrest : u.tasks.Perm (t :: rest)) (hpool : v.pool = (u.pool.step t signal).pool)
    (hleases : v.leases = u.leases ++ leased (u.pool.step t signal).next)
    (htasks : v.tasks = rest ++ remaining (u.pool.step t signal).next) : v.Conserved := by
  have hmove := Pool.moves_step u.pool t signal
  have hnone : t.promised = [] := h.promised t (hrest.symm.subset List.mem_cons_self)
  have hlive := h.live
  have hbusy := h.busy
  rw [starting_add_returning, (hrest.map _).sum_eq, List.map_cons, List.sum_cons] at hlive
  rw [owing, (hrest.map _).sum_eq, List.map_cons, List.sum_cons] at hbusy
  -- the task's own slots are among those that are taken, so that none is freed twice
  have hlive' := hmove.live hnone (by omega)
  have hbusy' := hmove.busy hnone (by omega)
  refine ⟨?_, ?_, ?_, hpool ▸ (hmove.bounded h.bounded).1, hpool ▸ hmove.idle_eq_nil h.idle⟩
  · rw [htasks, List.forall_mem_append]
    exact ⟨fun t ht => h.promised t (hrest.symm.subset (List.mem_cons_of_mem _ ht)), hmove.promised hnone⟩
  · rw [starting_add_returning, hpool, hleases, htasks, List.map_append, List.sum_append, List.length_append]
    omega
  · rw [owing, hpool, hleases, htasks, List.map_append, List.sum_append, List.length_append]
    omega

theorem Conserved.step (h : u.Conserved) (a : PoolAct ω) : (u.step a).Conserved := by
  have hmoves := u.moves_step a
  generalize u.step a = v at hmoves
  cases hmoves with
  | stays _ hpool hleases htasks =>
    refine ⟨fun t ht => h.promised t (htasks.subset ht), ?_, ?_, hpool ▸ h.bounded, hpool ▸ h.idle⟩
    · rw [starting, returning, hpool, hleases, (htasks.map _).sum_eq, (htasks.map _).sum_eq]
      exact h.live
    · rw [owing, hpool, hleases, (htasks.map _).sum_eq]
      exact h.busy
  | arrives ha hpool hleases htasks =>
    have hlength := (congrArg List.length hleases).symm.trans (Nat.zero_add _).symm
    obtain ⟨rfl, rfl⟩ | ⟨rfl, rfl⟩ | ⟨rfl, rfl⟩ := ha <;> exact h.join hpool hlength htasks rfl rfl rfl
  | released hpool hleases htasks | killed _ hpool hleases htasks =>
    exact h.join hpool (hleases.length_eq.trans (Nat.add_comm _ 1)) htasks rfl rfl rfl
  | steps _ _ hrest hpool hleases htasks => exact h.move hrest hpool hleases htasks

theorem Conserved.run (h : u.Conserved) (acts : List (PoolAct ω)) : (u.run acts).Conserved :=
  run_induction (fun _ a h => h.step a) h acts

theorem lost_of_idles {a : PoolAct ω} (h : u.Idles a) : u.lost a = [] := by
  cases a with
  | kill place =>
    have hplace : u.leases[place]? = none := h
    rw [lost, hplace]
    rfl
  | go place signal =>
    cases hplace : u.clients[place]? with
    | none => rw [lost, hplace]; rfl
    | some c =>
      have hwait : c.task = .wait := h c hplace
      rw [lost, hplace, Option.map_some, Option.getD_some, hwait]
      rfl
  | _ => rfl

theorem lost_of_heeds {place : Nat} {signal heard : Signal ω} {c : PoolClient ω} (hplace : u.clients[place]? = some c)
    (hheard : c.task = .wait ∨ heard = signal) : u.lost (.go place signal) = Pool.lost u.pool c.task heard := by
  rw [lost, hplace, Option.map_some, Option.getD_some]
  obtain hwait | rfl := hheard
  · rw [hwait]
    rfl
  · rfl

/-- The workers after an act and the one it ends are those before it and the one it starts. -/
theorem Conserved.workers (h : u.Conserved) (a : PoolAct ω) :
    ∃ born : List Nat, (born = [] ∨ born = [u.pool.nextId]) ∧
      (u.step a).pool.nextId = u.pool.nextId + born.length ∧
      ((u.step a).workers ++ u.lost a).Perm (u.workers ++ born) := by
  have hmoves := u.moves_step a
  generalize u.step a = v at hmoves
  simp only [PoolUse.workers, atHand, List.perm_iff_count, List.map_append, List.count_append]
  cases hmoves with
  | stays hidles hpool hleases htasks =>
    refine ⟨[], .inl rfl, hpool ▸ rfl, fun n => ?_⟩
    rw [hpool, hleases, (htasks.flatMap_right _).count_eq, lost_of_idles hidles]
  | arrives ha hpool hleases htasks =>
    refine ⟨[], .inl rfl, hpool ▸ rfl, fun n => ?_⟩
    obtain ⟨rfl, rfl⟩ | ⟨rfl, rfl⟩ | ⟨rfl, rfl⟩ := ha <;>
      simp [hpool, hleases, htasks, lost, Task.workers]
  -- a worker given back or killed goes from the leases to the task that takes it on
  | released hpool hleases htasks =>
    refine ⟨[], .inl rfl, hpool ▸ rfl, fun n => ?_⟩
    have hcount := (hleases.map Handle.id).count_eq n
    simp only [List.map_cons, List.count_cons, beq_iff_eq] at hcount
    simp [hpool, htasks, lost, Task.workers, List.count_cons]
    omega
  | killed hplace hpool hleases htasks =>
    refine ⟨[], .inl rfl, hpool ▸ rfl, fun n => ?_⟩
    have hcount := (hleases.map Handle.id).count_eq n
    simp only [List.map_cons, List.count_cons, beq_iff_eq] at hcount
    simp [hpool, htasks, lost, hplace, Task.workers, List.count_cons]
    omega
  -- only a step of a task can start a worker, and the task it belongs to has none yet
  | @steps _ _ heard c rest _ hplace hheard hrest hpool hleases htasks =>
    have hmove := Pool.moves_step u.pool c.task heard
    have hnone : c.task.promised = [] := h.promised _ (hrest.symm.subset List.mem_cons_self)
    refine ⟨born u.pool c.task heard, born_cases _ _ _, hpool ▸ hmove.nextId, fun n => ?_⟩
    have hworkers := (hmove.workers hnone).count_eq n
    have htaken := (hrest.flatMap_right Task.workers).count_eq n
    simp only [List.map_append, List.count_append, List.flatMap_cons] at hworkers htaken
    rw [lost_of_heeds hplace hheard, hpool, hleases, htasks, List.map_append, List.flatMap_append, List.count_append,
      List.count_append]
    omega

/-- Each worker is in one place, and has a number that was given out. -/
structure Numbered (u : PoolUse ω) : Prop where
  nodup : u.workers.Nodup
  given : ∀ id ∈ u.workers, id < u.pool.nextId

theorem Numbered.start (size stock : Nat) : (start size stock : PoolUse ω).Numbered where
  nodup := .nil
  given := fun _ h => nomatch h

/-- A worker whose number was given out, and that is in no place. -/
def Gone (u : PoolUse ω) (id : Nat) : Prop :=
  id < u.pool.nextId ∧ id ∉ u.workers

theorem Gone.step {id : Nat} (h : u.Gone id) (hu : u.Conserved) (a : PoolAct ω) : (u.step a).Gone id := by
  obtain ⟨born, hborn, hnext, hworkers⟩ := hu.workers a
  obtain ⟨hgiven, hnot⟩ := h
  refine ⟨by omega, fun hmem => ?_⟩
  obtain hold | hnew := List.mem_append.mp (hworkers.subset (List.mem_append_left _ hmem))
  · exact hnot hold
  · obtain rfl | rfl := hborn
    · cases hnew
    · exact absurd (List.mem_singleton.mp hnew) (by omega)

theorem Gone.run {id : Nat} (h : u.Gone id) (hu : u.Conserved) (acts : List (PoolAct ω)) : (u.run acts).Gone id :=
  (run_induction (P := fun u => u.Conserved ∧ u.Gone id) (fun _ a h => ⟨h.1.step a, h.2.step h.1 a⟩) ⟨hu, h⟩ acts).2

theorem Numbered.step (h : u.Numbered) (hu : u.Conserved) (a : PoolAct ω) :
    (u.step a).Numbered ∧ ∀ id ∈ u.lost a, (u.step a).Gone id := by
  obtain ⟨born, hborn, hnext, hworkers⟩ := hu.workers a
  -- what is started takes the next number, so that no number comes twice
  have hgiven : ∀ id ∈ u.workers ++ born, id < (u.step a).pool.nextId := by
    intro id hid
    obtain hold | hnew := List.mem_append.mp hid
    · exact (h.given id hold).trans_le (by omega)
    · obtain rfl | rfl := hborn
      · cases hnew
      · rw [List.mem_singleton.mp hnew, hnext]
        exact Nat.lt_succ_self _
  have hnodup : (u.workers ++ born).Nodup := by
    obtain rfl | rfl := hborn
    · rw [List.append_nil]
      exact h.nodup
    · rw [List.nodup_append_comm, List.singleton_append, List.nodup_cons]
      exact ⟨fun hmem => absurd (h.given _ hmem) (Nat.lt_irrefl _), h.nodup⟩
  obtain ⟨hkept, -, hapart⟩ := List.nodup_append.mp (hworkers.symm.nodup hnodup)
  refine ⟨⟨hkept, fun id hid => hgiven id (hworkers.subset (List.mem_append_left _ hid))⟩, fun id hid => ⟨?_, ?_⟩⟩
  · exact hgiven id (hworkers.subset (List.mem_append_right _ hid))
  · exact fun hmem => hapart id hmem id hid rfl

theorem Numbered.run (h : u.Numbered) (hu : u.Conserved) (acts : List (PoolAct ω)) : (u.run acts).Numbered :=
  (run_induction (P := fun u => u.Conserved ∧ u.Numbered) (fun _ a h => ⟨h.1.step a, (h.2.step h.1 a).1⟩)
    ⟨hu, h⟩ acts).2

theorem step_size (u : PoolUse ω) (hu : u.Conserved) (a : PoolAct ω) : (u.step a).pool.size = u.pool.size := by
  have hmoves := u.moves_step a
  generalize u.step a = v at hmoves
  cases hmoves with
  | stays _ hpool | arrives _ hpool | released hpool | killed _ hpool => rw [hpool]
  | @steps _ _ heard c _ _ _ _ _ hpool =>
    rw [hpool]
    exact ((Pool.moves_step u.pool c.task heard).bounded hu.bounded).2

theorem run_size (u : PoolUse ω) (hu : u.Conserved) (acts : List (PoolAct ω)) :
    (u.run acts).pool.size = u.pool.size :=
  (run_induction (P := fun v => v.Conserved ∧ v.pool.size = u.pool.size)
    (fun v a h => ⟨h.1.step a, (step_size v h.1 a).trans h.2⟩) ⟨hu, rfl⟩ acts).2

/-- A slot that is about to be freed is taken. -/
theorem Conserved.live_pos (h : u.Conserved) {c : PoolClient ω} (hc : c ∈ u.clients) {next : After ω}
    (hfree : c.task = .free next) : 0 < u.pool.live := by
  have hle : c.task.returning ≤ u.returning :=
    List.le_sum_of_mem (List.mem_map_of_mem (List.mem_map_of_mem hc))
  have hpos : 0 < c.task.returning := by
    rw [hfree]
    exact Nat.lt_add_right _ Nat.one_pos
  have := h.live
  omega

/-- A lease that is about to be taken off was counted as busy. -/
theorem Conserved.busy_pos (h : u.Conserved) {c : PoolClient ω} (hc : c ∈ u.clients)
    (howing : c.task.owing = 1) : 0 < u.pool.busy := by
  have hle : c.task.owing ≤ u.owing := List.le_sum_of_mem (List.mem_map_of_mem (List.mem_map_of_mem hc))
  have := h.busy
  omega

/-- Clients that wait have no slot and owe nothing. -/
theorem tasks_of_wait (hwait : ∀ c ∈ u.clients, c.task = .wait) :
    u.starting = 0 ∧ u.returning = 0 ∧ u.owing = 0 := by
  have htask : ∀ t ∈ u.tasks, t = .wait := by
    intro t ht
    obtain ⟨c, hc, rfl⟩ := List.mem_map.mp ht
    exact hwait c hc
  refine ⟨List.sum_eq_zero ?_, List.sum_eq_zero ?_, List.sum_eq_zero ?_⟩ <;>
    · rw [List.forall_mem_map]
      intro t ht
      rw [htask t ht]
      rfl

/-- Whatever the acts, each slot that is taken is that of an idle worker, of a lease, or of a task that starts a worker
or has one on its way back; no count falls below zero; no worker is in two places; one that is ended is neither idle nor
leased again; and a closed pool has no idle worker. -/
theorem run_accounted (size stock : Nat) (acts : List (PoolAct ω)) :
    let u := (start size stock : PoolUse ω).run acts
    (u.pool.live = u.pool.idle.length + u.leases.length + u.starting + u.returning ∧
      u.pool.live ≤ u.pool.size ∧ u.pool.size = max size 1) ∧
    (∀ c ∈ u.clients, (∀ next, c.task = .free next → 0 < u.pool.live) ∧
      (∀ h, c.task = .giveBack h ∨ c.task = .discard h → 0 < u.pool.busy)) ∧
    u.atHand.Nodup ∧
    (∀ a, ∀ id ∈ u.lost a, ∀ later, id ∉ ((u.step a).run later).atHand) ∧
    (u.pool.closed = true → u.pool.idle = []) ∧
    ((∀ c ∈ u.clients, c.task = .wait) →
      u.pool.busy = u.leases.length ∧ u.pool.live = u.pool.idle.length + u.leases.length) := by
  intro u
  have hu : u.Conserved := (Conserved.start size stock).run acts
  have hnumbered : u.Numbered := (Numbered.start size stock).run (.start size stock) acts
  refine ⟨⟨hu.live.trans (Nat.add_assoc _ _ _).symm, hu.bounded, ?_⟩, fun c hc => ⟨fun next => ?_, fun h howing => ?_⟩,
    ?_, fun a id hid later => ?_, hu.idle, fun hwait => ?_⟩
  · exact run_size _ (.start size stock) acts
  · exact hu.live_pos hc
  · refine hu.busy_pos hc ?_
    obtain htask | htask := howing <;> rw [htask] <;> rfl
  · exact (List.nodup_append.mp hnumbered.nodup).1
  · have hgone : (u.step a).Gone id := (hnumbered.step hu a).2 id hid
    exact fun hmem => (hgone.run (hu.step a) later).2 (List.mem_append_left _ hmem)
  · obtain ⟨hstarting, hreturning, howing⟩ := tasks_of_wait hwait
    have hlive := hu.live
    have hbusy := hu.busy
    omega

end PoolUse
end RecordService
