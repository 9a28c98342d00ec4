import Mathlib.Data.List.Perm.Basic
import Mathlib.Data.List.TakeWhile
import RecordService.Handler.PoolUse

/-! # The steps of a pool in use

What a task can do in one step, and what an act of a pool in use does to the pool, the leases and the tasks. What is
known of a pool after any acts rests on these two lists of cases. -/

namespace RecordService

open Pool

variable {ω : Type}

namespace Pool

/-- Whether the task waits for the signal. -/
def Task.heeds : Pool.Task ω → Signal ω → Bool
  | .wait, .woken | .wait, .late | .wait, .abandoned => true
  | .await _ _, .ready _ | .await _ _, .broken _ | .await _ _, .abandoned => true
  | .wait, _ | .await _ _, _ => false
  | _, .go => true
  | _, _ => false

/-- The steps of a task. -/
inductive Moves (p : Pool ω) : Pool.Task ω → Signal ω → Move ω → Prop
  | stays {t : Pool.Task ω} {signal : Signal ω} (hheeds : t.heeds signal = false) : Moves p t signal (p.goOn t)
  | refused (hclosed : p.closed = true) : Moves p .look .go (p.answer (.failed .poolClosed))
  | taken {h : Handle ω} {rest : List (Handle ω)} (hclosed : p.closed = false) (hidle : p.idle = h :: rest) :
      Moves p .look .go ({ p with idle := rest, busy := p.busy + 1 }.answer (.leased h))
  | missing (hclosed : p.closed = false) (hidle : p.idle = []) : Moves p .look .go (p.goOn .reserve)
  | reserved (hlive : p.live < p.size) : Moves p .reserve .go ({ p with live := p.live + 1 }.goOn (.start .lease))
  | full (hlive : p.size ≤ p.live) : Moves p .reserve .go (p.goOn .wait)
  | woken : Moves p .wait .woken (p.goOn .look)
  | late : Moves p .wait .late (p.answer (.failed .acquireTimeout))
  | left : Moves p .wait .abandoned (p.answer .finished)
  | understocked {started : Nat} : Moves p (.fill started) .go (p.goOn (.fillReserve started))
  | stocked {started : Nat} : Moves p (.fill started) .go (p.answer (.started started))
  | fillReserved {started : Nat} (hlive : p.live < p.size) :
      Moves p (.fillReserve started) .go ({ p with live := p.live + 1 }.goOn (.start (.stock started)))
  | fillFull {started : Nat} (hlive : p.size ≤ p.live) : Moves p (.fillReserve started) .go (p.answer (.started started))
  | starts {purpose : Purpose} :
      Moves p (.start purpose) .go ({ p with nextId := p.nextId + 1 }.goOn (.await purpose p.nextId))
  | ready {purpose : Purpose} {id : Nat} {worker : ω} :
      Moves p (.await purpose id) (.ready worker) (p.goOn (.place purpose ⟨id, worker⟩))
  | broken {purpose : Purpose} {id : Nat} {reason : String} :
      Moves p (.await purpose id) (.broken reason) (p.goOn (.free (.answer (.failed (.spawn reason)))))
  | abandoned {purpose : Purpose} {id : Nat} :
      Moves p (.await purpose id) .abandoned (p.goOn (.free (.answer .finished)))
  | unplaced {purpose : Purpose} {h : Handle ω} (hclosed : p.closed = true) :
      Moves p (.place purpose h) .go (p.goOn (.free (.answer (.failed .poolClosed))))
  | placed {h : Handle ω} (hclosed : p.closed = false) : Moves p (.place .lease h) .go (p.goOn (.lend h))
  | added {started : Nat} {h : Handle ω} (hclosed : p.closed = false) :
      Moves p (.place (.stock started) h) .go ({ p with idle := h :: p.idle }.goOn (.fill (started + 1)))
  | lent {h : Handle ω} : Moves p (.lend h) .go ({ p with busy := p.busy + 1 }.answer (.leased h))
  | givenBack {h : Handle ω} : Moves p (.giveBack h) .go ({ p with busy := p.busy - 1 }.goOn (.shelve h))
  | unshelved {h : Handle ω} (hclosed : p.closed = true) :
      Moves p (.shelve h) .go (p.goOn (.free (.answer .finished)))
  | shelved {h : Handle ω} (hclosed : p.closed = false) :
      Moves p (.shelve h) .go ({ p with idle := h :: p.idle }.goOn (.announce (.answer .finished)))
  | discarded {h : Handle ω} :
      Moves p (.discard h) .go ({ p with busy := p.busy - 1 }.goOn (.free (.answer .finished)))
  | freed {next : After ω} : Moves p (.free next) .go ({ p with live := p.live - 1 }.goOn (.announce next))
  | announced {a : Answer ω} : Moves p (.announce (.answer a)) .go ⟨p, .inl a, some .one⟩
  | announcedOn {rest : List (Handle ω)} : Moves p (.announce (.stop rest)) .go ⟨p, .inr (.stop rest), some .one⟩
  | closed : Moves p .close .go ({ p with closed := true, idle := [] }.goOn (.stop p.idle))
  | stopped {h : Handle ω} {rest : List (Handle ω)} : Moves p (.stop (h :: rest)) .go (p.goOn (.free (.stop rest)))
  | allStopped : Moves p (.stop []) .go ⟨p, .inl .finished, some .all⟩

theorem reserve?_eq_some {p q : Pool ω} (h : p.reserve? = some q) :
    p.live < p.size ∧ q = { p with live := p.live + 1 } := by
  unfold reserve? at h
  split at h
  · exact ⟨‹_›, (Option.some.inj h).symm⟩
  · cases h

theorem reserve?_eq_none {p : Pool ω} (h : p.reserve? = none) : p.size ≤ p.live := by
  unfold reserve? at h
  split at h
  · cases h
  · omega

theorem moves_step (p : Pool ω) (t : Pool.Task ω) (signal : Signal ω) : Moves p t signal (p.step t signal) := by
  dsimp only [step]
  split
  · by_cases hclosed : p.closed = true
    · rw [if_pos hclosed]
      exact .refused hclosed
    · rw [if_neg hclosed]
      split
      · exact .taken (eq_false_of_ne_true hclosed) ‹_›
      · exact .missing (eq_false_of_ne_true hclosed) ‹_›
  · split
    · obtain ⟨hlive, rfl⟩ := reserve?_eq_some ‹_›
      exact .reserved hlive
    · exact .full (reserve?_eq_none ‹_›)
  · exact .woken
  · exact .late
  · exact .left
  · split
    · exact .understocked
    · exact .stocked
  · split
    · obtain ⟨hlive, rfl⟩ := reserve?_eq_some ‹_›
      exact .fillReserved hlive
    · exact .fillFull (reserve?_eq_none ‹_›)
  · exact .starts
  · exact .ready
  · exact .broken
  · exact .abandoned
  · by_cases hclosed : p.closed = true
    · rw [if_pos hclosed]
      exact .unplaced hclosed
    · rw [if_neg hclosed]
      split
      · exact .placed (eq_false_of_ne_true hclosed)
      · exact .added (eq_false_of_ne_true hclosed)
  · exact .lent
  · exact .givenBack
  · by_cases hclosed : p.closed = true
    · rw [if_pos hclosed]
      exact .unshelved hclosed
    · rw [if_neg hclosed]
      exact .shelved (eq_false_of_ne_true hclosed)
  · exact .discarded
  · exact .freed
  · exact .announced
  · exact .announcedOn
  · exact .closed
  · exact .stopped
  · exact .allStopped
  · refine .stays ?_
    cases t with
    | announce next => cases next <;> cases signal <;> first | rfl | simp_all
    | stop rest => cases rest <;> cases signal <;> first | rfl | simp_all
    | _ => cases signal <;> first | rfl | simp_all

/-- What is leased to a client that goes on so. -/
def leased : Answer ω ⊕ Pool.Task ω → List (Handle ω)
  | .inl (.leased h) => [h]
  | _ => []

/-- What a client that goes on so is to do. -/
def remaining : Answer ω ⊕ Pool.Task ω → List (Pool.Task ω)
  | .inl _ => []
  | .inr t => [t]

end Pool

theorem PoolClient.goOn_task (c : PoolClient ω) (t : Pool.Task ω) : (c.goOn t).task = t := by
  cases t <;> rfl

namespace PoolUse

variable {u : PoolUse ω}

def tasks (u : PoolUse ω) : List (Pool.Task ω) :=
  u.clients.map PoolClient.task

/-! ### Words change neither the pool, the leases nor the tasks -/

/-- A word for one reaches the client that is parked longest, or is stored. -/
theorem tell_cases (u : PoolUse ω) :
    (∃ before c later, u.clients = before ++ c :: later ∧ c.attention = .parked ∧
      u.tell = { u with clients := before ++ { c with attention := .told .one } :: later }) ∨
    (∀ c ∈ u.clients, c.attention ≠ .parked) ∧ u.tell = { u.miss (u.stored && u.short) with stored := true } := by
  have happend := List.takeWhile_append_dropWhile (p := (!PoolClient.isParked ·)) (l := u.clients)
  cases hdrop : u.clients.dropWhile (!·.isParked) with
  | cons c later =>
    have hparked := List.head_dropWhile_not (!PoolClient.isParked ·) (hdrop ▸ List.cons_ne_nil c later)
    simp only [hdrop, List.head_cons] at hparked
    refine .inl ⟨u.clients.takeWhile (!·.isParked), c, later, ?_, ?_, ?_⟩
    · rw [← hdrop, happend]
    · simpa [PoolClient.isParked] using hparked
    · unfold tell
      rw [hdrop]
  | nil =>
    refine .inr ⟨fun c hc hparked => ?_, ?_⟩
    · rw [List.dropWhile_eq_nil_iff] at hdrop
      have := hdrop c hc
      simp [PoolClient.isParked, hparked] at this
    · unfold tell
      rw [hdrop]

@[simp]
theorem tell_pool : u.tell.pool = u.pool := by
  obtain ⟨_, _, _, _, _, h⟩ | ⟨_, h⟩ := u.tell_cases <;> exact h ▸ rfl

@[simp]
theorem tell_leases : u.tell.leases = u.leases := by
  obtain ⟨_, _, _, _, _, h⟩ | ⟨_, h⟩ := u.tell_cases <;> exact h ▸ rfl

@[simp]
theorem tell_tasks : u.tell.tasks = u.tasks := by
  obtain ⟨before, c, later, hclients, _, h⟩ | ⟨_, h⟩ := u.tell_cases
  · rw [h, tasks, tasks, hclients]
    simp
  · rw [h]
    rfl

@[simp]
theorem tellAll_tasks : u.tellAll.tasks = u.tasks := by
  unfold tellAll tasks
  rw [List.map_map]
  refine List.map_congr_left fun c _ => ?_
  unfold Function.comp PoolClient.hear
  split <;> rfl

@[simp]
theorem spread_pool (word : Option Notice) : (u.spread word).pool = u.pool := by
  obtain _ | _ | _ := word
  · rfl
  · exact tell_pool
  · rfl

@[simp]
theorem spread_leases (word : Option Notice) : (u.spread word).leases = u.leases := by
  obtain _ | _ | _ := word
  · rfl
  · exact tell_leases
  · rfl

@[simp]
theorem spread_tasks (word : Option Notice) : (u.spread word).tasks = u.tasks := by
  obtain _ | _ | _ := word
  · rfl
  · exact tell_tasks
  · exact tellAll_tasks

theorem join_tasks (c : PoolClient ω) : (u.join c).tasks = u.tasks ++ [c.task] :=
  List.map_append

/-! ### What an act does -/

section
variable (u : PoolUse ω) (c : PoolClient ω) (next : Answer ω ⊕ Pool.Task ω)

@[simp]
theorem goOn_pool : (u.goOn c next).pool = u.pool := by
  obtain (_ | _ | _ | _) | _ := next <;> rfl

@[simp]
theorem goOn_stored : (u.goOn c next).stored = u.stored := by
  obtain (_ | _ | _ | _) | _ := next <;> rfl

@[simp]
theorem goOn_missed : (u.goOn c next).missed = u.missed := by
  obtain (_ | _ | _ | _) | _ := next <;> rfl

theorem goOn_leases : (u.goOn c next).leases = u.leases ++ leased next := by
  obtain (_ | _ | _ | _) | _ := next
  · rfl
  all_goals exact (List.append_nil _).symm

theorem goOn_clients : (u.goOn c next).clients = u.clients ++ (remaining next).map c.goOn := by
  obtain (_ | _ | _ | _) | _ := next
  case inr => rfl
  all_goals exact (List.append_nil _).symm

end

/-! ### What a client does -/

section
variable (u : PoolUse ω) (c : PoolClient ω) (signal : Signal ω)

theorem advance_pool : (u.advance c signal).pool = (u.pool.step c.task signal).pool :=
  goOn_pool _ c _

theorem advance_leases : (u.advance c signal).leases = u.leases ++ leased (u.pool.step c.task signal).next :=
  goOn_leases _ c _

theorem advance_clients :
    (u.advance c signal).clients = u.clients ++ (remaining (u.pool.step c.task signal).next).map c.goOn :=
  goOn_clients _ c _

theorem advance_stored : (u.advance c signal).stored = u.stored :=
  goOn_stored _ c _

theorem advance_missed :
    (u.advance c signal).missed = u.missed + (silent u.pool c.task signal && u.short).toNat :=
  goOn_missed _ c _

theorem advance_tasks : (u.advance c signal).tasks = u.tasks ++ remaining (u.pool.step c.task signal).next := by
  rw [tasks, advance_clients, List.map_append, List.map_map,
    show PoolClient.task ∘ c.goOn = id from funext c.goOn_task, List.map_id]
  rfl

end

/-- The next step of a client on a signal. -/
inductive Polls (u : PoolUse ω) (place : Nat) : PoolClient ω → Signal ω → PoolUse ω → Prop
  | stays {attention : Attention} {signal : Signal ω} : Polls u place ⟨.wait, attention⟩ signal u
  | parks (hstored : u.stored = false) : Polls u place ⟨.wait, .on⟩ .go ((u.withoutClient place).join ⟨.wait, .parked⟩)
  | takes (hstored : u.stored = true) :
      Polls u place ⟨.wait, .on⟩ .go ({ u.withoutClient place with stored := false }.act ⟨.wait, .on⟩ .woken)
  | wakes {word : Notice} :
      Polls u place ⟨.wait, .told word⟩ .go ((u.withoutClient place).act ⟨.wait, .told word⟩ .woken)
  | passes {signal : Signal ω} (hsignal : signal = .late ∨ signal = .abandoned) :
      Polls u place ⟨.wait, .told .one⟩ signal ((u.withoutClient place).act ⟨.wait, .told .one⟩ signal).tell
  | leaves {attention : Attention} {signal : Signal ω} (hsignal : signal = .late ∨ signal = .abandoned)
      (htold : attention ≠ .told .one) :
      Polls u place ⟨.wait, attention⟩ signal ((u.withoutClient place).act ⟨.wait, attention⟩ signal)
  | steps {c : PoolClient ω} {signal : Signal ω} (hwait : c.task ≠ .wait) :
      Polls u place c signal ((u.withoutClient place).act c signal)

theorem polls_poll (u : PoolUse ω) (place : Nat) (c : PoolClient ω) (signal : Signal ω) :
    u.Polls place c signal (u.poll place c signal) := by
  dsimp only [poll]
  split
  · by_cases hstored : u.stored = true
    · rw [if_pos hstored]
      exact .takes hstored
    · rw [if_neg hstored]
      exact .parks (eq_false_of_ne_true hstored)
  · exact .wakes
  · exact .passes (.inl rfl)
  · exact .passes (.inr rfl)
  · rename_i htold
    exact .leaves (.inl rfl) fun h => htold (by rw [h])
  · rename_i htold
    exact .leaves (.inr rfl) fun h => htold (by rw [h])
  · exact .stays
  · rename_i hwait _ _ _ _ _ _
    exact .steps fun h => hwait c.attention (by rw [← h])

/-- An act for which no lease is there, and no client that is not waiting. -/
def Idles (u : PoolUse ω) : PoolAct ω → Prop
  | .release place _ | .kill place => u.leases[place]? = none
  | .go place _ => ∀ c, u.clients[place]? = some c → c.task = .wait
  | _ => False

/-- What an act does to the pool, the leases and the tasks. -/
inductive Moves (u : PoolUse ω) : PoolAct ω → PoolUse ω → Prop
  | stays {a : PoolAct ω} {v : PoolUse ω} (hidles : u.Idles a) (hpool : v.pool = u.pool) (hleases : v.leases = u.leases)
      (htasks : v.tasks.Perm u.tasks) : Moves u a v
  | arrives {a : PoolAct ω} {v : PoolUse ω} {t : Pool.Task ω}
      (ha : a = .acquire ∧ t = .look ∨ a = .prewarm ∧ t = .fill 0 ∨ a = .shutdown ∧ t = .close)
      (hpool : v.pool = u.pool) (hleases : v.leases = u.leases) (htasks : v.tasks = u.tasks ++ [t]) : Moves u a v
  | released {place : Nat} {worker : ω} {h : Handle ω} {v : PoolUse ω} (hpool : v.pool = u.pool)
      (hleases : u.leases.Perm (h :: v.leases)) (htasks : v.tasks = u.tasks ++ [.giveBack ⟨h.id, worker⟩]) :
      Moves u (.release place worker) v
  | killed {place : Nat} {h : Handle ω} {v : PoolUse ω} (hplace : u.leases[place]? = some h) (hpool : v.pool = u.pool)
      (hleases : u.leases.Perm (h :: v.leases)) (htasks : v.tasks = u.tasks ++ [.discard h]) :
      Moves u (.kill place) v
  | steps {place : Nat} {signal heard : Signal ω} {c : PoolClient ω} {rest : List (Pool.Task ω)} {v : PoolUse ω}
      (hplace : u.clients[place]? = some c) (hheard : c.task = .wait ∨ heard = signal)
      (hrest : u.tasks.Perm (c.task :: rest)) (hpool : v.pool = (u.pool.step c.task heard).pool)
      (hleases : v.leases = u.leases ++ leased (u.pool.step c.task heard).next)
      (htasks : v.tasks = rest ++ remaining (u.pool.step c.task heard).next) :
      Moves u (.go place signal) v

theorem perm_of_getElem? {α : Type} {l : List α} {place : Nat} {x : α} (h : l[place]? = some x) :
    l.Perm (x :: l.eraseIdx place) := by
  obtain ⟨hplace, rfl⟩ := List.getElem?_eq_some_iff.mp h
  exact (List.getElem_cons_eraseIdx_perm hplace).symm

/-- A word makes no difference. -/
theorem Moves.tell {a : PoolAct ω} {v : PoolUse ω} (h : Moves u a v) : Moves u a v.tell := by
  cases h with
  | stays hidles hpool hleases htasks => exact .stays hidles (by simpa) (by simpa) (by simpa)
  | arrives ht hpool hleases htasks => exact .arrives ht (by simpa) (by simpa) (by simpa)
  | released hpool hleases htasks => exact .released (by simpa) (by simpa) (by simpa)
  | killed hplace hpool hleases htasks => exact .killed hplace (by simpa) (by simpa) (by simpa)
  | steps hplace hheard hrest hpool hleases htasks =>
    exact .steps hplace hheard hrest (by simpa) (by simpa) (by simpa)

theorem idles_of_wait {place : Nat} {signal : Signal ω} {attention : Attention}
    (hplace : u.clients[place]? = some ⟨.wait, attention⟩) : u.Idles (.go place signal) := by
  intro c hc
  obtain rfl := Option.some.inj (hplace.symm.trans hc)
  rfl

/-- A client takes a step of its task, whether or not a stored word was taken before. -/
theorem moves_act {place : Nat} {signal heard : Signal ω} {c : PoolClient ω} (hplace : u.clients[place]? = some c)
    (hheard : c.task = .wait ∨ heard = signal) (others : PoolUse ω) (hpool : others.pool = u.pool)
    (hleases : others.leases = u.leases) (hclients : others.clients = (u.withoutClient place).clients) :
    Moves u (.go place signal) (others.act c heard) := by
  have hrest : u.tasks.Perm (c.task :: others.tasks) := by
    rw [tasks.eq_1 others, hclients]
    exact (perm_of_getElem? hplace).map PoolClient.task
  refine .steps hplace hheard hrest ?_ ?_ ?_ <;> rw [act]
  · rw [spread_pool, advance_pool, hpool]
  · rw [spread_leases, advance_leases, hpool, hleases]
  · rw [spread_tasks, advance_tasks, hpool]

theorem Polls.moves {place : Nat} {c : PoolClient ω} {signal : Signal ω} {v : PoolUse ω} (h : u.Polls place c signal v)
    (hplace : u.clients[place]? = some c) : Moves u (.go place signal) v := by
  cases h with
  | stays => exact .stays (idles_of_wait hplace) rfl rfl (.refl _)
  | parks =>
    refine .stays (idles_of_wait hplace) rfl rfl ?_
    have hperm := (perm_of_getElem? hplace).map PoolClient.task
    rw [join_tasks]
    exact (List.perm_append_singleton _ _).trans hperm.symm
  | takes => exact moves_act hplace (.inl rfl) _ rfl rfl rfl
  | wakes => exact moves_act hplace (.inl rfl) _ rfl rfl rfl
  | passes =>
    have h : Moves u (.go place signal) ((u.withoutClient place).act ⟨.wait, .told .one⟩ signal) :=
      moves_act hplace (.inl rfl) _ rfl rfl rfl
    exact h.tell
  | leaves => exact moves_act hplace (.inl rfl) _ rfl rfl rfl
  | steps => exact moves_act hplace (.inr rfl) _ rfl rfl rfl

theorem moves_step (u : PoolUse ω) (a : PoolAct ω) : Moves u a (u.step a) := by
  cases a with
  | acquire => exact .arrives (.inl ⟨rfl, rfl⟩) rfl rfl (join_tasks _)
  | prewarm => exact .arrives (.inr (.inl ⟨rfl, rfl⟩)) rfl rfl (join_tasks _)
  | shutdown => exact .arrives (.inr (.inr ⟨rfl, rfl⟩)) rfl rfl (join_tasks _)
  | release place worker =>
    dsimp only [step]
    split
    · exact .released rfl (perm_of_getElem? ‹_›) (join_tasks _)
    · exact .stays ‹_› rfl rfl (.refl _)
  | kill place =>
    dsimp only [step]
    split
    · exact .killed ‹_› rfl (perm_of_getElem? ‹_›) (join_tasks _)
    · exact .stays ‹_› rfl rfl (.refl _)
  | go place signal =>
    dsimp only [step]
    split
    · exact (polls_poll u place _ signal).moves ‹_›
    · exact .stays (fun c hc => by simp_all) rfl rfl (.refl _)

/-- What every act keeps holds after a run. -/
theorem run_induction {P : PoolUse ω → Prop} (hstep : ∀ u a, P u → P (u.step a)) {u : PoolUse ω} (hu : P u)
    (acts : List (PoolAct ω)) : P (u.run acts) := by
  induction acts generalizing u with
  | nil => exact hu
  | cons a acts ih => exact ih (hstep u a hu)

end PoolUse
end RecordService
