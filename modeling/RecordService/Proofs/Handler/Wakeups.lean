import RecordService.Proofs.Handler.Conservation

/-! # Clients that are parked

While a pool is open and a client lacks something, each idle worker and each free slot is covered by a word on its way or
by a client that looks, apart from what was missed (`Covered`). So where every client is parked there is nothing that it
could have, if nothing was missed. -/

namespace RecordService

open Pool

variable {ω : Type}

namespace Pool

def After.stops : After ω → Bool
  | .answer _ => false
  | .stop _ => true

/-- Whether the task shuts the pool down and has closed it. -/
def Task.stops : Pool.Task ω → Bool
  | .stop _ => true
  | .free next | .announce next => next.stops
  | _ => false

/-- Whether the task acquires a worker and has neither a worker nor a slot. -/
def Task.acquires : Pool.Task ω → Bool
  | .look | .reserve | .wait => true
  | _ => false

/-- Whether the task looks for an idle worker or is about to tell another. -/
def Task.alert : Pool.Task ω → Bool
  | .look | .announce _ => true
  | _ => false

/-- Whether the task is to take a slot for a lease. -/
def Task.reserves : Pool.Task ω → Bool
  | .reserve => true
  | _ => false

/-- How many clients a notice to one tells. -/
def words : Option Notice → Nat
  | some .one => 1
  | _ => 0

variable {p : Pool ω} {t t' : Pool.Task ω} {signal : Signal ω} {m : Move ω}

theorem Moves.stays_closed (h : Moves p t signal m) (hclosed : p.closed = true) : m.pool.closed = true := by
  cases h
  case closed => rfl
  all_goals exact hclosed

/-- Where a task that acquires a worker or shuts the pool down comes from. -/
theorem Moves.origin (h : Moves p t signal m) (hwait : t ≠ .wait) (ht' : t' ∈ remaining m.next) :
    (t'.acquires = true → t.acquires = true) ∧
      (t' = .reserve ∨ t' = .wait → t = .reserve ∨ m.pool.closed = false) ∧
      (t'.stops = true → t.stops = true ∨ m.pool.closed = true) := by
  cases h <;> simp [remaining, goOn, answer] at ht' <;> subst ht' <;>
    simp_all [Task.acquires, Task.stops, After.stops, goOn]

/-- A task that shuts the pool down goes on with that until it tells all. -/
theorem Moves.stops (h : Moves p t signal m) (hstops : t.stops = true) :
    (∃ t' ∈ remaining m.next, t'.stops = true) ∨ m.notice = some .all := by
  cases h <;> simp_all [Task.stops, After.stops, remaining, goOn]

theorem Moves.closes (h : Moves p t signal m) (hopen : p.closed = false) (hclosed : m.pool.closed = true) :
    ∃ t' ∈ remaining m.next, t'.stops = true := by
  cases h <;> simp_all [Task.stops, After.stops, remaining, goOn, answer]

theorem Moves.tellsAll (h : Moves p t signal m) (hall : m.notice = some .all) : t.stops = true := by
  cases h <;> simp_all [Task.stops, goOn, answer]

/-! ### What becomes idle or free is told -/

/-- A worker that becomes idle is told of, or silently added; a task that has looked has taken the last one or found
none. -/
theorem Moves.idle_le (h : Moves p t signal m) (hwait : t ≠ .wait) (hopen : m.pool.closed = false) :
    m.pool.idle = [] ∨
      (remaining m.next).countP Task.reserves ≤ (if t.reserves then 1 else 0) ∧
      m.pool.idle.length + (if t.alert then 1 else 0) ≤
        p.idle.length + (remaining m.next).countP Task.alert + words m.notice + (silent p t signal).toNat := by
  cases h <;>
    simp [goOn, answer, remaining, words, silent, Task.alert, Task.reserves, List.countP_cons, *] at hwait hopen ⊢

/-- A slot that becomes free is told of; a task that was to take one has done so or found none. -/
theorem Moves.slots_le (h : Moves p t signal m) (hwait : t ≠ .wait) (hopen : m.pool.closed = false) :
    .wait ∉ remaining m.next ∧
      m.pool.idle.length + m.pool.size + p.live + (if t.alert then 1 else 0) + (if t.reserves then 1 else 0) ≤
        p.idle.length + p.size + m.pool.live + (remaining m.next).countP Task.alert +
          (remaining m.next).countP Task.reserves + words m.notice + (silent p t signal).toNat ∨
    t = .reserve ∧ remaining m.next = [.wait] ∧ m.pool = p ∧ p.size ≤ p.live := by
  cases h
  case stays =>
    refine .inl ⟨fun hmem => hwait (List.mem_singleton.mp hmem).symm, ?_⟩
    simp only [goOn, remaining, List.countP_singleton]
    omega
  all_goals
    simp [goOn, answer, remaining, words, silent, Task.alert, Task.reserves, List.countP_cons, *] at hwait hopen ⊢
  all_goals omega

theorem Moves.of_silent (h : Moves p t signal m) (hsilent : silent p t signal = true) :
    (remaining m.next).countP Task.reserves = 0 := by
  cases h
  case stays hheeds =>
    unfold silent at hsilent
    split at hsilent
    · cases hheeds
    · cases hsilent
  all_goals simp [goOn, remaining, silent, Task.reserves] at hsilent ⊢

end Pool

namespace PoolClient

/-- Whether the client looks for an idle worker, was told to, or is about to tell another. -/
def alert : PoolClient ω → Bool
  | ⟨.wait, .told _⟩ => true
  | c => c.task.alert

/-- What the attention of a client says about its task and about the pool. -/
structure Proper (closed : Bool) (c : PoolClient ω) : Prop where
  parked : c.attention = .parked → c.task = .wait
  told : c.attention = .told .all → closed = true
  listens : c.task.acquires = true → c.attention ≠ .off
  stops : c.task.stops = true → closed = true

theorem Proper.mono {c : PoolClient ω} {closed closed' : Bool} (h : c.Proper closed)
    (hclosed : closed = true → closed' = true) : c.Proper closed' :=
  ⟨h.parked, fun htold => hclosed (h.told htold), h.listens, fun hstops => hclosed (h.stops hstops)⟩

theorem Proper.toldOne {c : PoolClient ω} {closed : Bool} (h : c.Proper closed) :
    Proper closed { c with attention := .told .one } :=
  ⟨nofun, nofun, nofun, h.stops⟩

theorem hear_task (c : PoolClient ω) : c.hear.task = c.task := by
  unfold hear
  split <;> rfl

theorem Proper.hear {c : PoolClient ω} {closed : Bool} (h : c.Proper closed) (hclosed : closed = true) :
    c.hear.Proper closed := by
  unfold PoolClient.hear
  split
  · exact ⟨nofun, fun _ => hclosed, nofun, h.stops⟩
  · exact ⟨nofun, fun _ => hclosed, nofun, h.stops⟩
  · exact h

theorem hear_ne_parked (c : PoolClient ω) : c.hear.attention ≠ .parked := by
  unfold hear
  split <;> simp_all

/-- A client that listens has heard what is told to all. -/
theorem hear_told {c : PoolClient ω} (h : c.attention ≠ .off) : ∃ word, c.hear.attention = .told word := by
  unfold hear
  obtain ⟨task, _ | _ | _ | word⟩ := c
  · exact absurd rfl h
  · exact ⟨_, rfl⟩
  · exact ⟨_, rfl⟩
  · exact ⟨word, rfl⟩

/-- Whether the client would look or be parked next. -/
def Settles (c : PoolClient ω) : Prop :=
  c.task = .reserve ∨ c.task = .wait → ∃ word, c.attention = .told word

theorem goOn_eq {c : PoolClient ω} {t : Pool.Task ω} (h : t ≠ .look) : c.goOn t = { c with task := t } := by
  cases t with
  | look => exact absurd rfl h
  | _ => rfl

/-- A client that takes a step of its task stays proper. -/
theorem Proper.goOn {p : Pool ω} {c : PoolClient ω} {signal : Signal ω} {m : Move ω} {t : Pool.Task ω}
    (h : c.Proper p.closed) (hmove : p.Moves c.task signal m) (hwait : c.task ≠ .wait) (ht : t ∈ remaining m.next) :
    (c.goOn t).Proper m.pool.closed ∧ (c.goOn t).attention ≠ .parked := by
  obtain ⟨hacquires, -, hstops⟩ := hmove.origin hwait ht
  by_cases hlook : t = .look
  · subst hlook
    exact ⟨⟨nofun, nofun, nofun, nofun⟩, nofun⟩
  · have hparked : c.attention ≠ .parked := fun hparked => hwait (h.parked hparked)
    rw [goOn_eq hlook]
    refine ⟨⟨fun hp => absurd hp hparked, fun htold => hmove.stays_closed (h.told htold), fun hc => ?_, fun hc => ?_⟩,
      hparked⟩
    · exact h.listens (hacquires hc)
    · exact (hstops hc).elim (fun hc => hmove.stays_closed (h.stops hc)) id

/-- In a closed pool a client that has settled stays so. -/
theorem Settles.goOn {p : Pool ω} {c : PoolClient ω} {signal : Signal ω} {m : Move ω} {t : Pool.Task ω}
    (h : c.Settles) (hmove : p.Moves c.task signal m) (hwait : c.task ≠ .wait) (ht : t ∈ remaining m.next)
    (hclosed : m.pool.closed = true) : (c.goOn t).Settles := by
  intro htask
  rw [goOn_task] at htask
  rw [goOn_eq (by rintro rfl; simp at htask)]
  obtain hc | hopen := (hmove.origin hwait ht).2.1 htask
  · exact h (.inl hc)
  · exact absurd (hopen.symm.trans hclosed) nofun

/-- A client that comes in. -/
structure Entrant (c : PoolClient ω) : Prop where
  proper : ∀ closed, c.Proper closed
  parked : c.attention ≠ .parked
  settles : c.Settles
  lacks : c.lacks = false

theorem Entrant.look : (PoolClient.mk .look .on : PoolClient ω).Entrant where
  proper := fun _ => ⟨nofun, nofun, nofun, nofun⟩
  parked := nofun
  settles := by rintro (h | h) <;> cases h
  lacks := rfl

theorem Entrant.off {t : Pool.Task ω} (hacquires : t.acquires = false) (hstops : t.stops = false) :
    (PoolClient.mk t .off : PoolClient ω).Entrant where
  proper := fun _ =>
    ⟨nofun, nofun, fun h => absurd (hacquires.symm.trans h) nofun, fun h => absurd (hstops.symm.trans h) nofun⟩
  parked := nofun
  settles := by
    rintro (h | h)
    · obtain rfl : t = .reserve := h
      cases hacquires
    · obtain rfl : t = .wait := h
      cases hacquires
  lacks := by cases t <;> first | rfl | cases hacquires

end PoolClient

namespace PoolUse

variable {u v o : PoolUse ω}

/-- What is known of the attention of all clients. After the pool is closed a client shuts it down, until all have been
told that look for a worker. -/
structure Proper (u : PoolUse ω) : Prop where
  clients : ∀ c ∈ u.clients, c.Proper u.pool.closed
  stored : u.stored = true → ∀ c ∈ u.clients, c.attention ≠ .parked
  ending : u.pool.closed = true → (∃ t ∈ u.tasks, t.stops = true) ∨ ∀ c ∈ u.clients, c.Settles

theorem Proper.start (size stock : Nat) : (start size stock : PoolUse ω).Proper where
  clients := fun _ h => nomatch h
  stored := nofun
  ending := nofun

theorem Proper.of_perm (h : u.Proper) (hclients : u.clients.Perm v.clients) (hpool : v.pool = u.pool)
    (hstored : v.stored = u.stored) : v.Proper := by
  have htasks : u.tasks.Perm v.tasks := hclients.map _
  obtain ⟨h₁, h₂, h₃⟩ := h
  constructor <;> simpa only [hpool, hstored, ← hclients.mem_iff, ← htasks.mem_iff]

theorem mem_tell {d : PoolClient ω} (h : d ∈ u.tell.clients) :
    d ∈ u.clients ∨ ∃ c ∈ u.clients, d = { c with attention := .told .one } := by
  obtain ⟨before, c, later, hclients, -, htell⟩ | ⟨_, htell⟩ := u.tell_cases
  · rw [htell] at h
    rw [hclients]
    simp only [List.mem_append, List.mem_cons] at h ⊢
    obtain h | rfl | h := h
    · exact .inl (.inl h)
    · exact .inr ⟨c, .inr (.inl rfl), rfl⟩
    · exact .inl (.inr (.inr h))
  · rw [htell] at h
    exact .inl h

theorem Proper.tell (h : u.Proper) : u.tell.Proper := by
  refine ⟨fun d hd => ?_, fun hstored d hd => ?_, fun hclosed => ?_⟩
  · rw [tell_pool]
    obtain hd | ⟨c, hc, rfl⟩ := mem_tell hd
    · exact h.clients d hd
    · exact (h.clients c hc).toldOne
  · obtain hd | ⟨c, hc, rfl⟩ := mem_tell hd
    · obtain ⟨_, _, _, _, _, htell⟩ | ⟨hparked, _⟩ := u.tell_cases
      · rw [htell] at hstored
        exact h.stored hstored d hd
      · exact hparked d hd
    · exact nofun
  · rw [tell_pool] at hclosed
    rw [tell_tasks]
    refine (h.ending hclosed).imp_right fun hsettles d hd => ?_
    obtain hd | ⟨c, hc, rfl⟩ := mem_tell hd
    · exact hsettles d hd
    · exact fun _ => ⟨.one, rfl⟩

/-- After all have been told, those who listened have settled. -/
theorem Proper.tellAll (hclients : ∀ c ∈ u.clients, c.Proper u.pool.closed) (hclosed : u.pool.closed = true) :
    u.tellAll.Proper := by
  unfold PoolUse.tellAll
  refine ⟨?_, ?_, fun _ => .inr ?_⟩ <;> simp only [List.forall_mem_map]
  · exact fun c hc => (hclients c hc).hear hclosed
  · exact fun _ c _ => c.hear_ne_parked
  · intro c hc htask
    rw [c.hear_task] at htask
    exact PoolClient.hear_told ((hclients c hc).listens (by obtain h | h := htask <;> rw [h] <;> rfl))

section
variable {c : PoolClient ω} {signal : Signal ω}

/-- The clients after a client that does not wait has taken a step, before any word. -/
theorem Proper.advance_clients (h : (o.join c).Proper) (hwait : c.task ≠ .wait) :
    ∀ d ∈ (o.advance c signal).clients, d.Proper (o.advance c signal).pool.closed := by
  have hmove := Pool.moves_step o.pool c.task signal
  have hproper := h.clients
  simp only [join, List.forall_mem_append, List.forall_mem_singleton] at hproper
  rw [advance_pool, PoolUse.advance_clients, List.forall_mem_append, List.forall_mem_map]
  exact ⟨fun d hd => (hproper.1 d hd).mono hmove.stays_closed, fun t ht => (hproper.2.goOn hmove hwait ht).1⟩

theorem Proper.advance (h : (o.join c).Proper) (hwait : c.task ≠ .wait)
    (hnotice : (o.pool.step c.task signal).notice ≠ some .all) : (o.advance c signal).Proper := by
  have hmove := Pool.moves_step o.pool c.task signal
  refine ⟨h.advance_clients hwait, ?_, ?_⟩
  · have hparked := h.stored
    have hproper := h.clients
    simp only [join, List.forall_mem_append, List.forall_mem_singleton] at hparked hproper
    simp only [advance_stored, PoolUse.advance_clients, List.forall_mem_append, List.forall_mem_map]
    exact fun hs => ⟨(hparked hs).1, fun t ht => (hproper.2.goOn hmove hwait ht).2⟩
  · rw [advance_pool, advance_tasks, PoolUse.advance_clients]
    intro hclosed
    -- the pool was closed before, or is closed by this step, whose task then stops the workers
    by_cases hopen : o.pool.closed = true
    · obtain ⟨t, ht, hstops⟩ | hsettles := h.ending hopen
      · rw [join_tasks, List.mem_append, List.mem_singleton] at ht
        obtain ht | rfl := ht
        · exact .inl ⟨t, List.mem_append_left _ ht, hstops⟩
        · obtain ⟨t, ht, hstops⟩ := (hmove.stops hstops).resolve_right hnotice
          exact .inl ⟨t, List.mem_append_right _ ht, hstops⟩
      · simp only [join, List.forall_mem_append, List.forall_mem_singleton] at hsettles
        refine .inr ?_
        rw [List.forall_mem_append, List.forall_mem_map]
        exact ⟨hsettles.1, fun t ht => hsettles.2.goOn hmove hwait ht hclosed⟩
    · obtain ⟨t, ht, hstops⟩ := hmove.closes (eq_false_of_ne_true hopen) hclosed
      exact .inl ⟨t, List.mem_append_right _ ht, hstops⟩

/-- A client that does not wait takes a step. -/
theorem Proper.act (h : (o.join c).Proper) (hwait : c.task ≠ .wait) : (o.act c signal).Proper := by
  have hmove := Pool.moves_step o.pool c.task signal
  rw [PoolUse.act]
  cases hnotice : (o.pool.step c.task signal).notice with
  | none => exact h.advance hwait (by simp [hnotice])
  | some notice =>
    cases notice with
    | one => exact (h.advance hwait (by simp [hnotice])).tell
    | all =>
      refine Proper.tellAll (h.advance_clients hwait) ?_
      have hstops := (h.clients c (List.mem_append_right _ List.mem_cons_self)).stops (hmove.tellsAll hnotice)
      rw [advance_pool]
      exact hmove.stays_closed hstops

end

/-! ### What clients lack is covered -/

/-- Words on their way, and clients that look. -/
def underway (u : PoolUse ω) : Nat :=
  u.stored.toNat + u.clients.countP PoolClient.alert

/-- How many clients are to take a slot. -/
def reserving (u : PoolUse ω) : Nat :=
  u.clients.countP (·.task.reserves)

def lacking (u : PoolUse ω) : Nat :=
  u.clients.countP PoolClient.lacks

/-- In an open pool where more clients lack something than a stored word reaches, idle workers and free slots are
covered, some words being about to be told. -/
def Covered (u : PoolUse ω) (words : Nat) : Prop :=
  u.pool.closed = false →
    (u.stored.toNat < u.lacking → u.pool.idle.length ≤ words + u.underway + u.missed) ∧
    (u.stored.toNat + u.reserving < u.lacking →
      u.pool.idle.length + u.pool.size ≤ u.pool.live + words + u.underway + u.reserving + u.missed)

theorem Covered.start (size stock : Nat) : (start size stock : PoolUse ω).Covered 0 :=
  fun _ => ⟨nofun, nofun⟩

theorem Covered.of_perm {words : Nat} (h : u.Covered words) (hclients : u.clients.Perm v.clients) (hpool : v.pool = u.pool)
    (hstored : v.stored = u.stored) (hmissed : v.missed = u.missed) : v.Covered words := by
  simpa only [Covered, underway, reserving, lacking, hpool, hstored, hmissed, ← hclients.countP_eq] using h

/-- The word is taken by the client that is parked longest, or stored, or missed. -/
theorem Covered.tell (h : u.Covered 1) (hproper : u.Proper) : u.tell.Covered 0 := by
  intro hopen
  rw [tell_pool] at hopen
  have h := h hopen
  obtain ⟨before, ⟨task, attention⟩, later, hclients, hattention, htell⟩ | ⟨_, htell⟩ := u.tell_cases
  · obtain rfl : attention = .parked := hattention
    obtain rfl : task = .wait :=
      (hproper.clients _ (hclients ▸ List.mem_append_right _ List.mem_cons_self)).parked rfl
    simp only [underway, reserving, lacking, hclients, List.countP_append, List.countP_cons] at h
    rw [htell]
    simp only [underway, reserving, lacking, List.countP_append, List.countP_cons]
    simp [PoolClient.lacks, PoolClient.alert, Task.alert, Task.reserves] at h ⊢
    omega
  · rw [htell]
    -- a word that finds one stored comes to nothing, and is counted if more clients lack something than will look
    simp only [underway, reserving, lacking, miss, short] at h ⊢
    cases hstored : u.stored
    · simp only [hstored, Bool.toNat_false, Bool.toNat_true, Bool.false_and] at h ⊢
      omega
    · simp only [hstored, Bool.toNat_true, Bool.true_and] at h ⊢
      by_cases hlacks : 1 < u.clients.countP PoolClient.lacks
      · rw [decide_eq_true hlacks, Bool.toNat_true]
        omega
      · omega

section
variable {c : PoolClient ω} {signal : Signal ω}

theorem alert_of_ne (h : c.task ≠ .wait) : c.alert = c.task.alert := by
  unfold PoolClient.alert
  split
  · exact absurd rfl h
  · rfl

theorem lacks_of_ne (h : c.task ≠ .wait) : c.lacks = c.task.reserves := by
  obtain ⟨task, attention⟩ := c
  cases task with
  | wait => exact absurd rfl h
  | _ => rfl

theorem countP_goOn {ts : List (Pool.Task ω)} (hts : .wait ∉ ts) {p : PoolClient ω → Bool} {q : Pool.Task ω → Bool}
    (h : ∀ d : PoolClient ω, d.task ≠ .wait → p d = q d.task) : (ts.map c.goOn).countP p = ts.countP q := by
  rw [List.countP_map]
  refine List.countP_congr fun t ht => ?_
  rw [Function.comp_apply, h _ (by rw [c.goOn_task]; rintro rfl; exact hts ht), c.goOn_task]

/-- A step that makes a worker idle or frees a slot brings a word with it, or something is missed; one that finds nothing
leaves nothing that another word was about. -/
theorem Covered.advance (h : (o.join c).Covered 0) (hwait : c.task ≠ .wait) :
    (o.advance c signal).Covered (words (o.pool.step c.task signal).notice) := by
  intro hopen
  have hmove := Pool.moves_step o.pool c.task signal
  rw [advance_pool] at hopen
  have hbefore : o.pool.closed = false :=
    eq_false_of_ne_true fun hclosed => absurd ((hmove.stays_closed hclosed).symm.trans hopen) nofun
  have h := h hbefore
  simp only [join, underway, reserving, lacking, List.countP_append, List.countP_singleton, alert_of_ne hwait,
    lacks_of_ne hwait] at h
  simp only [underway, reserving, lacking, advance_pool, advance_clients, advance_stored, advance_missed,
    List.countP_append]
  have hidle := hmove.idle_le hwait hopen
  obtain ⟨hrest, hslots⟩ | ⟨htask, hrest, hpool, hfull⟩ := hmove.slots_le hwait hopen
  · rw [countP_goOn hrest fun d => alert_of_ne, countP_goOn hrest fun d => lacks_of_ne,
      countP_goOn hrest (p := (·.task.reserves)) fun d _ => rfl]
    -- A worker that is silently added is missed, or nobody lacks anything.
    have hmissed : (silent o.pool c.task signal).toNat ≤ (silent o.pool c.task signal && o.short).toNat ∨
        o.clients.countP PoolClient.lacks +
          (remaining (o.pool.step c.task signal).next).countP Task.reserves ≤ o.stored.toNat := by
      cases hsilent : silent o.pool c.task signal
      · exact .inl (Nat.zero_le _)
      · cases hshort : o.short
        · rw [short, decide_eq_false_iff_not, Nat.not_lt] at hshort
          exact .inr (by rwa [hmove.of_silent hsilent])
        · exact .inl (Nat.le_refl _)
    rcases hidle with hidle | hidle
    · rw [hidle, List.length_nil] at hslots ⊢
      omega
    · omega
  · obtain ⟨task, attention⟩ := c
    obtain rfl : task = .reserve := htask
    -- The client lacks a slot from now on, unless it was told meanwhile.
    have hone : (if (PoolClient.mk .wait attention : PoolClient ω).alert then 1 else 0) +
        (if (PoolClient.mk .wait attention : PoolClient ω).lacks then 1 else 0) = 1 := by
      cases attention <;> rfl
    rw [hrest, hpool]
    simp only [List.map_cons, List.map_nil, List.countP_singleton, PoolClient.goOn]
    simp [Task.alert, Task.reserves] at h ⊢
    omega

theorem Covered.act (h : (o.join c).Covered 0) (hproper : (o.join c).Proper) (hwait : c.task ≠ .wait) :
    (o.act c signal).Covered 0 := by
  have hadvance : (o.advance c signal).Covered (words (o.pool.step c.task signal).notice) := h.advance hwait
  rw [PoolUse.act]
  cases hnotice : (o.pool.step c.task signal).notice with
  | none => rwa [hnotice] at hadvance
  | some notice =>
    rw [hnotice] at hadvance
    cases notice with
    | one => exact hadvance.tell (hproper.advance hwait (by simp [hnotice]))
    | all =>
      have hmove := Pool.moves_step o.pool c.task signal
      have hstops := (hproper.clients c (List.mem_append_right _ List.mem_cons_self)).stops (hmove.tellsAll hnotice)
      intro hopen
      rw [spread_pool, advance_pool] at hopen
      cases (hmove.stays_closed hstops).symm.trans hopen

end

/-! ### Whatever the acts -/

section
variable {c : PoolClient ω} {attention : Attention}

theorem Proper.join (h : u.Proper) (hc : c.Entrant) : (u.join c).Proper := by
  obtain ⟨hproper, hparked, hsettles, -⟩ := hc
  refine ⟨?_, fun hstored => ?_, fun hclosed => ?_⟩
  · exact List.forall_mem_append.mpr ⟨h.clients, List.forall_mem_singleton.mpr (hproper _)⟩
  · exact List.forall_mem_append.mpr ⟨h.stored hstored, List.forall_mem_singleton.mpr hparked⟩
  · rw [join_tasks]
    refine (h.ending hclosed).imp ?_ fun hall => ?_
    · rintro ⟨t, ht, hstops⟩
      exact ⟨t, List.mem_append_left _ ht, hstops⟩
    · exact List.forall_mem_append.mpr ⟨hall, List.forall_mem_singleton.mpr hsettles⟩

/-- A client that does not shut the pool down may leave. -/
theorem Proper.leave (h : (o.join c).Proper) (hstops : c.task.stops = false) : o.Proper := by
  refine ⟨fun d hd => ?_, fun hstored d hd => ?_, fun hclosed => ?_⟩
  · exact h.clients d (List.mem_append_left _ hd)
  · exact h.stored hstored d (List.mem_append_left _ hd)
  · refine (h.ending hclosed).imp ?_ fun hall d hd => hall d (List.mem_append_left _ hd)
    rintro ⟨t, ht, ht'⟩
    rw [join_tasks, List.mem_append, List.mem_singleton] at ht
    obtain ht | rfl := ht
    · exact ⟨t, ht, ht'⟩
    · exact absurd (hstops.symm.trans ht') nofun

theorem act_woken (o : PoolUse ω) : o.act ⟨.wait, attention⟩ .woken = o.join ⟨.look, .on⟩ :=
  rfl

theorem act_leaves (o : PoolUse ω) {signal : Signal ω} (hsignal : signal = .late ∨ signal = .abandoned) :
    o.act ⟨.wait, attention⟩ signal = o := by
  obtain rfl | rfl := hsignal <;> rfl

/-- A client that waits becomes one that looks. -/
theorem Proper.wake (h : (o.join ⟨.wait, attention⟩).Proper) : (o.join ⟨.look, .on⟩).Proper :=
  (h.leave rfl).join .look

theorem Proper.park (h : (o.join ⟨.wait, .on⟩).Proper) (hstored : o.stored = false) :
    (o.join ⟨.wait, .parked⟩).Proper := by
  have hleave := h.leave rfl
  refine ⟨?_, fun hs => absurd (hstored.symm.trans hs) nofun, fun hclosed => ?_⟩
  · refine List.forall_mem_append.mpr ⟨hleave.clients, List.forall_mem_singleton.mpr ?_⟩
    exact ⟨fun _ => rfl, nofun, nofun, nofun⟩
  · obtain hstops | hall := h.ending hclosed
    · rw [join_tasks] at hstops ⊢
      exact .inl hstops
    · obtain ⟨word, hword⟩ := hall _ (List.mem_append_right _ List.mem_cons_self) (.inr rfl)
      cases hword

theorem Proper.poll {place : Nat} {signal : Signal ω} (h : u.Proper) (hplace : u.clients[place]? = some c) :
    (u.poll place c signal).Proper := by
  have hjoin : ((u.withoutClient place).join c).Proper := by
    refine h.of_perm ?_ rfl rfl
    exact (perm_of_getElem? hplace).trans (List.perm_append_singleton _ _).symm
  have hpolls := u.polls_poll place c signal
  generalize u.poll place c signal = v at hpolls
  cases hpolls with
  | stays => exact h
  | parks hstored => exact hjoin.park hstored
  | takes hstored =>
    rw [act_woken]
    have hwake := hjoin.wake
    exact ⟨hwake.clients, nofun, hwake.ending⟩
  | wakes => exact hjoin.wake
  | passes hsignal =>
    rw [act_leaves _ hsignal]
    exact (hjoin.leave rfl).tell
  | leaves hsignal =>
    rw [act_leaves _ hsignal]
    exact hjoin.leave rfl
  | steps hwait => exact hjoin.act hwait

/-- The cases of an act: a client enters, nothing happens, or a client takes its next step. -/
theorem step_cases (u : PoolUse ω) (a : PoolAct ω) :
    (∃ (c : PoolClient ω) (v : PoolUse ω), u.step a = v.join c ∧ c.Entrant ∧ v.clients = u.clients ∧
      v.pool = u.pool ∧ v.stored = u.stored ∧ v.missed = u.missed) ∨
    u.step a = u ∨ ∃ place c signal, u.clients[place]? = some c ∧ u.step a = u.poll place c signal := by
  cases a with
  | acquire => exact .inl ⟨_, u, rfl, .look, rfl, rfl, rfl, rfl⟩
  | prewarm => exact .inl ⟨_, u, rfl, .off rfl rfl, rfl, rfl, rfl, rfl⟩
  | shutdown => exact .inl ⟨_, u, rfl, .off rfl rfl, rfl, rfl, rfl, rfl⟩
  | release place worker =>
    dsimp only [step]
    split
    · exact .inl ⟨_, u.withoutLease place, rfl, .off rfl rfl, rfl, rfl, rfl, rfl⟩
    · exact .inr (.inl rfl)
  | kill place =>
    dsimp only [step]
    split
    · exact .inl ⟨_, u.withoutLease place, rfl, .off rfl rfl, rfl, rfl, rfl, rfl⟩
    · exact .inr (.inl rfl)
  | go place signal =>
    dsimp only [step]
    split
    · exact .inr (.inr ⟨place, _, signal, ‹_›, rfl⟩)
    · exact .inr (.inl rfl)

theorem Proper.step (h : u.Proper) (a : PoolAct ω) : (u.step a).Proper := by
  obtain ⟨c, v, hstep, hc, hclients, hpool, hstored, -⟩ | hstep | ⟨place, c, signal, hplace, hstep⟩ := u.step_cases a
  · rw [hstep]
    exact (h.of_perm (.of_eq hclients.symm) hpool hstored).join hc
  · rwa [hstep]
  · rw [hstep]
    exact h.poll hplace

theorem Covered.join {words : Nat} (h : u.Covered words) (hlacks : c.lacks = false) : (u.join c).Covered words := by
  intro hopen
  have h := h hopen
  have hreserves : c.task.reserves = false := by
    obtain ⟨task, attention⟩ := c
    cases task <;> first | rfl | cases hlacks
  simp only [underway, reserving, lacking, PoolUse.join, List.countP_append, List.countP_singleton, hlacks,
    hreserves] at h ⊢
  simp only [Bool.false_eq_true, if_false]
  omega

theorem Covered.leave (h : (o.join c).Covered 0) (hreserves : c.task.reserves = false) :
    o.Covered (if c.alert then 1 else 0) := by
  intro hopen
  have h := h hopen
  simp only [underway, reserving, lacking, PoolUse.join, List.countP_append, List.countP_singleton, hreserves,
    Bool.false_eq_true, if_false] at h ⊢
  omega

/-- A client that lacks and heeds as much as another may take its place. -/
theorem Covered.replace {d : PoolClient ω} {words : Nat} (h : (o.join c).Covered words) (hlacks : d.lacks = c.lacks)
    (halert : d.alert = c.alert) (hreserves : d.task.reserves = c.task.reserves) : (o.join d).Covered words := by
  simpa only [Covered, underway, reserving, lacking, PoolUse.join, List.countP_append, List.countP_singleton, hlacks,
    halert, hreserves] using h

/-- A stored word makes a client look that lacks something. -/
theorem Covered.take (h : (o.join ⟨.wait, .on⟩).Covered 0) (hstored : o.stored = true) :
    ({ o with stored := false }.join ⟨.look, .on⟩).Covered 0 := by
  intro hopen
  have h := h hopen
  simp only [underway, reserving, lacking, PoolUse.join, List.countP_append, List.countP_singleton, hstored,
    PoolClient.lacks, PoolClient.alert, Task.alert, Task.reserves, Bool.toNat_true, Bool.toNat_false, if_true,
    Bool.false_eq_true, if_false] at h ⊢
  omega

theorem Covered.poll {place : Nat} {signal : Signal ω} (h : u.Covered 0) (hproper : u.Proper)
    (hplace : u.clients[place]? = some c) : (u.poll place c signal).Covered 0 := by
  have hperm : u.clients.Perm ((u.withoutClient place).join c).clients :=
    (perm_of_getElem? hplace).trans (List.perm_append_singleton _ _).symm
  have hjoin : ((u.withoutClient place).join c).Covered 0 := h.of_perm hperm rfl rfl rfl
  have hproper : ((u.withoutClient place).join c).Proper := hproper.of_perm hperm rfl rfl
  have hpolls := u.polls_poll place c signal
  generalize u.poll place c signal = v at hpolls
  cases hpolls with
  | stays => exact h
  | parks => exact hjoin.replace rfl rfl rfl
  | takes hstored => exact hjoin.take hstored
  | wakes => exact hjoin.replace rfl rfl rfl
  | passes hsignal =>
    rw [act_leaves _ hsignal]
    exact (hjoin.leave rfl).tell (hproper.leave rfl)
  | @leaves attention _ hsignal htold =>
    rw [act_leaves _ hsignal]
    obtain _ | _ | _ | _ | _ := attention
    case told.one => exact absurd rfl htold
    case told.all =>
      -- only a pool that is closed tells all
      have hclosed := (hproper.clients _ (List.mem_append_right _ List.mem_cons_self)).told rfl
      exact fun hopen => absurd (hclosed.symm.trans hopen) nofun
    all_goals exact hjoin.leave rfl
  | steps hwait => exact hjoin.act hproper hwait

theorem Covered.step (h : u.Covered 0) (hproper : u.Proper) (a : PoolAct ω) : (u.step a).Covered 0 := by
  obtain ⟨c, v, hstep, hc, hclients, hpool, hstored, hmissed⟩ | hstep | ⟨place, c, signal, hplace, hstep⟩ :=
    u.step_cases a
  · rw [hstep]
    exact (h.of_perm (.of_eq hclients.symm) hpool hstored hmissed).join hc.lacks
  · rwa [hstep]
  · rw [hstep]
    exact h.poll hproper hplace

theorem Proper.run (h : u.Proper) (acts : List (PoolAct ω)) : (u.run acts).Proper :=
  run_induction (fun _ a h => h.step a) h acts

theorem Covered.run (h : u.Covered 0) (hproper : u.Proper) (acts : List (PoolAct ω)) : (u.run acts).Covered 0 :=
  (run_induction (P := fun u => u.Proper ∧ u.Covered 0) (fun _ a h => ⟨h.1.step a, h.2.step h.1 a⟩)
    ⟨hproper, h⟩ acts).2

end

/-- Whatever the acts, where every client is parked the pool is open, and there are no more idle workers and free slots
than were missed. -/
theorem run_parked (size stock : Nat) (acts : List (PoolAct ω))
    (hsome : ((start size stock : PoolUse ω).run acts).clients ≠ [])
    (hparked : ∀ c ∈ ((start size stock : PoolUse ω).run acts).clients, c = ⟨.wait, .parked⟩) :
    let u := (start size stock : PoolUse ω).run acts
    u.pool.closed = false ∧ u.pool.idle.length + (u.pool.size - u.pool.live) ≤ u.missed ∧
      (u.missed = 0 → u.pool.idle = [] ∧ u.pool.live = u.pool.size) := by
  intro u
  have hconserved : u.Conserved := (Conserved.start size stock).run acts
  have hproper : u.Proper := (Proper.start size stock).run acts
  have hcovered : u.Covered 0 := (Covered.start size stock).run (.start size stock) acts
  obtain ⟨c, hc⟩ := List.exists_mem_of_ne_nil _ hsome
  have hopen : u.pool.closed = false := by
    refine eq_false_of_ne_true fun hclosed => ?_
    -- in a closed pool someone is about to stop the workers, or everyone has heard of it
    obtain ⟨t, ht, hstops⟩ | hsettles := hproper.ending hclosed
    · obtain ⟨d, hd, rfl⟩ := List.mem_map.mp ht
      rw [hparked d hd] at hstops
      cases hstops
    · obtain ⟨word, hword⟩ := hsettles c hc (by rw [hparked c hc]; exact .inr rfl)
      rw [hparked c hc] at hword
      cases hword
  have hstored : u.stored = false :=
    eq_false_of_ne_true fun hstored => hproper.stored hstored c hc (by rw [hparked c hc])
  -- nobody has been told or is about to take a slot, and there is one who lacks a worker
  have hcounts : u.clients.countP PoolClient.alert = 0 ∧ u.reserving = 0 ∧ 0 < u.lacking := by
    refine ⟨List.countP_eq_zero.mpr fun d hd => ?_, List.countP_eq_zero.mpr fun d hd => ?_,
      List.countP_pos_iff.mpr ⟨c, hc, ?_⟩⟩
    · rw [hparked d hd]
      exact nofun
    · rw [hparked d hd]
      exact nofun
    · rw [hparked c hc]
      rfl
  obtain ⟨halert, hreserving, hlacking⟩ := hcounts
  have hslots := (hcovered hopen).2
  rw [underway, hstored, halert, hreserving] at hslots
  have hle : u.pool.idle.length + u.pool.size ≤ u.pool.live + u.missed := hslots hlacking
  have hbounded := hconserved.bounded
  refine ⟨hopen, by omega, fun hmissed => ⟨List.eq_nil_of_length_eq_zero ?_, ?_⟩⟩ <;> omega

/-- A client leases the only worker, and the next is parked. -/
def leasedOut : List (PoolAct Unit) :=
  [.acquire, .go 0 .go, .go 0 .go, .go 0 .go, .go 0 (.ready ()), .go 0 .go, .go 0 .go, .acquire, .go 0 .go, .go 0 .go,
    .go 0 .go]

theorem run_parked_leasedOut :
    let u := (start 1 0 : PoolUse Unit).run leasedOut
    u.clients ≠ [] ∧ (∀ c ∈ u.clients, c = ⟨.wait, .parked⟩) ∧ u.pool.closed = false ∧
      u.pool.idle.length + (u.pool.size - u.pool.live) ≤ u.missed ∧
      (u.missed = 0 → u.pool.idle = [] ∧ u.pool.live = u.pool.size) :=
  have hsome : ((start 1 0 : PoolUse Unit).run leasedOut).clients ≠ [] := by decide
  have hparked : ∀ c ∈ ((start 1 0 : PoolUse Unit).run leasedOut).clients, c = ⟨.wait, .parked⟩ := by decide
  ⟨hsome, hparked, run_parked 1 0 leasedOut hsome hparked⟩

/-- A client is parked while the only worker is started for the stock. Nobody tells it when that is ready. -/
def silentStock : List (PoolAct Unit) :=
  [.prewarm, .go 0 .go, .go 0 .go, .go 0 .go, .acquire, .go 1 .go, .go 1 .go, .go 1 .go, .go 0 (.ready ()), .go 1 .go,
    .go 1 .go]

/-- Two clients have found nothing, and neither is parked yet when both workers are released. The second word comes to
nothing, as the first is stored. -/
def mergedWords : List (PoolAct Unit) :=
  List.flatten [[.acquire, .acquire], .replicate 6 (.go 0 .go), .replicate 2 (.go 0 (.ready ())),
    .replicate 4 (.go 0 .go), [.acquire, .acquire], .replicate 4 (.go 0 .go),
    [.release 0 (), .go 2 .go, .go 2 .go, .go 2 .go, .release 0 (), .go 2 .go, .go 2 .go, .go 2 .go],
    [.go 0 .go, .go 1 .go, .go 0 .go]]

/-- A client may be parked beside an idle worker, no word being stored and nobody else doing anything. -/
theorem parked_beside_idle :
    let u := (start 1 1 : PoolUse Unit).run silentStock
    let v := (start 2 0 : PoolUse Unit).run mergedWords
    (u.clients = [⟨.wait, .parked⟩] ∧ u.stored = false ∧ u.pool.closed = false ∧ u.pool.idle = [⟨1, ()⟩]) ∧
      v.clients = [⟨.wait, .parked⟩] ∧ v.stored = false ∧ v.pool.closed = false ∧ v.pool.idle = [⟨1, ()⟩] := by
  decide +kernel

end PoolUse
end RecordService
