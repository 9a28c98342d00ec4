import RecordService.Handler.Executor
import RecordService.Proofs.Handler.Alone
import RecordService.Proofs.Store.Replacements
import RecordService.Worker.Dialogue

/-! # Conversations with any worker

How the host gets on with a worker of any kind, however it behaves: `Attends` follows an execution message by message, and
workers that are `noting` keep what passes. The message that is not a call of the execution, or what comes instead of one,
decides the result, and a worker that is not given back is never leased again (`Host.run_attended`). -/

namespace RecordService

open Pool

variable {σ ω τ : Type}

/-- What is there to note of what the host meets. -/
def Heard.noted : Heard → List (Message σ)
  | message m => [.toHost m]
  | closed | silence => []

namespace Channel

/-- The same workers, each with all that passed between it and the host. -/
def noting (k : Channel σ ω) : Channel σ (ω × List (Message σ)) where
  hear w := ((k.hear w.1).1, (k.hear w.1).2, w.2 ++ (k.hear w.1).1.noted)
  send? w m := (k.send? w.1 m).map fun w' => (w', w.2 ++ [.toWorker m])
  Later v w := k.Later v.1 w.1
  wf := InvImage.wf Prod.fst k.wf
  later hheard hsent := by
    obtain ⟨w', hsent', rfl⟩ := Option.map_eq_some_iff.mp hsent
    obtain ⟨hmessage, rfl⟩ := Prod.mk.inj hheard
    exact k.later (Prod.ext hmessage rfl) hsent'

theorem noting_hear {k : Channel σ ω} {w w' : ω} {heard : Heard} (h : k.hear w = (heard, w')) (log : List (Message σ)) :
    k.noting.hear (w, log) = (heard, w', log ++ heard.noted) := by
  dsimp only [noting]
  rw [h]

theorem noting_send? (k : Channel σ ω) (w : ω) (log : List (Message σ)) (m : HostMessage σ) :
    k.noting.send? (w, log) m = (k.send? w m).map fun w' => (w', log ++ [.toWorker m]) :=
  rfl

/-- Workers that go through a list whatever they are told, each with whether it takes messages. An item of the list is
what the host meets next, and whether the worker takes messages from then on; after the last one nothing comes. -/
def listed : Channel σ (List (Heard × Bool) × Bool) where
  hear
    | ([], takes) => (.silence, [], takes)
    | (item :: rest, _) => (item.1, rest, item.2)
  send? w _ := if w.2 then some w else none
  Later v w := v.1.length < w.1.length
  wf := InvImage.wf (fun w : List (Heard × Bool) × Bool => w.1.length) Nat.lt_wfRel.wf
  later {w _ _ _ _ _ _ _} hheard hsent := by
    obtain ⟨-, rfl⟩ := Option.ite_some_none_eq_some.mp hsent
    obtain ⟨_ | ⟨item, rest⟩, takes⟩ := w
    · cases hheard
    · obtain ⟨-, rfl⟩ := Prod.mk.inj hheard
      exact Nat.lt_succ_self _

end Channel

namespace Execution

variable (k : Channel σ ω) (services : Services) (answer : (step : Step) → τ → step.Answer × τ) (x : Execution)

/-- What passes between the host and a worker during an execution, from the worker `w` and the state `s` of the store on,
and how the execution ends. -/
inductive Attends : ω → τ → List (Message σ) → Ending ω → τ → Prop
  | answered {w w₁ w₂ : ω} {s s₁ s₂ : τ} {call : UInt64} {path : String} {args : List Json} {reply : CallReply}
      {part : List (Message σ)} {ending : Ending ω}
      (hheard : k.hear w = (.message (.call x.number call path args), w₁))
      (hreply : (services.invoke x.context path args).run answer s = (some reply, s₁))
      (hsent : k.send? w₁ (.ofReply x.number call reply) = some w₂) (hrest : Attends w₂ s₁ part ending s₂) :
      Attends w s (.toHost (.call x.number call path args) :: .toWorker (.ofReply x.number call reply) :: part) ending s₂
  | unanswered {w w₁ : ω} {s s₁ : τ} {call : UInt64} {path : String} {args : List Json}
      (hheard : k.hear w = (.message (.call x.number call path args), w₁))
      (hreply : (services.invoke x.context path args).run answer s = (none, s₁)) :
      Attends w s [.toHost (.call x.number call path args)] ⟨.error (.timeout x.timeout), w₁, false⟩ s₁
  | gone {w w₁ : ω} {s s₁ : τ} {call : UInt64} {path : String} {args : List Json} {reply : CallReply}
      (hheard : k.hear w = (.message (.call x.number call path args), w₁))
      (hreply : (services.invoke x.context path args).run answer s = (some reply, s₁))
      (hsent : k.send? w₁ (.ofReply x.number call reply) = none) :
      Attends w s [.toHost (.call x.number call path args)]
        ⟨.error (.transport s!"worker {x.worker} is gone"), w₁, false⟩ s₁
  | done {w w₁ : ω} {s : τ} {data : Json} (hheard : k.hear w = (.message (.done x.number data), w₁)) :
      Attends w s [.toHost (.done x.number data)] ⟨.ok data, w₁, true⟩ s
  | failed {w w₁ : ω} {s : τ} {message : String} {stack : Option String} {status : Option UInt16}
      (hheard : k.hear w = (.message (.error x.number message stack status), w₁)) :
      Attends w s [.toHost (.error x.number message stack status)]
        ⟨.error (.ofScript status message stack), w₁, true⟩ s
  | other {w w₁ : ω} {s : τ} {m : WorkerMessage} (hheard : k.hear w = (.message m, w₁))
      (hother : m.execution? ≠ some x.number) :
      Attends w s [.toHost m] ⟨.error (.transport s!"unexpected {m.inspect} during execution {x.number}"), w₁, false⟩ s
  | closed {w w₁ : ω} {s : τ} (hheard : k.hear w = (.closed, w₁)) :
      Attends w s [] ⟨.error (.transport s!"worker {x.worker} exited"), w₁, false⟩ s
  | silent {w w₁ : ω} {s : τ} (hheard : k.hear w = (.silence, w₁)) :
      Attends w s [] ⟨.error (.timeout x.timeout), w₁, false⟩ s

/-- A step of an execution. -/
theorem converse_eq (w : ω) :
    x.converse k services w =
      match x.judge (k.hear w).1 with
      | .over result => return ⟨result, (k.hear w).2, true⟩
      | .broken e => return ⟨.error e, (k.hear w).2, false⟩
      | .serve call path args => do
        match ← services.invoke x.context path args with
        | none => return ⟨.error (.timeout x.timeout), (k.hear w).2, false⟩
        | some reply =>
          match k.send? (k.hear w).2 (.ofReply x.number call reply) with
          | some w' => x.converse k services w'
          | none => return ⟨.error (Peer.gone x.worker), (k.hear w).2, false⟩ := by
  rw [converse]
  split
  next heard w' hheard =>
  rw [hheard]
  split <;> rename_i hjudge <;> simp only [hjudge]
  refine congrArg _ (funext fun reply => ?_)
  cases reply with
  | none => rfl
  | some reply =>
    dsimp only
    split <;> rename_i hsent <;> simp only [hsent]

theorem judge_other {x : Execution} {m : WorkerMessage} (hother : m.execution? ≠ some x.number) :
    x.judge (.message m) = .broken (x.unexpected m) := by
  have hne : ∀ {execution}, m.execution? = some execution → execution ≠ x.number := by
    rintro _ hm rfl
    exact hother hm
  cases m with
  | ready => rfl
  | call | done | error => exact if_neg (hne rfl)

/-- Every execution is such a conversation, and what the worker has noted in it is what passed. -/
theorem converse_attends (w : ω) (log : List (Message σ)) (s : τ) :
    ∃ part ending s', Attends k services answer x w s part ending s' ∧
      (x.converse k.noting services (w, log)).run answer s =
        (⟨ending.result, (ending.worker, log ++ part), ending.sound⟩, s') := by
  -- on what the worker has still to say: hearing a call and answering it leaves less of it
  induction w using k.wf.induction generalizing log s with
  | _ w ih =>
  rw [converse_eq]
  cases hheard : k.hear w with
  | mk heard w₁ =>
  rw [k.noting_hear hheard]
  cases heard with
  | closed => exact ⟨[], _, s, .closed hheard, rfl⟩
  | silence => exact ⟨[], _, s, .silent hheard, rfl⟩
  | message m =>
    by_cases hexecution : m.execution? = some x.number
    case neg => exact ⟨_, _, s, .other hheard hexecution, by rw [judge_other hexecution]; rfl⟩
    cases m with
    | ready => cases hexecution
    | done execution data =>
      obtain rfl := Option.some.inj hexecution
      exact ⟨_, _, s, .done hheard, by rw [judge, if_pos rfl]; rfl⟩
    | error execution message stack status =>
      obtain rfl := Option.some.inj hexecution
      exact ⟨_, _, s, .failed hheard, by rw [judge, if_pos rfl]; rfl⟩
    | call execution call path args =>
      obtain rfl := Option.some.inj hexecution
      rw [judge, if_pos rfl]
      dsimp only
      rw [Program.run_bind]
      cases hreply : (services.invoke x.context path args).run answer s with
      | mk reply s₁ =>
      cases reply with
      | none => exact ⟨_, _, s₁, .unanswered hheard hreply, rfl⟩
      | some reply =>
        dsimp only
        rw [Channel.noting_send?]
        cases hsent : k.send? w₁ (.ofReply x.number call reply) with
        | none => exact ⟨_, _, s₁, .gone hheard hreply hsent, rfl⟩
        | some w₂ =>
          obtain ⟨part, ending, s₂, hattends, hrun⟩ := ih w₂ (k.later hheard hsent) _ s₁
          refine ⟨_, ending, s₂, .answered hheard hreply hsent hattends, hrun.trans ?_⟩
          simp [Heard.noted]

/-- A worker that ends another execution is not heard any further. -/
example (later : List (Heard × Bool)) (s : τ) :
    (converse (Channel.listed : Channel σ _) services ⟨1, 3, 5000, .empty⟩
        ((.message (.done 2 .null), true) :: later, true)).run answer s =
      (⟨.error (.transport "unexpected Done \x7b execution_id: 2, data: Null \x7d during execution 1"), (later, true),
        false⟩, s) := by
  have hother : WorkerMessage.execution? (.done 2 .null) ≠ some 1 := by decide
  rw [converse_eq]
  dsimp only [Channel.listed]
  rw [judge_other hother]
  rfl

end Execution

/-- What is done with an executor. -/
inductive ExecutorAct (σ : Type) where
  | run (request : ExecutionRequest σ)
  | stock
  | shutdown

namespace Host

/-- The same host, whose workers note what passes. -/
def noting (host : Host σ ω) : Host σ (ω × List (Message σ)) where
  channel := host.channel.noting
  services := host.services
  start id := (host.start id).map fun w => (w, [])
  limits := host.limits
  timeout := host.timeout

variable (host : Host σ ω) (answer : (step : Step) → τ → step.Answer × τ)

/-- What passes between the host and a leased worker for one script, and how it ends. -/
inductive Attends (x : Execution) (script : σ) : ω → τ → List (Message σ) → Ending ω → τ → Prop
  | sent {w w₁ : ω} {s s' : τ} {part : List (Message σ)} {ending : Ending ω}
      (hsent : host.channel.send? w (.execute x.number script x.context host.limits) = some w₁)
      (hrest : x.Attends host.channel host.services answer w₁ s part ending s') :
      Attends x script w s (.toWorker (.execute x.number script x.context host.limits) :: part) ending s'
  | gone {w : ω} {s : τ} (hsent : host.channel.send? w (.execute x.number script x.context host.limits) = none) :
      Attends x script w s [] ⟨.error (.transport s!"worker {x.worker} is gone"), w, false⟩ s

theorem attend_attends (x : Execution) (script : σ) (w : ω) (log : List (Message σ)) (s : τ) :
    ∃ part ending s', host.Attends answer x script w s part ending s' ∧
      (host.noting.attend x script (w, log)).run answer s =
        (⟨ending.result, (ending.worker, log ++ part), ending.sound⟩, s') := by
  have hnoted : host.noting.channel.send? (w, log) (.execute x.number script x.context host.noting.limits) =
      (host.channel.send? w (.execute x.number script x.context host.limits)).map fun w' =>
        (w', log ++ [.toWorker (.execute x.number script x.context host.limits)]) :=
    rfl
  rw [attend, hnoted]
  cases hsent : host.channel.send? w (.execute x.number script x.context host.limits) with
  | none => exact ⟨[], _, s, .gone hsent, by rw [List.append_nil]; rfl⟩
  | some w₁ =>
    obtain ⟨part, ending, s', hattends, hrun⟩ := x.converse_attends host.channel host.services answer w₁ _ s
    refine ⟨_, ending, s', .sent hsent hattends, hrun.trans ?_⟩
    rw [List.append_assoc]
    rfl

theorem converse_attends (number : UInt64) (h : Handle (ω × List (Message σ))) (request : ExecutionRequest σ) (s : τ) :
    let tables := host.services.tables.run answer s
    ∃ part ending s',
      host.Attends answer (host.execution number h.id request tables.1) request.script h.worker.1 tables.2 part ending s' ∧
      (host.noting.converse number h request).run answer s =
        (⟨ending.result, (ending.worker, h.worker.2 ++ part), ending.sound⟩, s') := by
  intro tables
  have hrun : (host.noting.converse number h request).run answer s =
      (host.noting.attend (host.noting.execution number h.id request tables.1) request.script h.worker).run answer tables.2 :=
    Program.run_bind answer _ _ s
  rw [hrun]
  exact host.attend_attends answer _ request.script h.worker.1 h.worker.2 tables.2

/-! ### The workers of an executor -/

theorem perform_passes (e : Executor ω) {t : Pool.Task ω} (hnone : t.promised = []) :
    Passes (e.pool.idleIds ++ t.workers) e.pool.nextId
      ((host.perform e t).2.pool.idleIds ++ (leased (.inl (host.perform e t).1)).map Handle.id)
      (host.perform e t).2.pool.nextId :=
  runFor_passes host.start e.pool.steps hnone

/-- A task that has no worker leaves some of those that were idle, and new ones. -/
theorem perform_passes_idle (e : Executor ω) (t : Pool.Task ω) (hnone : t.promised = []) (hworkers : t.workers = []) :
    Passes e.pool.idleIds e.pool.nextId (host.perform e t).2.pool.idleIds (host.perform e t).2.pool.nextId := by
  have hpasses := host.perform_passes e hnone
  rw [hworkers, List.append_nil] at hpasses
  exact hpasses.left

theorem perform_look_passes {e e' : Executor ω} {h : Handle ω} (hlook : host.perform e .look = (.leased h, e')) :
    Passes e.pool.idleIds e.pool.nextId (e'.pool.idleIds ++ [h.id]) e'.pool.nextId := by
  have hpasses := host.perform_passes e (t := .look) rfl
  rw [hlook] at hpasses
  simpa [Task.workers, leased] using hpasses

/-- The end of a lease: an idle worker more, or a worker less. -/
theorem release_pool {e : Executor ω} (h : Handle ω) (ending : Ending ω) (hopen : e.pool.closed = false) :
    (host.release e h ending).pool =
      if ending.sound then { e.pool with idle := ⟨h.id, ending.worker⟩ :: e.pool.idle, busy := e.pool.busy - 1 }
      else { e.pool with live := e.pool.live - 1, busy := e.pool.busy - 1 } := by
  rw [release]
  split
  · exact congrArg Prod.snd (run_giveBack host.start e.pool ⟨h.id, ending.worker⟩ hopen)
  · exact congrArg Prod.snd (run_discard host.start e.pool h)

/-- A request for which a worker is leased ends as the conversation with the worker does. -/
theorem run_of_leased {e e₁ : Executor ω} {h : Handle ω} (hlook : host.perform e .look = (.leased h, e₁))
    (request : ExecutionRequest σ) {s s' : τ} {ending : Ending ω}
    (hconverse : (host.converse e.nextExecution h request).run answer s = (ending, s')) :
    ∃ e', (host.run e request).run answer s = ((ending.result, e'), s') ∧
      e'.pool =
        if ending.sound then { e₁.pool with idle := ⟨h.id, ending.worker⟩ :: e₁.pool.idle, busy := e₁.pool.busy - 1 }
        else { e₁.pool with live := e₁.pool.live - 1, busy := e₁.pool.busy - 1 } := by
  have hnumber : e₁.nextExecution = e.nextExecution := by
    obtain ⟨-, rfl⟩ := Prod.mk.inj hlook
    rfl
  have hopen : e₁.pool.closed = false := by
    obtain ⟨hleased, rfl⟩ := Prod.mk.inj hlook
    exact open_of_leased host.start e.pool hleased
  refine ⟨host.release { e₁ with nextExecution := e₁.nextExecution + 1 } h ending, ?_, host.release_pool h ending hopen⟩
  rw [run, hlook]
  dsimp only
  rw [Program.run_bind, hnumber, hconverse]
  rfl

theorem run_of_failed {e e₁ : Executor ω} {reason : ExecutionError} (hlook : host.perform e .look = (.failed reason, e₁))
    (request : ExecutionRequest σ) (s : τ) : (host.run e request).run answer s = ((.error reason, e₁), s) := by
  rw [run, hlook]
  rfl

/-- An executor after one thing more. -/
def act (e : Executor ω) : ExecutorAct σ → Program (Executor ω)
  | .run request => return (← host.run e request).2
  | .stock => return (host.perform e (.fill 0)).2
  | .shutdown => return (host.perform e .close).2

/-- An executor after one thing and the other. -/
def use (e : Executor ω) (acts : List (ExecutorAct σ)) : Program (Executor ω) :=
  acts.foldlM host.act e

/-- Whatever is done with an executor and whatever the store answers, a worker is not leased again. -/
def NeverLeases (e : Executor ω) (id : Nat) : Prop :=
  ∀ (τ : Type) (answer : (step : Step) → τ → step.Answer × τ) (acts : List (ExecutorAct σ)) (s : τ) (h : Handle ω)
    (e' : Executor ω), host.perform ((host.use e acts).run answer s).1 .look = (.leased h, e') → h.id ≠ id

theorem run_passes (e : Executor ω) (request : ExecutionRequest σ) (s : τ) :
    Passes e.pool.idleIds e.pool.nextId ((host.run e request).run answer s).1.2.pool.idleIds
      ((host.run e request).run answer s).1.2.pool.nextId := by
  cases hlook : host.perform e .look with
  | mk a e₁ =>
  have hfound : Passes e.pool.idleIds e.pool.nextId e₁.pool.idleIds e₁.pool.nextId := by
    have hpasses := host.perform_passes_idle e .look rfl rfl
    rwa [hlook] at hpasses
  cases a with
  | leased h =>
    cases hconverse : (host.converse e.nextExecution h request).run answer s with
    | mk ending s' =>
    obtain ⟨e', hrun, hpool⟩ := host.run_of_leased answer hlook request hconverse
    rw [hrun, hpool]
    split
    · exact (host.perform_look_passes hlook).perm (List.perm_append_singleton _ _)
    · exact hfound
  | failed reason =>
    rw [host.run_of_failed answer hlook request s]
    exact hfound
  | started count => rw [run, hlook]; exact hfound
  | finished => rw [run, hlook]; exact hfound

theorem act_passes (e : Executor ω) (a : ExecutorAct σ) (s : τ) :
    Passes e.pool.idleIds e.pool.nextId ((host.act e a).run answer s).1.pool.idleIds
      ((host.act e a).run answer s).1.pool.nextId := by
  cases a with
  | run request =>
    rw [act, Program.run_bind]
    exact host.run_passes answer e request s
  | stock => exact host.perform_passes_idle e (.fill 0) rfl rfl
  | shutdown => exact host.perform_passes_idle e .close rfl rfl

theorem use_passes (e : Executor ω) (acts : List (ExecutorAct σ)) (s : τ) :
    Passes e.pool.idleIds e.pool.nextId ((host.use e acts).run answer s).1.pool.idleIds
      ((host.use e acts).run answer s).1.pool.nextId := by
  induction acts generalizing e s with
  | nil => exact .refl _ _
  | cons a acts ih =>
    rw [use, List.foldlM_cons, Program.run_bind]
    exact (host.act_passes answer e a s).trans (ih _ _)

/-- A worker that is leased has a number of its own, which is not given out again. -/
theorem neverLeases_of_discarded {e e₁ e' : Executor ω} {h : Handle ω} (hnodup : e.pool.idleIds.Nodup)
    (hgiven : ∀ id ∈ e.pool.idleIds, id < e.pool.nextId) (hlook : host.perform e .look = (.leased h, e₁))
    (hidle : e'.pool.idleIds = e₁.pool.idleIds) (hnext : e'.pool.nextId = e₁.pool.nextId) :
    host.NeverLeases e' h.id := by
  obtain ⟨hnodup, hgiven⟩ := (host.perform_look_passes hlook).nodup hnodup hgiven
  have hgone : h.id < e'.pool.nextId ∧ h.id ∉ e'.pool.idleIds := by
    rw [hidle, hnext]
    refine ⟨hgiven h.id (List.mem_append_right _ List.mem_cons_self), fun hmem => ?_⟩
    exact (List.nodup_append.mp hnodup).2.2 _ hmem _ List.mem_cons_self rfl
  intro τ answer acts s h' e'' hlater hid
  have hpasses := (host.use_passes answer e' acts s).trans (host.perform_look_passes hlater)
  exact (hpasses.not_mem hgone.1 hgone.2).2 (hid ▸ List.mem_append_right _ List.mem_cons_self)

/-- Whatever was done before and however the worker behaves: a request for which no worker is had fails. Else the host
sends the script and answers the calls until something else ends the conversation. What that is decides on the result and
on whether the worker is given back, with nothing after it heard or said, or is never leased again. -/
theorem run_attended (size stock : Nat) (acts : List (ExecutorAct σ)) (request : ExecutionRequest σ) (s₀ s : τ) :
    let e := ((host.noting.use (.start (.empty size stock)) acts).run answer s₀).1
    match host.noting.perform e .look with
    | (.leased h, e₁) =>
      let tables := host.services.tables.run answer s
      let x := host.execution e.nextExecution h.id request tables.1
      ∃ part ending s' e', host.Attends answer x request.script h.worker.1 tables.2 part ending s' ∧
        (host.noting.converse e.nextExecution h request).run answer s =
          (⟨ending.result, (ending.worker, h.worker.2 ++ part), ending.sound⟩, s') ∧
        (host.noting.run e request).run answer s = ((ending.result, e'), s') ∧
        (ending.sound = true → e'.pool = { e₁.pool with
          idle := ⟨h.id, ending.worker, h.worker.2 ++ part⟩ :: e₁.pool.idle
          busy := e₁.pool.busy - 1 }) ∧
        (ending.sound = false →
          e'.pool = { e₁.pool with live := e₁.pool.live - 1, busy := e₁.pool.busy - 1 } ∧
            host.noting.NeverLeases e' h.id)
    | (a, e₁) =>
      ∃ reason, a = .failed reason ∧ (host.noting.run e request).run answer s = ((.error reason, e₁), s) := by
  intro e
  -- workers are idle under their own numbers only, which a worker that was discarded has no more
  have hpasses := host.noting.use_passes answer (.start (.empty size stock)) acts s₀
  obtain ⟨hnodup, hgiven⟩ : e.pool.idleIds.Nodup ∧ ∀ id ∈ e.pool.idleIds, id < e.pool.nextId :=
    hpasses.nodup .nil nofun
  have hanswers := look_answers host.noting.start e.pool
  cases hlook : host.noting.perform e .look with
  | mk a e₁ =>
  obtain ⟨h, rfl⟩ | ⟨reason, rfl⟩ : (∃ h, a = .leased h) ∨ ∃ reason, a = .failed reason :=
    (Prod.mk.inj hlook).1 ▸ hanswers
  · obtain ⟨part, ending, s', hattends, hconverse⟩ := host.converse_attends answer e.nextExecution h request s
    obtain ⟨e', hrun, hpool⟩ := host.noting.run_of_leased answer hlook request hconverse
    refine ⟨part, ending, s', e', hattends, hconverse, hrun, fun hsound => ?_, fun hsound => ?_⟩
    · exact hpool.trans (if_pos hsound)
    · have hpool := hpool.trans (if_neg (ne_true_of_eq_false hsound))
      have hidle : e'.pool.idleIds = e₁.pool.idleIds := by rw [hpool]; rfl
      have hnext : e'.pool.nextId = e₁.pool.nextId := by rw [hpool]
      exact ⟨hpool, host.noting.neverLeases_of_discarded hnodup hgiven hlook hidle hnext⟩
  · exact ⟨reason, rfl, host.noting.run_of_failed answer hlook request s⟩

end Host
end RecordService
