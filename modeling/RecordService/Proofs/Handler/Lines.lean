import RecordService.Handler.Line

/-! # What a line looks like

Host and worker act each at its own pace, but on a line that is leased each can act in a few ways only (`Engaged`): at
most one message is under way, and it is what the other side waits for. -/

namespace RecordService

/-- Whether the worker calls the host. -/
def WorkerMessage.isCall : WorkerMessage → Bool
  | call .. => true
  | ready _ | done .. | error .. => false

/-- Whether the host answers a call. -/
def HostMessage.isResult {σ : Type} : HostMessage σ → Bool
  | callResult .. => true
  | execute .. | shutdown => false

/-- The execution that the host is about. -/
def Desk.execution? : Desk → Option Execution
  | free => none
  | listening x => some x
  | serving x .. => some x

theorem Desk.execution?_of_isFree {d : Desk} (h : d.isFree = true) : d.execution? = none := by
  cases d <;> first | rfl | cases h

/-- The calls that the host works on. -/
def Desk.calls : Desk → Nat
  | free | listening _ => 0
  | serving .. => 1

namespace Execution

/-- How an execution may end on a worker that runs scripts. -/
inductive Proper (x : Execution) : Except ExecutionError Json → Prop
  | value (value : Json) : Proper x (.ok value)
  | script (status : Option UInt16) (message : String) (stack : Option String) :
      Proper x (.error (.ofScript status message stack))
  | timeout : Proper x (.error (.timeout x.timeout))
  | exited : Proper x (.error (Peer.exited x.worker))
  | gone : Proper x (.error (Peer.gone x.worker))

/-- What is said of a worker is not what is said of a message. -/
theorem worker_ne_unexpected (x : Execution) (m : WorkerMessage) (rest : String) :
    .transport ("worker " ++ rest) ≠ x.unexpected m := by
  intro h
  have hfirst := congrArg (fun text => text.toList.head?) (ExecutionError.transport.inj h)
  simp [toString] at hfirst

/-- None of these is the error of a message that is not part of the execution. -/
theorem Proper.ne_unexpected {x : Execution} {r : Except ExecutionError Json} (h : x.Proper r) (m : WorkerMessage) :
    r ≠ .error (x.unexpected m) := by
  cases h with
  | value => exact nofun
  | script status message stack =>
    unfold ExecutionError.ofScript
    split <;> exact fun h => nomatch Except.error.inj h
  | timeout => exact fun h => nomatch Except.error.inj h
  | exited =>
    intro h
    refine x.worker_ne_unexpected m (toString x.worker ++ " exited") (.trans ?_ (Except.error.inj h))
    exact congrArg _ (String.append_assoc ..).symm
  | gone =>
    intro h
    refine x.worker_ne_unexpected m (toString x.worker ++ " is gone") (.trans ?_ (Except.error.inj h))
    exact congrArg _ (String.append_assoc ..).symm

end Execution

namespace Line

variable {σ : Type} {evaluate : Interpreter σ} {l : Line σ}

/-- Nobody has anything to do: no message is under way, and the worker waits for a script. -/
structure Quiet (l : Line σ) : Prop where
  desk : l.desk = .free
  worker : l.worker = .waiting
  saying : l.saying = none
  inbox : l.inbox = []
  outbox : l.outbox = []

/-- The calls of the worker that are under way, from the moment that it makes them to the moment that it has the
result. -/
def openCalls (l : Line σ) : Nat :=
  (l.saying.toList ++ l.outbox).countP WorkerMessage.isCall + l.desk.calls + l.inbox.countP HostMessage.isResult

/-- A line that is leased. -/
inductive Engaged : Line σ → Prop
  | free : Engaged ⟨.free, .waiting, none, [], []⟩
  | ordered (x : Execution) (script : σ) (limits : SandboxLimits) :
      Engaged ⟨.listening x, .waiting, none, [.execute x.number script x.context limits], []⟩
  /-- The script went on, and the worker is about to say what came of it. -/
  | proceeds (x : Execution) (calls : UInt64) (r : Run Json) :
      Engaged ⟨.listening x, (Worker.proceed x.number calls r).1, (Worker.proceed x.number calls r).2, [], []⟩
  | said (x : Execution) (calls : UInt64) (r : Run Json) :
      Engaged ⟨.listening x, (Worker.proceed x.number calls r).1, none, [],
        (Worker.proceed x.number calls r).2.toList⟩
  | serves (x : Execution) (call : UInt64) (path : String) (args : List Json) (next : CallReply → Run Json) :
      Engaged ⟨.serving x call path args, .calling x.number call next, none, [], []⟩
  | answered (x : Execution) (call : UInt64) (next : CallReply → Run Json) (reply : CallReply) :
      Engaged ⟨.listening x, .calling x.number call next, none, [.ofReply x.number call reply], []⟩

theorem Quiet.engaged (h : l.Quiet) : l.Engaged := by
  obtain ⟨desk, worker, saying, inbox, outbox⟩ := l
  obtain ⟨rfl, rfl, rfl, rfl, rfl⟩ := h
  exact .free

theorem Engaged.quiet (h : l.Engaged) (hfree : l.desk.execution? = none) : l.Quiet := by
  cases h with
  | free => exact ⟨rfl, rfl, rfl, rfl, rfl⟩
  | _ => cases hfree

/-! ### What the worker does -/

theorem Quiet.work (h : l.Quiet) (a : WorkerAct) : l.work evaluate a = l := by
  cases a with
  | take => rw [Line.work, take, h.inbox]
  | say => rw [Line.work, say, h.saying]

theorem Engaged.take (h : l.Engaged) : (l.take evaluate).Engaged := by
  cases h with
  | free => exact .free
  | ordered x script limits => exact .proceeds x 0 (evaluate script x.context limits)
  | proceeds x calls r => exact .proceeds x calls r
  | said x calls r => exact .said x calls r
  | serves x call path args next => exact .serves x call path args next
  | answered x call next reply =>
    let r := next (HostMessage.reply (HostMessage.result? reply) (HostMessage.error? reply))
    have htake : Line.take evaluate
        ⟨.listening x, .calling x.number call next, none, [.ofReply x.number call reply], []⟩ =
          ⟨.listening x, (Worker.proceed x.number call r).1, (Worker.proceed x.number call r).2, [], []⟩ := by
      simp [Line.take, Worker.listens, Worker.receive, HostMessage.ofReply, r]
    rw [htake]
    exact .proceeds x call r

theorem Engaged.say (h : l.Engaged) : l.say.Engaged := by
  cases h with
  | free => exact .free
  | ordered x script limits => exact .ordered x script limits
  | proceeds x calls r =>
    have hsaid := Engaged.said (σ := σ) x calls r
    rw [Line.say]
    split
    · next m hsaying =>
      rwa [show (Worker.proceed x.number calls r).2 = some m from hsaying] at hsaid
    · next hsaying =>
      rw [show (Worker.proceed x.number calls r).2 = none from hsaying] at hsaid ⊢
      exact hsaid
  | said x calls r => exact .said x calls r
  | serves x call path args next => exact .serves x call path args next
  | answered x call next reply => exact .answered x call next reply

theorem Engaged.work (h : l.Engaged) (a : WorkerAct) : (l.work evaluate a).Engaged := by
  cases a with
  | take => exact h.take
  | say => exact h.say

/-! ### What the host does -/

/-- What may come of an act on a line that is leased. -/
def Sound : Fate σ → Prop
  | .goes l => l.Engaged
  | .ends x result l => l.Quiet ∧ x.Proper result
  | .breaks x e l => l.Engaged ∧ x.Proper (.error e)
  | .drops l => l.Engaged

theorem Quiet.order (h : l.Quiet) (x : Execution) (script : σ) (limits : SandboxLimits) :
    Sound (l.order x script limits) := by
  obtain ⟨desk, worker, saying, inbox, outbox⟩ := l
  obtain ⟨rfl, rfl, rfl, rfl, rfl⟩ := h
  exact .ordered x script limits

/-- The host hears the last message of an execution. -/
theorem sound_of_over {x : Execution} {m : WorkerMessage} {result : Except ExecutionError Json}
    (hjudge : x.judge (.message m) = .over result) (hproper : x.Proper result) :
    Sound (act ⟨.listening x, .waiting, none, ([] : List (HostMessage σ)), [m]⟩ .hear) := by
  simp only [act, hear?, hjudge]
  exact ⟨⟨rfl, rfl, rfl, rfl, rfl⟩, hproper⟩

theorem Engaged.hear (h : l.Engaged) : Sound (l.act .hear) := by
  cases h with
  | free => exact .free
  | ordered x script limits => exact .ordered x script limits
  | proceeds x calls r =>
    cases r with
    | aborted => exact ⟨.proceeds x calls .aborted, .exited⟩
    | done value => exact .proceeds x calls (.done value)
    | thrown what => exact .proceeds x calls (.thrown what)
    | failed message => exact .proceeds x calls (.failed message)
    | call path args next => exact .proceeds x calls (.call path args next)
    | endless => exact .proceeds x calls .endless
  | said x calls r =>
    cases r with
    | done value => exact sound_of_over (if_pos rfl) (.value value)
    | thrown what => exact sound_of_over (if_pos rfl) (.script ..)
    | failed message => exact sound_of_over (if_pos rfl) (.script ..)
    | call path args next =>
      simp only [act, hear?, Worker.proceed, Option.toList_some, Execution.judge, if_true]
      exact .serves x (calls + 1) path args next
    | endless => exact .said x calls .endless
    | aborted => exact ⟨.said x calls .aborted, .exited⟩
  | serves x call path args next => exact .serves x call path args next
  | answered x call next reply => exact .answered x call next reply

theorem Engaged.act (h : l.Engaged) (a : HostAct) : Sound (l.act a) := by
  cases a with
  | hear => exact h.hear
  | drop => exact h
  | expire =>
    rw [Line.act]
    split
    · exact h
    · exact ⟨h, .timeout⟩
    · exact ⟨h, .timeout⟩
  | answer reply =>
    cases h with
    | free => exact .free
    | ordered x script limits => exact .ordered x script limits
    | proceeds x calls r => exact .proceeds x calls r
    | said x calls r => exact .said x calls r
    | serves x call path args next => exact .answered x call next reply
    | answered x call next reply => exact .answered x call next reply

/-! ### What is known of an engaged line -/

theorem Engaged.openCalls_le_one (h : l.Engaged) : l.openCalls ≤ 1 := by
  cases h with
  | proceeds x calls r | said x calls r => cases r <;> exact Nat.le_of_ble_eq_true rfl
  | _ => exact Nat.le_of_ble_eq_true rfl

/-- What is on its way to a script that waits is the result of its call. -/
theorem Engaged.inbox_of_calling (h : l.Engaged) {execution call : UInt64} {next : CallReply → Run Json}
    (hworker : l.worker = .calling execution call next) :
    ∀ m ∈ l.inbox, ∃ result error, m = .callResult execution call result error := by
  cases h with
  | ordered => cases hworker
  | answered x call next reply =>
    cases hworker
    exact List.forall_mem_singleton.mpr ⟨_, _, rfl⟩
  | _ => exact nofun

/-- What is under way belongs to the execution that the host is about. -/
theorem Engaged.execution (h : l.Engaged) {x : Execution} (hdesk : l.desk.execution? = some x) :
    (∀ m ∈ l.inbox, m.execution? = some x.number) ∧ ∀ m ∈ l.saying.toList ++ l.outbox, m.execution? = some x.number := by
  cases h with
  | free => cases hdesk
  | ordered | answered =>
    obtain rfl := Option.some.inj hdesk
    exact ⟨List.forall_mem_singleton.mpr rfl, nofun⟩
  | serves => exact ⟨nofun, nofun⟩
  | proceeds x calls r | said x calls r =>
    obtain rfl := Option.some.inj hdesk
    refine ⟨nofun, ?_⟩
    cases r with
    | endless | aborted => exact nofun
    | _ => exact List.forall_mem_singleton.mpr rfl

/-! ### Lines that the host has left -/

/-- The line goes on as it would have done, or its worker has ended. -/
def Abandoned (l : Line σ) : Prop :=
  l.Engaged ∨ l.worker = .stopped ∧ l.saying = none ∧ l.inbox = [] ∧ l.openCalls ≤ 1

theorem Abandoned.openCalls_le_one (h : l.Abandoned) : l.openCalls ≤ 1 :=
  h.elim Engaged.openCalls_le_one (·.2.2.2)

theorem Abandoned.inbox_of_calling (h : l.Abandoned) {execution call : UInt64} {next : CallReply → Run Json}
    (hworker : l.worker = .calling execution call next) :
    ∀ m ∈ l.inbox, ∃ result error, m = .callResult execution call result error := by
  obtain hengaged | ⟨hstopped, -⟩ := h
  · exact hengaged.inbox_of_calling hworker
  · cases hstopped.symm.trans hworker

theorem Engaged.inbox_of_saying (h : l.Engaged) {m : WorkerMessage} (hsaying : l.saying = some m) : l.inbox = [] := by
  cases h with
  | ordered | answered => cases hsaying
  | _ => rfl

theorem Abandoned.workAlone (h : l.Abandoned) (a : WorkerAct) : (l.workAlone evaluate a).Abandoned := by
  obtain hengaged | ⟨hstopped, hsaying, hinbox, hcalls⟩ := h
  · cases a with
    | take =>
      rw [Line.workAlone]
      split
      · exact .inl hengaged.take
      · next hinbox =>
        split
        · next hsaying => exact .inr ⟨rfl, Option.isNone_iff_eq_none.mp hsaying, hinbox, hengaged.openCalls_le_one⟩
        · exact .inl hengaged
    | say =>
      rw [Line.workAlone]
      split
      · next m hsaying =>
        refine .inr ⟨rfl, rfl, hengaged.inbox_of_saying hsaying, ?_⟩
        have hcalls := hengaged.openCalls_le_one
        simp only [openCalls, hsaying, List.countP_append, Option.toList_none, List.countP_nil] at hcalls ⊢
        omega
      · exact .inl hengaged
  -- a worker that has stopped does not move again
  · have hsame : l.workAlone evaluate a = l := by
      obtain ⟨desk, worker, saying, inbox, outbox⟩ := l
      obtain ⟨rfl, rfl, rfl⟩ : worker = .stopped ∧ saying = none ∧ inbox = [] := ⟨hstopped, hsaying, hinbox⟩
      cases a <;> rfl
    rw [hsame]
    exact .inr ⟨hstopped, hsaying, hinbox, hcalls⟩

end Line
end RecordService
