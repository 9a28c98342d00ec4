import RecordService.Worker.Dialogue

/-! # The protocol of a worker

`Session` says which dialogues a worker has with a host that may send anything in any order, and `Executes` which part of
them belongs to one execution. The only memory of a worker is the script that waits, so the induction is on what the
script still does, and then on the messages that the execution leaves to the next one. -/

namespace RecordService

namespace Worker

variable {σ : Type} {evaluate : Interpreter σ}

/-- What passes while a script runs that has made `n` calls before, given what the host still sends. If the worker waits
for the next thing to do after that, some of what the host sends is left; else nothing passes any more. -/
inductive Executes (execution : UInt64) :
    Nat → Run Json → List (HostMessage σ) → List (Message σ) → Option (List (HostMessage σ)) → Prop
  | done {n : Nat} {value : Json} {messages : List (HostMessage σ)} :
      Executes execution n (.done value) messages [.toHost (.done execution value)] (some messages)
  | thrown {n : Nat} {what : Thrown} {messages : List (HostMessage σ)} :
      Executes execution n (.thrown what) messages [.toHost (errorMessage execution (.ofThrown what.value))]
        (some messages)
  | failed {n : Nat} {message : String} {messages : List (HostMessage σ)} :
      Executes execution n (.failed message) messages [.toHost (errorMessage execution ⟨message, none⟩)] (some messages)
  /-- The script goes on only with the result of its call. -/
  | answered {n : Nat} {path : String} {args : List Json} {next : CallReply → Run Json} {result : Option Json}
      {error : Option CallError} {messages : List (HostMessage σ)} {part : List (Message σ)}
      {left : Option (List (HostMessage σ))}
      (hrest : Executes execution (n + 1) (next (HostMessage.reply result error)) messages part left) :
      Executes execution n (.call path args next) (.callResult execution (.ofNat (n + 1)) result error :: messages)
        (.toHost (.call execution (.ofNat (n + 1)) path args) ::
          .toWorker (.callResult execution (.ofNat (n + 1)) result error) :: part) left
  /-- Any other message is taken without a word. -/
  | misled {n : Nat} {path : String} {args : List Json} {next : CallReply → Run Json} {m : HostMessage σ}
      {messages : List (HostMessage σ)}
      (hother : ∀ result error, m ≠ .callResult execution (.ofNat (n + 1)) result error) :
      Executes execution n (.call path args next) (m :: messages)
        [.toHost (.call execution (.ofNat (n + 1)) path args), .toWorker m] none
  | hungUp {n : Nat} {path : String} {args : List Json} {next : CallReply → Run Json} :
      Executes execution n (.call path args next) [] [.toHost (.call execution (.ofNat (n + 1)) path args)] none
  | endless {n : Nat} {messages : List (HostMessage σ)} : Executes execution n .endless messages [] none
  | aborted {n : Nat} {messages : List (HostMessage σ)} : Executes execution n .aborted messages [] none

/-- What passes between a worker that has announced itself and a host that sends some messages and then hangs up. -/
inductive Session (evaluate : Interpreter σ) : List (HostMessage σ) → List (Message σ) → Prop
  | hungUp : Session evaluate [] []
  | shutdown {messages : List (HostMessage σ)} : Session evaluate (.shutdown :: messages) [.toWorker .shutdown]
  /-- A result that nobody waits for makes no difference. -/
  | dropped {execution call : UInt64} {result : Option Json} {error : Option CallError}
      {messages : List (HostMessage σ)} {rest : List (Message σ)} (hrest : Session evaluate messages rest) :
      Session evaluate (.callResult execution call result error :: messages)
        (.toWorker (.callResult execution call result error) :: rest)
  | executed {execution : UInt64} {script : σ} {context : ScriptContext} {limits : SandboxLimits}
      {messages left : List (HostMessage σ)} {part rest : List (Message σ)}
      (hpart : Executes execution 0 (evaluate script context limits) messages part (some left))
      (hrest : Session evaluate left rest) :
      Session evaluate (.execute execution script context limits :: messages)
        (.toWorker (.execute execution script context limits) :: (part ++ rest))
  | ended {execution : UInt64} {script : σ} {context : ScriptContext} {limits : SandboxLimits}
      {messages : List (HostMessage σ)} {part : List (Message σ)}
      (hpart : Executes execution 0 (evaluate script context limits) messages part none) :
      Session evaluate (.execute execution script context limits :: messages)
        (.toWorker (.execute execution script context limits) :: part)

/-! ### The dialogues of a worker -/

theorem dialogue_nil (w : Worker) : w.dialogue evaluate [] = [] := by
  cases w <;> rfl

theorem dialogue_stopped (messages : List (HostMessage σ)) : stopped.dialogue evaluate messages = [] := by
  cases messages <;> rfl

theorem dialogue_spinning (messages : List (HostMessage σ)) : spinning.dialogue evaluate messages = [] := by
  cases messages <;> rfl

/-- The number of a call is that of the calls before it and one more. -/
theorem proceed_call (execution : UInt64) (n : Nat) (path : String) (args : List Json) (next : CallReply → Run Json) :
    proceed execution (.ofNat n) (.call path args next) =
      (calling execution (.ofNat (n + 1)) next, some (.call execution (.ofNat (n + 1)) path args)) := by
  rw [UInt64.ofNat_add]
  rfl

/-- The dialogue of a worker that goes on with a script begins with a part that belongs to the execution. -/
theorem executes_proceed (evaluate : Interpreter σ) (execution : UInt64) (r : Run Json) (n : Nat)
    (messages : List (HostMessage σ)) :
    ∃ part left, Executes execution n r messages part left ∧
      (proceed execution (.ofNat n) r).2.toList.map .toHost ++
          (proceed execution (.ofNat n) r).1.dialogue evaluate messages =
        part ++ left.elim [] (waiting.dialogue evaluate) ∧
      ∀ rest ∈ left, rest.length ≤ messages.length := by
  -- on what the script still does; each call takes the next number and one message
  induction r generalizing n messages with
  | done value => exact ⟨_, _, .done, rfl, by simp⟩
  | thrown what => exact ⟨_, _, .thrown, rfl, by simp⟩
  | failed message => exact ⟨_, _, .failed, rfl, by simp⟩
  | endless => exact ⟨_, _, .endless, dialogue_spinning messages, by simp⟩
  | aborted => exact ⟨_, _, .aborted, dialogue_stopped messages, by simp⟩
  | call path args next ih =>
    rw [proceed_call]
    cases messages with
    | nil => exact ⟨_, _, .hungUp, rfl, by simp⟩
    | cons m messages =>
      by_cases hanswer : ∃ result error, m = .callResult execution (.ofNat (n + 1)) result error
      · obtain ⟨result, error, rfl⟩ := hanswer
        obtain ⟨part, left, hexecutes, hpart, hleft⟩ := ih (HostMessage.reply result error) (n + 1) messages
        refine ⟨_, left, .answered hexecutes, ?_, fun rest hrest => Nat.le_succ_of_le (hleft rest hrest)⟩
        simp only [dialogue, receive, and_self, if_true, Option.toList_some, List.map_cons, List.map_nil,
          List.cons_append, List.nil_append, hpart]
      · have hother : ∀ result error, m ≠ .callResult execution (.ofNat (n + 1)) result error :=
          fun result error h => hanswer ⟨result, error, h⟩
        -- whatever is no result of this call stops the worker
        have hreceive : (calling execution (.ofNat (n + 1)) next).receive evaluate m = (stopped, none) := by
          cases m with
          | callResult execution' call' result error =>
            refine if_neg ?_
            rintro ⟨rfl, rfl⟩
            exact hother result error rfl
          | execute => rfl
          | shutdown => rfl
        refine ⟨_, none, .misled hother, ?_, by simp⟩
        simp only [dialogue, hreceive, dialogue_stopped, Option.toList_some, Option.toList_none, List.map_cons,
          List.map_nil, List.cons_append, List.nil_append, Option.elim_none]

/-- Every dialogue of a worker that has nothing to do is one that the protocol allows. -/
theorem session_dialogue (evaluate : Interpreter σ) :
    ∀ messages : List (HostMessage σ), Session evaluate messages (waiting.dialogue evaluate messages)
  | [] => .hungUp
  | .shutdown :: messages => by
    have hdialogue : waiting.dialogue evaluate (.shutdown :: messages) = [.toWorker .shutdown] :=
      congrArg (_ :: ·) (dialogue_stopped messages)
    rw [hdialogue]
    exact .shutdown
  | .callResult execution call result error :: messages => .dropped (session_dialogue evaluate messages)
  | .execute execution script context limits :: messages => by
    obtain ⟨part, left, hexecutes, hpart, hleft⟩ :=
      executes_proceed evaluate execution (evaluate script context limits) 0 messages
    have hdialogue : waiting.dialogue evaluate (.execute execution script context limits :: messages) =
        .toWorker (.execute execution script context limits) :: (part ++ left.elim [] (waiting.dialogue evaluate)) :=
      congrArg (_ :: ·) hpart
    rw [hdialogue]
    cases left with
    | none =>
      rw [Option.elim_none, List.append_nil]
      exact .ended hexecutes
    | some left =>
      -- the execution has taken its own message at least
      have hlt : left.length < (HostMessage.execute execution script context limits :: messages).length :=
        Nat.lt_succ_of_le (hleft left rfl)
      exact .executed hexecutes (session_dialogue evaluate left)
termination_by messages => messages.length
decreasing_by
  · exact Nat.lt_succ_self _
  · exact hlt

/-! ### What a worker sends over a link -/

/-- A worker that ends says nothing about it. -/
theorem receive_stopped {w : Worker} {m : HostMessage σ} {sent : Option WorkerMessage}
    (h : w.receive evaluate m = (stopped, sent)) : sent = none := by
  have proceed_stopped : ∀ {execution calls r}, proceed execution calls r = (stopped, sent) → sent = none := by
    intro execution calls r h
    cases r <;> cases h
    rfl
  unfold receive at h
  split at h
  · exact proceed_stopped h
  · cases h
  · cases h; rfl
  · split at h
    · exact proceed_stopped h
    · cases h; rfl
  · cases h; rfl
  · cases h
  · cases h; rfl

/-- A step of a dialogue. -/
theorem dialogue_cons {w : Worker} (m : HostMessage σ) (rest : List (HostMessage σ)) (hstopped : w ≠ stopped)
    (hspinning : w ≠ spinning) :
    w.dialogue evaluate (m :: rest) =
      .toWorker m :: ((w.receive evaluate m).2.toList.map .toHost ++ (w.receive evaluate m).1.dialogue evaluate rest) := by
  cases w with
  | waiting => rfl
  | calling => rfl
  | spinning => exact absurd rfl hspinning
  | stopped => exact absurd rfl hstopped

theorem dialogue_prefix (w : Worker) (first later : List (HostMessage σ)) :
    w.dialogue evaluate first <+: w.dialogue evaluate (first ++ later) := by
  induction first generalizing w with
  | nil =>
    rw [dialogue_nil]
    exact List.nil_prefix
  | cons m first ih =>
    by_cases hstopped : w = stopped
    · rw [hstopped, dialogue_stopped]
      exact List.nil_prefix
    by_cases hspinning : w = spinning
    · rw [hspinning, dialogue_spinning]
      exact List.nil_prefix
    rw [List.cons_append, dialogue_cons m _ hstopped hspinning, dialogue_cons m _ hstopped hspinning]
    exact (List.prefix_cons_inj _).mpr ((List.prefix_append_right_inj _).mpr (ih _))

/-- What a worker sends of a dialogue before its link breaks, if it breaks after so many messages. -/
def sentWithin (room : Option Nat) (dialogue : List (Message σ)) : List WorkerMessage :=
  let sent := dialogue.filterMap Message.sent?
  room.elim sent sent.take

theorem sentWithin_nil (room : Option Nat) : sentWithin room ([] : List (Message σ)) = [] := by
  cases room with
  | none => rfl
  | some n => exact List.take_nil

theorem sentWithin_toWorker (room : Option Nat) (m : HostMessage σ) (rest : List (Message σ)) :
    sentWithin room (.toWorker m :: rest) = sentWithin room rest :=
  rfl

theorem sentWithin_toHost (room : Option Nat) (m : WorkerMessage) (rest : List (Message σ)) :
    sentWithin room (.toHost m :: rest) =
      if room = some 0 then [] else m :: sentWithin (room.map (· - 1)) rest := by
  obtain _ | _ | n := room <;> rfl

/-- As long as its link lasts, a worker sends its part of the dialogue. -/
theorem serveFrom_sent (w : Worker) (room : Option Nat) (inbound : Inbound σ) :
    (w.serveFrom evaluate room inbound).sent = sentWithin room (w.dialogue evaluate inbound.messages) := by
  induction inbound generalizing w room with
  | nil => rw [Inbound.messages, dialogue_nil, sentWithin_nil, serveFrom]
  | cons first rest ih =>
    cases first with
    | error fault => rw [Inbound.messages, dialogue_nil, sentWithin_nil, serveFrom]
    | ok m =>
      rw [Inbound.messages]
      -- a worker that has stopped or spins says no more, whatever it is told
      by_cases hstopped : w = stopped
      · rw [hstopped, dialogue_stopped, sentWithin_nil]
        rfl
      by_cases hspinning : w = spinning
      · rw [hspinning, dialogue_spinning, sentWithin_nil]
        refine (ih spinning room).trans ?_
        rw [dialogue_spinning, sentWithin_nil]
      rw [dialogue_cons m _ hstopped hspinning, sentWithin_toWorker, serveFrom]
      split
      case h_1 sent hreceive =>
        obtain rfl := receive_stopped hreceive
        rw [hreceive, dialogue_stopped]
        exact (sentWithin_nil room).symm
      case h_2 w' _ hreceive =>
        rw [hreceive]
        exact ih w' room
      case h_3 w' sent _ hreceive =>
        rw [hreceive, Option.toList_some, List.map_singleton, List.singleton_append, sentWithin_toHost]
        split
        · rfl
        · exact congrArg (sent :: ·) (ih w' _)

/-- Whatever the host sends and whatever the scripts do, the dialogue is one that the protocol allows, what is said up to
a message does not depend on what comes later, and a worker sends its own announcement and then its part of the dialogue,
as far as its link lasts. -/
theorem serve_session (evaluate : Interpreter σ) (process : UInt32) (room : Option Nat) (inbound : Inbound σ) :
    let dialogue := waiting.dialogue evaluate
    Session evaluate inbound.messages (dialogue inbound.messages) ∧
      (∀ first later, dialogue first <+: dialogue (first ++ later)) ∧
      (serve evaluate process room inbound).sent =
        sentWithin room (.toHost (.ready process) :: dialogue inbound.messages) := by
  intro dialogue
  refine ⟨session_dialogue evaluate inbound.messages, waiting.dialogue_prefix, ?_⟩
  rw [sentWithin_toHost, serve]
  split
  · rfl
  · exact congrArg (.ready process :: ·) (serveFrom_sent waiting _ inbound)

end Worker
end RecordService
