import Mathlib.Data.List.Forall2
import RecordService.Store.Recorded

/-! # Events of a run

A run of a program is the list of its steps, each with the answer it got (`Program.events`). `Program.Runs` has the runs
for all answers at once; it goes apart along `bind`, so that what an operation does whatever the store answers follows
from what its parts do. -/

namespace RecordService

/-- A step as it went. -/
structure Event where
  step : Step
  reply : step.Answer

/-- The reply is one that the step gets in some state. -/
def Event.Follows {σ : Type} (answer : (step : Step) → σ → step.Answer × σ) (e : Event) : Prop :=
  ∃ state, e.reply = (answer e.step state).1

namespace Program

variable {α β σ : Type}

/-- The events of a run, in order. -/
def events (answer : (step : Step) → σ → step.Answer × σ) : Program α → σ → List Event
  | done _, _ => []
  | perform step next, state =>
    let (reply, state) := answer step state
    ⟨step, reply⟩ :: (next reply).events answer state

/-- The program may go by the events to the value. -/
inductive Runs : Program α → List Event → α → Prop
  | done (value : α) : Runs (.done value) [] value
  | perform {step : Step} {next : step.Answer → Program α} {events : List Event} {value : α} (reply : step.Answer) :
      Runs (next reply) events value → Runs (.perform step next) (⟨step, reply⟩ :: events) value

theorem runs_run (answer : (step : Step) → σ → step.Answer × σ) : ∀ (p : Program α) (state : σ),
    p.Runs (p.events answer state) (p.run answer state).1
  | done value, _ => .done value
  | perform step next, state => .perform (answer step state).1 (runs_run answer (next (answer step state).1) _)

theorem follows_of_mem_events (answer : (step : Step) → σ → step.Answer × σ) : ∀ (p : Program α) (state : σ),
    ∀ e ∈ p.events answer state, e.Follows answer
  | done _, _, _, he => absurd he List.not_mem_nil
  | perform step next, state, e, he => by
    rcases List.mem_cons.mp he with rfl | he
    · exact ⟨state, rfl⟩
    · exact follows_of_mem_events answer (next (answer step state).1) _ e he

theorem runs_done {value result : α} {events : List Event} :
    (done value).Runs events result ↔ events = [] ∧ result = value := by
  constructor
  · rintro ⟨⟩
    exact ⟨rfl, rfl⟩
  · rintro ⟨rfl, rfl⟩
    exact .done _

theorem runs_perform {step : Step} {next : step.Answer → Program α} {events : List Event} {result : α} :
    (perform step next).Runs events result ↔
      ∃ reply rest, (next reply).Runs rest result ∧ events = ⟨step, reply⟩ :: rest := by
  constructor
  · intro h
    cases h with
    | perform reply h => exact ⟨reply, _, h, rfl⟩
  · rintro ⟨reply, rest, h, rfl⟩
    exact .perform reply h

theorem runs_ask {step : Step} {events : List Event} {result : step.Answer} :
    (ask step).Runs events result ↔ events = [⟨step, result⟩] := by
  constructor
  · intro h
    obtain ⟨reply, rest, hdone, rfl⟩ := runs_perform.mp h
    obtain ⟨rfl, rfl⟩ := runs_done.mp hdone
    rfl
  · rintro rfl
    exact .perform result (.done result)

/-- A run of a sequence is a run of the first part and one of what follows. -/
theorem runs_bind {p : Program α} {f : α → Program β} {events : List Event} {result : β} :
    (p >>= f).Runs events result ↔
      ∃ before value after, p.Runs before value ∧ (f value).Runs after result ∧ events = before ++ after := by
  induction p generalizing events with
  | done value =>
    constructor
    · exact fun h => ⟨[], value, events, .done value, h, rfl⟩
    · rintro ⟨before, value', after, hfirst, hrest, rfl⟩
      obtain ⟨rfl, rfl⟩ := runs_done.mp hfirst
      exact hrest
  | perform step next ih =>
    constructor
    · intro h
      obtain ⟨reply, rest, hnext, rfl⟩ := runs_perform.mp h
      obtain ⟨before, value, after, hfirst, hrest, rfl⟩ := (ih reply).mp hnext
      exact ⟨_ :: before, value, after, .perform reply hfirst, hrest, rfl⟩
    · rintro ⟨before, value, after, hfirst, hrest, rfl⟩
      obtain ⟨reply, rest, hnext, rfl⟩ := runs_perform.mp hfirst
      exact .perform reply ((ih reply).mpr ⟨rest, value, after, hnext, hrest, rfl⟩)

end Program

namespace Operation

variable {α β σ : Type}

/-- The events of an operation's run, in order. -/
def events (answer : (step : Step) → σ → step.Answer × σ) (op : Operation α) (state : σ) : List Event :=
  Program.events answer (ExceptT.run op) state

/-- The result of an operation's run. -/
def result (answer : (step : Step) → σ → step.Answer × σ) (op : Operation α) (state : σ) : Except Error α :=
  (Program.run answer (ExceptT.run op) state).1

/-- The operation may go by the events to the result. -/
def Runs (op : Operation α) (events : List Event) (result : Except Error α) : Prop :=
  Program.Runs (ExceptT.run op) events result

theorem runs_result (answer : (step : Step) → σ → step.Answer × σ) (op : Operation α) (state : σ) :
    op.Runs (op.events answer state) (op.result answer state) :=
  Program.runs_run answer (ExceptT.run op) state

theorem follows_of_mem_events (answer : (step : Step) → σ → step.Answer × σ) (op : Operation α) (state : σ) :
    ∀ e ∈ op.events answer state, e.Follows answer :=
  Program.follows_of_mem_events answer (ExceptT.run op) state

variable {events : List Event} {result : Except Error α}

theorem runs_pure {a : α} : (pure a : Operation α).Runs events result ↔ events = [] ∧ result = .ok a :=
  Program.runs_done

theorem runs_throw {e : Error} : (throw e : Operation α).Runs events result ↔ events = [] ∧ result = .error e :=
  Program.runs_done

theorem runs_ofExcept {r : Except Error α} : (ofExcept r).Runs events result ↔ events = [] ∧ result = r :=
  Program.runs_done

/-- What can be checked before anything is asked decides how a sequence goes on. -/
theorem ofExcept_bind {β : Type} (r : Except Error α) (f : α → Operation β) :
    ofExcept r >>= f = match r with
      | .ok a => f a
      | .error e => throw e := by
  cases r <;> rfl

theorem runs_query {q : Query} {reply : Except Error Rows} :
    (query q).Runs events reply ↔ events = [⟨.query q, reply⟩] :=
  Program.runs_ask

theorem runs_change {c : Change} {reply : Except Error Outcome} :
    (change c).Runs events reply ↔ events = [⟨.change c, reply⟩] :=
  Program.runs_ask

theorem runs_ask {step : Step} {reply : Except Error step.Answer} :
    (ask step).Runs events reply ↔ ∃ answer, events = [⟨step, answer⟩] ∧ reply = .ok answer := by
  constructor
  · intro h
    obtain ⟨before, answer, after, hask, hdone, rfl⟩ := Program.runs_bind.mp h
    obtain rfl := Program.runs_ask.mp hask
    obtain ⟨rfl, rfl⟩ := Program.runs_done.mp hdone
    exact ⟨answer, rfl, rfl⟩
  · rintro ⟨answer, rfl, rfl⟩
    exact Program.runs_bind.mpr ⟨_, answer, [], Program.runs_ask.mpr rfl, .done _, rfl⟩

/-- A sequence fails in its first part, or goes on with the value of it. -/
theorem runs_bind {op : Operation α} {f : α → Operation β} {result : Except Error β} :
    (op >>= f).Runs events result ↔
      (∃ e, op.Runs events (.error e) ∧ result = .error e) ∨
        ∃ before value after, op.Runs before (.ok value) ∧ (f value).Runs after result ∧ events = before ++ after := by
  constructor
  · intro h
    obtain ⟨before, value, after, hfirst, hrest, rfl⟩ := Program.runs_bind.mp h
    cases value with
    | ok a => exact Or.inr ⟨before, a, after, hfirst, hrest, rfl⟩
    | error e =>
      obtain ⟨rfl, rfl⟩ := Program.runs_done.mp hrest
      exact Or.inl ⟨e, (List.append_nil before).symm ▸ hfirst, rfl⟩
  · rintro (⟨e, hfirst, rfl⟩ | ⟨before, value, after, hfirst, hrest, rfl⟩)
    · exact Program.runs_bind.mpr ⟨events, .error e, [], hfirst, .done _, (List.append_nil events).symm⟩
    · exact Program.runs_bind.mpr ⟨before, .ok value, after, hfirst, hrest, rfl⟩

/-- A sequence succeeds if both of its parts do. -/
theorem runs_bind_ok {op : Operation α} {f : α → Operation β} {b : β} :
    (op >>= f).Runs events (.ok b) ↔
      ∃ before value after, op.Runs before (.ok value) ∧ (f value).Runs after (.ok b) ∧ events = before ++ after := by
  rw [runs_bind]
  constructor
  · rintro (⟨_, -, habsurd⟩ | h)
    · cases habsurd
    · exact h
  · exact Or.inr

/-- What is refused under a condition succeeds only without it. -/
theorem runs_unless_ok {c : Prop} [Decidable c] {e : Error} {rest : PUnit → Operation α} {a : α} :
    (if c then throw e >>= rest else rest ⟨⟩).Runs events (.ok a) ↔ ¬c ∧ (rest ⟨⟩).Runs events (.ok a) := by
  by_cases hc : c
  · rw [if_pos hc]
    constructor
    · intro h
      obtain ⟨_, _, _, hthrow, -⟩ := runs_bind_ok.mp h
      cases (runs_throw.mp hthrow).2
    · exact fun h => absurd hc h.1
  · rw [if_neg hc]
    exact ⟨fun h => ⟨hc, h⟩, fun h => h.2⟩

theorem runs_begin {reply : Except Error Unit} : begin.Runs events reply ↔ events = [⟨.begin, reply⟩] :=
  Program.runs_ask

theorem runs_commit {reply : Except Error Unit} : commit.Runs events reply ↔ events = [⟨.commit, reply⟩] :=
  Program.runs_ask

/-- What is tried succeeds, or fails and goes on with what is done about the failure. -/
theorem runs_tryCatch {op : Operation α} {handle : Error → Operation α} :
    (tryCatch op handle).Runs events result ↔
      (∃ value, op.Runs events (.ok value) ∧ result = .ok value) ∨
        ∃ before e after, op.Runs before (.error e) ∧ (handle e).Runs after result ∧ events = before ++ after := by
  constructor
  · intro h
    obtain ⟨before, outcome, after, hop, hrest, rfl⟩ := Program.runs_bind.mp h
    cases outcome with
    | ok value =>
      obtain ⟨rfl, rfl⟩ := Program.runs_done.mp hrest
      exact Or.inl ⟨value, (List.append_nil before).symm ▸ hop, rfl⟩
    | error e => exact Or.inr ⟨before, e, after, hop, hrest, rfl⟩
  · rintro (⟨value, hop, rfl⟩ | ⟨before, e, after, hop, hrest, rfl⟩)
    · exact Program.runs_bind.mpr ⟨events, .ok value, [], hop, .done _, (List.append_nil events).symm⟩
    · exact Program.runs_bind.mpr ⟨before, .error e, after, hop, hrest, rfl⟩

/-- How a transaction may go, by its events and its result. It may not begin; its work may fail, and is then rolled
back; and what has been done is committed, or cannot be. -/
inductive Transacts (work : Operation α) : List Event → Except Error α → Prop
  | unopened (e : Error) : Transacts work [⟨.begin, .error e⟩] (.error e)
  | rolledBack {body : List Event} {e : Error} :
      work.Runs body (.error e) → Transacts work (⟨.begin, .ok ()⟩ :: body ++ [⟨.rollback, ()⟩]) (.error e)
  | uncommitted {body : List Event} {value : α} (e : Error) :
      work.Runs body (.ok value) → Transacts work (⟨.begin, .ok ()⟩ :: body ++ [⟨.commit, .error e⟩]) (.error e)
  | committed {body : List Event} {value : α} :
      work.Runs body (.ok value) → Transacts work (⟨.begin, .ok ()⟩ :: body ++ [⟨.commit, .ok ()⟩]) (.ok value)

theorem transacts_of_runs {work : Operation α} (h : (transaction work).Runs events result) :
    Transacts work events result := by
  obtain ⟨e, hbegin, rfl⟩ | ⟨_, _, _, hbegin, hopen, rfl⟩ := runs_bind.mp h
  · obtain rfl := runs_begin.mp hbegin
    exact .unopened e
  obtain rfl := runs_begin.mp hbegin
  obtain ⟨e, hwork, rfl⟩ | ⟨body, value, _, hwork, hend, rfl⟩ := runs_bind.mp hopen
  · -- the failure that comes out of the attempt is the one that the rollback has passed on
    obtain ⟨_, -, habsurd⟩ | ⟨body, _, _, hbody, hhandled, rfl⟩ := runs_tryCatch.mp hwork
    · cases habsurd
    obtain ⟨_, hrollback, -⟩ | ⟨_, _, _, hrollback, hthrow, rfl⟩ := runs_bind.mp hhandled
    · obtain ⟨_, -, habsurd⟩ := runs_ask.mp hrollback
      cases habsurd
    obtain ⟨_, rfl, -⟩ := runs_ask.mp hrollback
    obtain ⟨rfl, hfailure⟩ := runs_throw.mp hthrow
    obtain rfl := Except.error.inj hfailure
    exact .rolledBack hbody
  have hbody : work.Runs body (.ok value) := by
    obtain ⟨_, hbody, hvalue⟩ | ⟨_, _, _, -, hhandled, -⟩ := runs_tryCatch.mp hwork
    · exact hvalue ▸ hbody
    · obtain ⟨_, _, _, -, hthrow, -⟩ := runs_bind_ok.mp hhandled
      cases (runs_throw.mp hthrow).2
  obtain ⟨e, hcommit, rfl⟩ | ⟨_, _, _, hcommit, hdone, rfl⟩ := runs_bind.mp hend
  · obtain rfl := runs_commit.mp hcommit
    exact .uncommitted e hbody
  · obtain rfl := runs_commit.mp hcommit
    obtain ⟨rfl, rfl⟩ := runs_pure.mp hdone
    exact .committed hbody

end Operation

/-! ### Events of one item after the other -/

/-- The events fall into parts, one for each item, in the order of the items. -/
inductive Event.Each {ι : Type} (P : ι → List Event → Prop) : List ι → List Event → Prop
  | nil : Each P [] []
  | cons {item : ι} {items : List ι} {part events : List Event} :
      P item part → Each P items events → Each P (item :: items) (part ++ events)

namespace Event.Each

variable {ι β : Type} {P : ι → List Event → Prop} {items : List ι} {events : List Event}

/-- Each event belongs to the part of an item. -/
theorem item_of_mem (h : Each P items events) {event : Event} (hevent : event ∈ events) :
    ∃ item ∈ items, ∃ part, P item part ∧ event ∈ part := by
  induction h with
  | nil => cases hevent
  | @cons first items part events hfirst _ ih =>
    rcases List.mem_append.mp hevent with hevent | hevent
    · exact ⟨first, List.mem_cons_self, part, hfirst, hevent⟩
    · obtain ⟨item, hitem, own, hown, hmem⟩ := ih hevent
      exact ⟨item, List.mem_cons_of_mem first hitem, own, hown, hmem⟩

/-- Each item has a part of the events. -/
theorem part_of_mem (h : Each P items events) {item : ι} (hitem : item ∈ items) :
    ∃ part, P item part ∧ part ⊆ events := by
  induction h with
  | nil => cases hitem
  | @cons first items part events hfirst _ ih =>
    rcases List.mem_cons.mp hitem with rfl | hitem
    · exact ⟨part, hfirst, List.subset_append_left _ _⟩
    · obtain ⟨own, hown, hsubset⟩ := ih hitem
      exact ⟨own, hown, List.Subset.trans hsubset (List.subset_append_right _ _)⟩

/-- What is read off the events is what is read off each part. -/
theorem filterMap_eq (h : Each P items events) {f : Event → Option β} {g : ι → List β}
    (hf : ∀ item ∈ items, ∀ part, P item part → part.filterMap f = g item) : events.filterMap f = items.flatMap g := by
  induction h with
  | nil => rfl
  | @cons first items part events hfirst _ ih =>
    rw [List.filterMap_append, List.flatMap_cons, hf first List.mem_cons_self part hfirst,
      ih fun item hitem => hf item (List.mem_cons_of_mem first hitem)]

/-- Where one thing is read off each part, there is one for each item. -/
theorem forall₂_filterMap (h : Each P items events) {f : Event → Option β} {Q : ι → β → Prop}
    (hf : ∀ item part, P item part → ∃ b, part.filterMap f = [b] ∧ Q item b) :
    List.Forall₂ Q items (events.filterMap f) := by
  induction h with
  | nil => exact .nil
  | @cons first items part events hfirst _ ih =>
    obtain ⟨b, hb, hq⟩ := hf first part hfirst
    rw [List.filterMap_append, hb]
    exact .cons hq ih

/-- The part of an item in the middle. -/
theorem split {item : ι} {after : List ι} :
    ∀ {before : List ι} {events : List Event}, Each P (before ++ item :: after) events →
      ∃ first part last, events = first ++ part ++ last ∧ Each P before first ∧ P item part ∧ Each P after last
  | [], _, .cons hpart hrest => ⟨[], _, _, rfl, .nil, hpart, hrest⟩
  | _ :: _, _, .cons hfirst hrest => by
    obtain ⟨first, part, last, rfl, hbefore, hpart, hafter⟩ := split hrest
    exact ⟨_ ++ first, part, last, by simp only [List.append_assoc], .cons hfirst hbefore, hpart, hafter⟩

end Event.Each

namespace Operation

variable {α β : Type}

/-! ### Operations that ask for some steps only -/

/-- Whatever the answers, the operation performs none but such steps. -/
structure OnlyAsks (op : Operation α) (P : Step → Prop) : Prop where
  steps : ∀ events result, op.Runs events result → ∀ e ∈ events, P e.step

namespace OnlyAsks

variable {P : Step → Prop} {op : Operation α}

theorem pure (a : α) : OnlyAsks (pure a) P := by
  refine ⟨fun events result hruns e he => ?_⟩
  obtain ⟨rfl, -⟩ := runs_pure.mp hruns
  cases he

theorem throw (e : Error) : OnlyAsks (throw e : Operation α) P := by
  refine ⟨fun events result hruns e he => ?_⟩
  obtain ⟨rfl, -⟩ := runs_throw.mp hruns
  cases he

theorem ofExcept (r : Except Error α) : OnlyAsks (ofExcept r) P := by
  refine ⟨fun events result hruns e he => ?_⟩
  obtain ⟨rfl, -⟩ := runs_ofExcept.mp hruns
  cases he

theorem ask {step : Step} (h : P step) : OnlyAsks (ask step) P := by
  refine ⟨fun events result hruns e he => ?_⟩
  obtain ⟨answer, rfl, -⟩ := runs_ask.mp hruns
  rw [List.mem_singleton.mp he]
  exact h

theorem query {q : Query} (h : P (.query q)) : OnlyAsks (query q) P := by
  refine ⟨fun events result hruns e he => ?_⟩
  obtain rfl := runs_query.mp hruns
  rw [List.mem_singleton.mp he]
  exact h

theorem change {c : Change} (h : P (.change c)) : OnlyAsks (change c) P := by
  refine ⟨fun events result hruns e he => ?_⟩
  obtain rfl := runs_change.mp hruns
  rw [List.mem_singleton.mp he]
  exact h

theorem bind {f : α → Operation β} (h : op.OnlyAsks P) (hf : ∀ a, (f a).OnlyAsks P) : (op >>= f).OnlyAsks P := by
  refine ⟨fun events result hruns e he => ?_⟩
  rcases runs_bind.mp hruns with ⟨error, hfirst, -⟩ | ⟨before, value, after, hfirst, hrest, rfl⟩
  · exact h.steps _ _ hfirst e he
  · rcases List.mem_append.mp he with he | he
    · exact h.steps _ _ hfirst e he
    · exact (hf value).steps _ _ hrest e he

theorem transaction (h : op.OnlyAsks P) (hbegin : P .begin) (hcommit : P .commit) (hrollback : P .rollback) :
    (transaction op).OnlyAsks P := by
  refine ⟨fun events result hruns e he => ?_⟩
  have between {body : List Event} {outcome : Except Error α} {first last : Event} (hbody : op.Runs body outcome)
      (hfirst : P first.step) (hlast : P last.step) (he : e ∈ first :: body ++ [last]) : P e.step := by
    simp only [List.cons_append, List.mem_cons, List.mem_append, List.not_mem_nil, or_false] at he
    rcases he with rfl | he | rfl
    · exact hfirst
    · exact h.steps _ _ hbody e he
    · exact hlast
  cases transacts_of_runs hruns with
  | unopened =>
    obtain rfl := List.mem_singleton.mp he
    exact hbegin
  | rolledBack hbody => exact between hbody hbegin hrollback he
  | uncommitted _ hbody => exact between hbody hbegin hcommit he
  | committed hbody => exact between hbody hbegin hcommit he

theorem mono {Q : Step → Prop} (h : op.OnlyAsks P) (hpq : ∀ step, P step → Q step) : op.OnlyAsks Q :=
  ⟨fun events result hruns e he => hpq e.step (h.steps events result hruns e he)⟩

theorem ite {c : Prop} [Decidable c] {other : Operation α} (h : op.OnlyAsks P) (ho : other.OnlyAsks P) :
    (if c then op else other).OnlyAsks P := by
  split
  · exact h
  · exact ho

end OnlyAsks

/-- What follows an operation that changes nothing has made the changes. -/
theorem runs_bind_of_change {op : Operation α} {f : α → Operation β} {events : List Event} {result : Except Error β}
    (hop : op.OnlyAsks (∀ c, · ≠ .change c)) (h : (op >>= f).Runs events result) {c : Change}
    {reply : Except Error Outcome} (hchange : ⟨.change c, reply⟩ ∈ events) :
    ∃ before value after, op.Runs before (.ok value) ∧ (f value).Runs after result ∧ ⟨.change c, reply⟩ ∈ after ∧
      events = before ++ after := by
  obtain ⟨e, hfirst, -⟩ | ⟨before, value, after, hfirst, hrest, rfl⟩ := runs_bind.mp h
  · exact absurd rfl (hop.steps _ _ hfirst _ hchange c)
  · have hafter := (List.mem_append.mp hchange).resolve_left fun hbefore => hop.steps _ _ hfirst _ hbefore c rfl
    exact ⟨before, value, after, hfirst, hrest, hafter, rfl⟩

/-! ### Operations that fail only with the store -/

/-- Whatever the answers, a failure of the operation is that of one of its queries. -/
structure Relays (op : Operation α) : Prop where
  failures : ∀ events e, op.Runs events (.error e) → ∃ q, ⟨.query q, .error e⟩ ∈ events

namespace Relays

variable {op : Operation α}

theorem pure (a : α) : Relays (pure a) := by
  refine ⟨fun events e hruns => ?_⟩
  cases (runs_pure.mp hruns).2

theorem ask (step : Step) : Relays (ask step) := by
  refine ⟨fun events e hruns => ?_⟩
  obtain ⟨answer, -, habsurd⟩ := runs_ask.mp hruns
  cases habsurd

theorem query (q : Query) : Relays (query q) := by
  refine ⟨fun events e hruns => ⟨q, ?_⟩⟩
  rw [runs_query.mp hruns]
  exact List.mem_cons_self

theorem bind {f : α → Operation β} (h : op.Relays) (hf : ∀ a, (f a).Relays) : (op >>= f).Relays := by
  refine ⟨fun events e hruns => ?_⟩
  rcases runs_bind.mp hruns with ⟨_, hfirst, he⟩ | ⟨before, value, after, hfirst, hrest, rfl⟩
  · obtain rfl := Except.error.inj he
    exact h.failures _ _ hfirst
  · obtain ⟨q, hmem⟩ := (hf value).failures _ _ hrest
    exact ⟨q, List.mem_append_right before hmem⟩

theorem ite {c : Prop} [Decidable c] {other : Operation α} (h : op.Relays) (ho : other.Relays) :
    (if c then op else other).Relays := by
  split
  · exact h
  · exact ho

end Relays
end Operation

/-! ### Sessions -/

namespace Event

/-- What a session writes down of an event. -/
def entry? (e : Event) : Option LogEntry :=
  match e.step with
  | .query q => some (.query q)
  | .change c => some (.change c)
  | .begin => some .begin
  | .commit => some .commit
  | .rollback => some .rollback
  | .catalog | .invalidate _ | .ended _ => none

/-- The scope that an event makes stale. -/
def staleScope? (e : Event) : Option String :=
  match e.step with
  | .invalidate scope => some scope
  | .catalog | .query _ | .change _ | .begin | .commit | .rollback | .ended _ => none

end Event

/-- Whether a transaction is committed by the event. -/
def Event.isCommit : Event → Bool
  | ⟨.commit, .ok ()⟩ => true
  | _ => false

theorem Event.commit_mem_iff {events : List Event} : ⟨.commit, .ok ()⟩ ∈ events ↔ events.any isCommit = true := by
  rw [List.any_eq_true]
  constructor
  · exact fun h => ⟨_, h, rfl⟩
  · rintro ⟨⟨step, reply⟩, hmem, hcommit⟩
    cases step with
    | commit =>
      cases reply with
      | ok _ => exact hmem
      | error _ => cases hcommit
    | _ => cases hcommit

namespace Program

variable {α : Type}

theorem log_run : ∀ (p : Program α) (s : Session),
    (p.run Session.answer s).2.log = s.log ++ (p.events Session.answer s).filterMap Event.entry?
  | .done _, s => (List.append_nil s.log).symm
  | .perform step next, s => by
    rw [run, events, log_run (next (Session.answer step s).1), List.filterMap_cons]
    cases step <;> simp [Session.answer, Event.entry?, Session.note, Session.reply]

theorem cache_run : ∀ (p : Program α) (s : Session),
    (p.run Session.answer s).2.cache =
      ((p.events Session.answer s).filterMap Event.staleScope?).foldl ScopedCache.invalidate s.cache
  | .done _, _ => rfl
  | .perform step next, s => by
    rw [run, events, cache_run (next (Session.answer step s).1), List.filterMap_cons]
    cases step <;> simp [Session.answer, Event.staleScope?, Session.note, Session.reply]

/-- The catalog of a session stays the same while an operation runs. -/
theorem catalog_of_mem : ∀ (p : Program α) (s : Session) (c : Catalog),
    ⟨.catalog, c⟩ ∈ p.events Session.answer s → c = s.source.current
  | .done _, _, _, h => absurd h List.not_mem_nil
  | .perform step next, s, c, h => by
    rcases List.mem_cons.mp h with h | h
    · cases h
      rfl
    · rw [catalog_of_mem _ _ c h]
      cases step <;> rfl

end Program

/-- Queries of a session fail for the reasons that its replies give. -/
theorem Session.failure_of_follows {q : Query} {e : Error}
    (h : (⟨.query q, .error e⟩ : Event).Follows Session.answer) : ∃ reason, e = .argument (.other reason) := by
  obtain ⟨s, hreply⟩ := h
  replace hreply : Except.error e = ((s.note (.query q)).reply).1.rows := hreply
  cases hnext : ((s.note (.query q)).reply).1 with
  | fail reason =>
    rw [hnext] at hreply
    exact ⟨reason, Except.error.inj hreply⟩
  | success rows outcome =>
    rw [hnext] at hreply
    cases hreply

/-- The log of a session and its cache are what the events of its operation make of them. -/
theorem Session.run_spec {α : Type} (s : Session) (op : Operation α) :
    (s.run op).1 = op.result answer s ∧
    (s.run op).2.log = s.log ++ (op.events answer s).filterMap Event.entry? ∧
    (s.run op).2.cache = ((op.events answer s).filterMap Event.staleScope?).foldl ScopedCache.invalidate s.cache :=
  ⟨rfl, Program.log_run (ExceptT.run op) s, Program.cache_run (ExceptT.run op) s⟩

end RecordService
