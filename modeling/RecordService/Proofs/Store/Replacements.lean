import RecordService.Proofs.Store.Events
import RecordService.Store.Replaced

/-! # Runs under replacements

Others may replace the catalog between any two steps of an operation (`Replacing`). An operation that looks at the
catalog first and never again (`Operation.ReadsOnce`) shows the same as if the catalog it found had stayed
(`Operation.Undisturbed`), and leaves the store in the same state. -/

namespace RecordService

namespace Program

variable {α β γ σ : Type}

theorem bind_done (p : Program α) : p.bind done = p := by
  induction p with
  | done value => rfl
  | perform step next ih => exact congrArg (perform step) (funext ih)

theorem bind_bind (p : Program α) (f : α → Program β) (g : β → Program γ) :
    (p.bind f).bind g = p.bind fun a => (f a).bind g := by
  induction p with
  | done value => rfl
  | perform step next ih => exact congrArg (perform step) (funext ih)

instance : LawfulMonad Program :=
  LawfulMonad.mk' Program bind_done (fun _ _ => rfl) bind_bind

variable (answer : (step : Step) → σ → step.Answer × σ)

theorem run_bind (f : α → Program β) : ∀ (p : Program α) (s : σ),
    (p >>= f).run answer s = (f (p.run answer s).1).run answer (p.run answer s).2
  | done _, _ => rfl
  | perform step next, s => run_bind f (next (answer step s).1) (answer step s).2

theorem events_bind (f : α → Program β) : ∀ (p : Program α) (s : σ),
    (p >>= f).events answer s =
      p.events answer s ++ (f (p.run answer s).1).events answer (p.run answer s).2
  | done _, _ => rfl
  | perform step next, s => congrArg (_ :: ·) (events_bind f (next (answer step s).1) (answer step s).2)

end Program

/-- A look at the catalog. -/
def Step.isLook : Step → Bool
  | catalog => true
  | query _ | change _ | begin | commit | rollback | invalidate _ | ended _ => false

namespace Operation

variable {α β σ : Type} (answer : (step : Step) → σ → step.Answer × σ)

/-- The state that an operation's run leaves. -/
def after (op : Operation α) (s : σ) : σ :=
  (Program.run answer (ExceptT.run op) s).2

/-- What is seen of an operation: what it asks of the store and the cache, with the answers, and its result. -/
def shown (op : Operation α) (s : σ) : List Event × Except Error α :=
  ((op.events answer s).filter fun e => !e.step.isLook, op.result answer s)

/-- Replacements make no difference: the operation looks at the catalog first, and shows what it would show if the one
that it finds stayed. -/
def Undisturbed (op : Operation α) (s : Replacing σ) : Prop :=
  ∃ (catalog : Catalog) (rest : List Event), op.events (Replacing.answer answer) s = ⟨.catalog, catalog⟩ :: rest ∧
    op.shown (Replacing.answer answer) s = op.shown (holding catalog answer) s.store

/-! ### Sequences -/

variable {answer} {op : Operation α} {f : α → Operation β} {s : σ}

theorem run_bind (op : Operation α) (f : α → Operation β) : ExceptT.run (op >>= f) = ExceptT.run op >>= fun
    | .ok a => ExceptT.run (f a)
    | .error e => pure (.error e) := by
  refine congrArg (ExceptT.run op >>= ·) (funext fun a => ?_)
  cases a <;> rfl

theorem events_bind_error {e : Error} (h : op.result answer s = .error e) :
    (op >>= f).events answer s = op.events answer s := by
  unfold result at h
  unfold events
  rw [run_bind, Program.events_bind, h]
  exact List.append_nil _

theorem result_bind_error {e : Error} (h : op.result answer s = .error e) :
    (op >>= f).result answer s = .error e := by
  unfold result at h ⊢
  rw [run_bind, Program.run_bind, h]
  rfl

theorem events_bind_ok {a : α} (h : op.result answer s = .ok a) :
    (op >>= f).events answer s = op.events answer s ++ (f a).events answer (op.after answer s) := by
  unfold result at h
  unfold events
  rw [run_bind, Program.events_bind, h]
  rfl

theorem result_bind_ok {a : α} (h : op.result answer s = .ok a) :
    (op >>= f).result answer s = (f a).result answer (op.after answer s) := by
  unfold result at h ⊢
  rw [run_bind, Program.run_bind, h]
  rfl

/-- A failure of the first part is all that is seen. -/
theorem shown_bind_error {e : Error} (h : op.result answer s = .error e) :
    (op >>= f).shown answer s = ((op.shown answer s).1, .error e) :=
  Prod.ext (congrArg (List.filter _) (events_bind_error h)) (result_bind_error h)

theorem shown_bind_ok {a : α} (h : op.result answer s = .ok a) :
    (op >>= f).shown answer s =
      ((op.shown answer s).1 ++ ((f a).shown answer (op.after answer s)).1,
        ((f a).shown answer (op.after answer s)).2) :=
  Prod.ext ((congrArg (List.filter _) (events_bind_ok h)).trans (List.filter_append ..)) (result_bind_ok h)

theorem after_bind_ok {a : α} (h : op.result answer s = .ok a) :
    (op >>= f).after answer s = (f a).after answer (op.after answer s) := by
  unfold result at h
  unfold after
  rw [run_bind, Program.run_bind, h]

end Operation

/-! ### Programs that do not look -/

/-- A program goes the same way under replacements and with one catalog. -/
structure Program.Unaware {α σ : Type} (answer : (step : Step) → σ → step.Answer × σ) (catalog : Catalog)
    (p : Program α) (s : Replacing σ) : Prop where
  events : p.events (Replacing.answer answer) s = p.events (holding catalog answer) s.store
  value : (p.run (Replacing.answer answer) s).1 = (p.run (holding catalog answer) s.store).1
  store : (p.run (Replacing.answer answer) s).2.store = (p.run (holding catalog answer) s.store).2

theorem Program.unaware {α σ : Type} (answer : (step : Step) → σ → step.Answer × σ) (catalog : Catalog) :
    ∀ (p : Program α) (s : Replacing σ), (∀ e ∈ p.events (Replacing.answer answer) s, e.step.isLook = false) →
      p.Unaware answer catalog s
  | .done _, _, _ => ⟨rfl, rfl, rfl⟩
  | .perform step next, s, hlooks => by
    have hstep : step.isLook = false := hlooks _ List.mem_cons_self
    -- taken before the cases, after which `next` is no part of the program any more
    have ih (reply : step.Answer) (t : Replacing σ) := unaware answer catalog (next reply) t
    cases step with
    | catalog => cases hstep
    | query | change | begin | commit | rollback | invalidate | ended =>
      have hrest := ih _ _ fun e he => hlooks e (List.mem_cons_of_mem _ he)
      exact ⟨congrArg (_ :: ·) hrest.events, hrest.value, hrest.store⟩

namespace Operation

variable {α β σ : Type} {op : Operation α}

/-! ### Operations that look first -/

/-- The operation begins with a look at the catalog. -/
def LooksFirst (op : Operation α) : Prop :=
  ∃ f : Catalog → Operation α, op = ask .catalog >>= f

namespace LooksFirst

theorem bind (h : op.LooksFirst) (f : α → Operation β) : (op >>= f).LooksFirst := by
  obtain ⟨g, rfl⟩ := h
  exact ⟨fun catalog => g catalog >>= f, bind_assoc _ _ _⟩

/-- The catalog that is found is the one in force at the start. -/
theorem undisturbed_iff (h : op.LooksFirst) (answer : (step : Step) → σ → step.Answer × σ) (s : Replacing σ) :
    op.Undisturbed answer s ↔ op.shown (Replacing.answer answer) s = op.shown (holding s.current answer) s.store := by
  obtain ⟨f, rfl⟩ := h
  have hevents : (ask .catalog >>= f).events (Replacing.answer answer) s =
      ⟨.catalog, s.current⟩ :: (f s.current).events (Replacing.answer answer) s.advance :=
    events_bind_ok (a := s.current) rfl
  constructor
  · rintro ⟨catalog, rest, hfirst, hshown⟩
    obtain ⟨hevent, -⟩ := List.cons.inj (hevents.symm.trans hfirst)
    cases hevent
    exact hshown
  · exact fun hshown => ⟨s.current, _, hevents, hshown⟩

theorem result_eq (h : op.LooksFirst) {answer : (step : Step) → σ → step.Answer × σ} {s : Replacing σ}
    (hundisturbed : op.Undisturbed answer s) :
    op.result (Replacing.answer answer) s = op.result (holding s.current answer) s.store :=
  congrArg Prod.snd ((h.undisturbed_iff answer s).mp hundisturbed)

end LooksFirst

/-- The operation looks at the catalog first, and never again. -/
def ReadsOnce (op : Operation α) : Prop :=
  ∃ f : Catalog → Operation α, op = ask .catalog >>= f ∧ ∀ catalog, (f catalog).OnlyAsks (·.isLook = false)

namespace ReadsOnce

theorem looksFirst (h : op.ReadsOnce) : op.LooksFirst := by
  obtain ⟨f, hop, -⟩ := h
  exact ⟨f, hop⟩

theorem bind {f : α → Operation β} (h : op.ReadsOnce) (hf : ∀ a, (f a).OnlyAsks (·.isLook = false)) :
    (op >>= f).ReadsOnce := by
  obtain ⟨g, rfl, hg⟩ := h
  exact ⟨fun catalog => g catalog >>= f, bind_assoc _ _ _, fun catalog => (hg catalog).bind hf⟩

variable (h : op.ReadsOnce) (answer : (step : Step) → σ → step.Answer × σ) (s : Replacing σ)
include h

/-- What is shown and the state in which the store is left are those of the catalog in force at the start. -/
theorem shown_store_eq :
    op.shown (Replacing.answer answer) s = op.shown (holding s.current answer) s.store ∧
    (op.after (Replacing.answer answer) s).store = op.after (holding s.current answer) s.store := by
  obtain ⟨f, rfl, hf⟩ := h
  have hrest := Program.unaware answer s.current (ExceptT.run (f s.current)) s.advance
    ((hf s.current).steps _ _ (runs_result ..))
  rw [shown_bind_ok (a := s.current) rfl, shown_bind_ok (a := s.current) rfl, after_bind_ok (a := s.current) rfl,
    after_bind_ok (a := s.current) rfl]
  exact ⟨Prod.ext (congrArg (List.filter _) hrest.events) hrest.value, hrest.store⟩

theorem undisturbed : op.Undisturbed answer s :=
  (h.looksFirst.undisturbed_iff answer s).mpr (h.shown_store_eq answer s).1

end ReadsOnce
end Operation

end RecordService
