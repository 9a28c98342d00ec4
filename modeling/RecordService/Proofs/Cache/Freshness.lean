import Mathlib.Data.List.Perm.Basic
import Mathlib.Data.List.Nodup
import Mathlib.Data.List.Pairwise
import RecordService.Cache.Use

/-! # Values from a cache are fresh

Whatever the order of the steps of the calls and of the invalidations, each entry was loaded by a loader that began after
its scope was last made stale (`Fresh`). What carries this is the generation of a scope, which is the number of its
invalidations so far: a call keeps its value only if there was none since it looked its key up, and its loader began
later than that. -/

namespace RecordService

namespace CacheEvent

variable {ε : Type}

/-- Whether the event makes a scope stale. -/
def invalidates (scope : String) : CacheEvent ε → Bool
  | invalidated s => s == scope
  | _ => false

/-- The call that the event ends after its loader. -/
def ended? : CacheEvent ε → Option Nat
  | failed call _ => some call
  | returned call _ _ _ _ => some call
  | _ => none

theorem countP_invalidates_eq_zero {scope : String} {history : List (CacheEvent ε)} :
    history.countP (invalidates scope) = 0 ↔ .invalidated scope ∉ history := by
  rw [List.countP_eq_zero]
  constructor
  · intro h hmem
    exact h _ hmem (beq_self_eq_true scope)
  · intro h e he hstale
    cases e with
    | invalidated s =>
      obtain rfl := beq_iff_eq.mp hstale
      exact h he
    | _ => cases hstale

end CacheEvent

open CacheEvent

variable {ε : Type} {history earlier : List (CacheEvent ε)} {scope key : String} {value : Json}

/-- The value of a key was loaded by a loader that began after the scope was last made stale, and nothing was kept for
the key since it was. -/
def Fresh (history : List (CacheEvent ε)) (scope key : String) (value : Json) : Prop :=
  ∃ call later middle before,
    history = later ++ .returned call scope key value true :: (middle ++ .began call :: before) ∧
    .miss call scope key ∈ before ∧ .loaded call value ∈ middle ∧ .invalidated scope ∉ later ++ middle ∧
    ∀ other v, .returned other scope key v true ∉ later

theorem Fresh.cons (h : Fresh history scope key value) {e : CacheEvent ε} (hstale : e ≠ .invalidated scope)
    (hkept : ∀ other v, e ≠ .returned other scope key v true) : Fresh (e :: history) scope key value := by
  obtain ⟨call, later, middle, before, rfl, hmiss, hloaded, hnone, hlast⟩ := h
  refine ⟨call, e :: later, middle, before, rfl, hmiss, hloaded, ?_, fun other v hmem => ?_⟩
  · rw [List.cons_append, List.mem_cons, not_or]
    exact ⟨hstale.symm, hnone⟩
  · rcases List.mem_cons.mp hmem with heq | hmem
    · exact hkept other v heq.symm
    · exact hlast other v hmem

/-- What a call that loads has gone through since it found nothing. -/
def LoadStage.Reached (call : Nat) (since : List (CacheEvent ε)) : LoadStage → Prop
  | due => True
  | running => .began call ∈ since
  | loaded value => ∃ middle rest, since = middle ++ .began call :: rest ∧ .loaded call value ∈ middle

theorem LoadStage.Reached.cons {call : Nat} {since : List (CacheEvent ε)} {stage : LoadStage}
    (h : stage.Reached call since) (e : CacheEvent ε) : stage.Reached call (e :: since) := by
  cases stage with
  | due => trivial
  | running => exact List.mem_cons_of_mem e h
  | loaded value =>
    obtain ⟨middle, rest, rfl, hloaded⟩ := h
    exact ⟨e :: middle, rest, rfl, List.mem_cons_of_mem e hloaded⟩

/-- The call found nothing at some time, and has its generation from then. -/
def CacheCall.Underway (c : CacheCall) (history : List (CacheEvent ε)) : Prop :=
  ∃ since before, history = since ++ .miss c.number c.scope c.key :: before ∧
    c.generation = before.countP (invalidates c.scope) ∧ c.stage.Reached c.number since

theorem CacheCall.Underway.cons {c : CacheCall} (h : c.Underway history) (e : CacheEvent ε) :
    c.Underway (e :: history) := by
  obtain ⟨since, before, rfl, hgeneration, hstage⟩ := h
  exact ⟨e :: since, before, rfl, hgeneration, hstage.cons e⟩

/-- What is returned is fresh, or what the call's own loader gave; that is kept if the scope was not made stale since the
call looked its key up. -/
def CacheEvent.Right (e : CacheEvent ε) (earlier : List (CacheEvent ε)) : Prop :=
  match e with
  | hit _ scope key value => Fresh earlier scope key value
  | returned call scope key value kept =>
    ∃ since before, earlier = since ++ .miss call scope key :: before ∧ .loaded call value ∈ since ∧
      (kept = true ↔ .invalidated scope ∉ since)
  | _ => True

namespace CacheCall

variable {c : CacheCall}

/-- The scope of a call is in the generation of the call if it was not made stale since. -/
theorem Underway.generation_eq_iff {since before : List (CacheEvent ε)}
    (h : c.generation = before.countP (invalidates c.scope)) :
    (since ++ .miss c.number c.scope c.key :: before).countP (invalidates c.scope) = c.generation ↔
      .invalidated c.scope ∉ since := by
  have hmiss : invalidates c.scope (.miss c.number c.scope c.key : CacheEvent ε) = false := rfl
  rw [← countP_invalidates_eq_zero, h, List.countP_append, List.countP_cons, hmiss]
  simp

/-- A call whose loader has given a value returns it, and it is kept as the generations say. -/
theorem Underway.right (h : c.Underway history) (hstage : c.stage = .loaded value) {kept : Bool}
    (hkept : kept = true ↔ history.countP (invalidates c.scope) = c.generation) :
    (CacheEvent.returned c.number c.scope c.key value kept).Right history := by
  obtain ⟨since, before, rfl, hgeneration, hreached⟩ := h
  rw [hstage] at hreached
  obtain ⟨middle, rest, rfl, hloaded⟩ := hreached
  exact ⟨_, before, rfl, List.mem_append_left _ hloaded, hkept.trans (generation_eq_iff hgeneration)⟩

/-- What a call keeps in the generation of its scope is fresh. -/
theorem Underway.fresh (h : c.Underway history) (hstage : c.stage = .loaded value)
    (hcount : history.countP (invalidates c.scope) = c.generation) :
    Fresh (.returned c.number c.scope c.key value true :: history) c.scope c.key value := by
  obtain ⟨since, before, rfl, hgeneration, hreached⟩ := h
  rw [hstage] at hreached
  obtain ⟨middle, rest, rfl, hloaded⟩ := hreached
  have hnone : .invalidated c.scope ∉ middle ++ .began c.number :: rest := (generation_eq_iff hgeneration).mp hcount
  refine ⟨c.number, [], middle, rest ++ .miss c.number c.scope c.key :: before, ?_, ?_, hloaded, ?_, ?_⟩
  · rw [List.nil_append, List.append_assoc, List.cons_append]
  · exact List.mem_append_right _ List.mem_cons_self
  · exact fun hmem => hnone (List.mem_append_left _ hmem)
  · exact fun _ _ => List.not_mem_nil

/-- The stage that the next event brings a call to. -/
theorem Underway.goOn (h : c.Underway history) {e : CacheEvent ε} {stage : LoadStage}
    (hstage : ∀ since, c.stage.Reached c.number since → stage.Reached c.number (e :: since)) :
    CacheCall.Underway { c with stage } (e :: history) := by
  obtain ⟨since, before, rfl, hgeneration, hreached⟩ := h
  exact ⟨e :: since, before, rfl, hgeneration, hstage since hreached⟩

end CacheCall

namespace CacheUse

/-! ### Steps -/

/-- All that an act can do to a cache in use. -/
inductive Moves (u : CacheUse ε) : CacheAct ε → CacheUse ε → Prop
  | idle (act : CacheAct ε) : Moves u act u
  | hit {scope key : String} {value : Json} {s : CacheScope} :
      (u.cache.scope scope).use? key = some (value, s) →
      Moves u (.ask scope key)
        { u with cache := u.cache.set scope s, asked := u.asked + 1,
                 history := .hit u.asked scope key value :: u.history }
  | miss (scope key : String) :
      Moves u (.ask scope key)
        { u with calls := ⟨u.asked, scope, key, u.cache.generation scope, .due⟩ :: u.calls, asked := u.asked + 1,
                 history := .miss u.asked scope key :: u.history }
  | began {place : Nat} {c : CacheCall} :
      u.calls[place]? = some c → c.stage = .due →
      Moves u (.begin place)
        { u with calls := u.calls.set place { c with stage := .running }, history := .began c.number :: u.history }
  | loaded {place : Nat} {c : CacheCall} (value : Json) :
      u.calls[place]? = some c → c.stage = .running →
      Moves u (.finish place (.ok value))
        { u with calls := u.calls.set place { c with stage := .loaded value },
                 history := .loaded c.number value :: u.history }
  | failed {place : Nat} {c : CacheCall} (e : ε) :
      u.calls[place]? = some c →
      Moves u (.finish place (.error e))
        { u with calls := u.calls.eraseIdx place, history := .failed c.number e :: u.history }
  | kept {place : Nat} {c : CacheCall} {value : Json} :
      u.calls[place]? = some c → c.stage = .loaded value → u.cache.generation c.scope = c.generation →
      Moves u (.keep place)
        { u with cache := u.cache.set c.scope ((u.cache.scope c.scope).keep u.cache.capacity c.key value),
                 calls := u.calls.eraseIdx place,
                 history := .returned c.number c.scope c.key value true :: u.history }
  | outdated {place : Nat} {c : CacheCall} {value : Json} :
      u.calls[place]? = some c → c.stage = .loaded value → u.cache.generation c.scope ≠ c.generation →
      Moves u (.keep place)
        { u with calls := u.calls.eraseIdx place,
                 history := .returned c.number c.scope c.key value false :: u.history }
  | invalidated (scope : String) :
      Moves u (.invalidate scope)
        { u with cache := u.cache.invalidate scope, history := .invalidated scope :: u.history }

theorem moves_step (u : CacheUse ε) (act : CacheAct ε) : u.Moves act (u.step act) := by
  cases act with
  | ask scope key =>
    cases hfound : u.cache.lookUp scope key with
    | mk found cache =>
      simp only [step, hfound]
      cases found with
      | hit value =>
        obtain ⟨s, huse, rfl⟩ := ScopedCache.lookUp_eq_hit.mp hfound
        exact .hit huse
      | miss generation =>
        obtain ⟨rfl, rfl⟩ := ScopedCache.lookUp_eq_miss hfound
        exact .miss scope key
  | begin place =>
    dsimp only [step]
    split
    · next hcall => exact .began hcall rfl
    · exact .idle _
  | finish place result =>
    dsimp only [step]
    split
    · next hcall => exact .loaded _ hcall rfl
    · next hcall => exact .failed _ hcall
    · exact .idle _
  | keep place =>
    dsimp only [step]
    split
    · next number scope key generation value hcall =>
      by_cases hgeneration : u.cache.generation scope = generation
      · have hkeep : u.cache.keep scope key generation value =
            u.cache.set scope ((u.cache.scope scope).keep u.cache.capacity key value) := if_pos hgeneration
        rw [hkeep, decide_eq_true hgeneration]
        exact .kept hcall rfl hgeneration
      · have hkeep : u.cache.keep scope key generation value = u.cache := if_neg hgeneration
        rw [hkeep, decide_eq_false hgeneration]
        exact .outdated hcall rfl hgeneration
    · exact .idle _
  | invalidate scope => exact .invalidated scope

/-! ### What steps keep -/

variable {u v : CacheUse ε} {act : CacheAct ε}

/-- The calls under way and the loaders that have ended have numbers of their own. -/
structure Numbered (u : CacheUse ε) : Prop where
  nodup : (u.calls.map (·.number) ++ u.history.filterMap ended?).Nodup
  lt : ∀ n ∈ u.calls.map (·.number) ++ u.history.filterMap ended?, n < u.asked

/-- Generations count invalidations, calls have theirs from when they began, entries are fresh, and so was all that was
returned. -/
structure Coherent (u : CacheUse ε) : Prop where
  generation : ∀ scope, u.cache.generation scope = u.history.countP (invalidates scope)
  calls : ∀ c ∈ u.calls, c.Underway u.history
  entries : ∀ scope, ∀ e ∈ (u.cache.scope scope).entries, Fresh u.history scope e.1 e.2
  right : ∀ e earlier, e :: earlier <:+ u.history → e.Right earlier

/-- No scope has more entries than the capacity, which stays, and what was kept just now is there. -/
structure Bounded (capacity : Nat) (u : CacheUse ε) : Prop where
  fixed : u.cache.capacity = capacity
  size : ∀ scope, u.cache.size scope ≤ capacity
  last : ∀ call scope key value rest, u.history = .returned call scope key value true :: rest →
    (key, value) ∈ (u.cache.scope scope).entries

theorem Numbered.step (h : u.Numbered) (hmoves : u.Moves act v) : v.Numbered := by
  obtain ⟨hnodup, hlt⟩ := h
  -- a call that ends takes its number from the calls to the history
  have ends {place : Nat} {c : CacheCall} (hcall : u.calls[place]? = some c) :
      (u.calls.map (·.number) ++ u.history.filterMap ended?).Perm
        ((u.calls.eraseIdx place).map (·.number) ++ c.number :: u.history.filterMap ended?) := by
    obtain ⟨hplace, rfl⟩ := List.getElem?_eq_some_iff.mp hcall
    have hperm := ((List.getElem_cons_eraseIdx_perm hplace).symm.map (·.number)).append_right
      (u.history.filterMap ended?)
    exact hperm.trans List.perm_middle.symm
  have goesOn {place : Nat} {c : CacheCall} (stage : LoadStage) (hcall : u.calls[place]? = some c) :
      (u.calls.set place { c with stage }).map (·.number) = u.calls.map (·.number) := by
    obtain ⟨hplace, rfl⟩ := List.getElem?_eq_some_iff.mp hcall
    have hlength : place < (u.calls.map (·.number)).length := by rwa [List.length_map]
    rw [List.map_set]
    simpa using List.set_getElem_self hlength
  have last {n : Nat} (hn : n ∈ u.calls.map (·.number) ++ u.history.filterMap ended?) : n < u.asked + 1 :=
    Nat.lt_succ_of_lt (hlt n hn)
  cases hmoves with
  | idle => exact ⟨hnodup, hlt⟩
  | hit _ => exact ⟨hnodup, fun n hn => last hn⟩
  | miss scope key =>
    -- a new call has the next number, which is above all others
    refine ⟨List.nodup_cons.mpr ⟨fun hmem => Nat.lt_irrefl _ (hlt _ hmem), hnodup⟩, fun n hn => ?_⟩
    rcases List.mem_cons.mp hn with rfl | hn
    · exact Nat.lt_succ_self _
    · exact last hn
  | began hcall _ => exact ⟨(goesOn _ hcall).symm ▸ hnodup, (goesOn _ hcall).symm ▸ hlt⟩
  | loaded _ hcall _ => exact ⟨(goesOn _ hcall).symm ▸ hnodup, (goesOn _ hcall).symm ▸ hlt⟩
  | failed _ hcall => exact ⟨(ends hcall).nodup hnodup, fun n hn => hlt n ((ends hcall).mem_iff.mpr hn)⟩
  | kept hcall _ _ => exact ⟨(ends hcall).nodup hnodup, fun n hn => hlt n ((ends hcall).mem_iff.mpr hn)⟩
  | outdated hcall _ _ => exact ⟨(ends hcall).nodup hnodup, fun n hn => hlt n ((ends hcall).mem_iff.mpr hn)⟩
  | invalidated scope => exact ⟨hnodup, hlt⟩

theorem Bounded.size_step {capacity : Nat} (h : Bounded capacity u) (hmoves : u.Moves act v) (scope : String) :
    v.cache.size scope ≤ capacity := by
  have replaced {name : String} {s : CacheScope} (hs : s.entries.length ≤ capacity) :
      (u.cache.set name s).size scope ≤ capacity := by
    rw [ScopedCache.size, ScopedCache.scope_set]
    split
    · exact hs
    · exact h.size scope
  cases hmoves with
  | idle | miss | began | loaded | failed | outdated => exact h.size scope
  | hit huse => exact replaced (Nat.le_trans (CacheScope.use?_eq_some huse).2.2.2 (h.size _))
  | kept _ _ _ => exact replaced (h.fixed ▸ CacheScope.length_keep_le ..)
  | invalidated scope => exact replaced (Nat.zero_le _)

theorem Bounded.step {capacity : Nat} (hpos : 0 < capacity) (h : Bounded capacity u) (hmoves : u.Moves act v) :
    Bounded capacity v := by
  have hsize := h.size_step hmoves
  obtain ⟨hfixed, -, hlast⟩ := h
  cases hmoves with
  | idle => exact ⟨hfixed, hsize, hlast⟩
  | hit | miss | began | loaded | failed | outdated | invalidated =>
    refine ⟨hfixed, hsize, fun _ _ _ _ _ heq => ?_⟩
    cases heq
  | kept _ _ _ =>
    refine ⟨hfixed, hsize, fun _ _ _ _ _ heq => ?_⟩
    cases heq
    rw [ScopedCache.scope_set, if_pos rfl, CacheScope.keep, List.take_cons (hfixed ▸ hpos)]
    exact List.mem_cons_self

theorem Coherent.generation_step (h : u.Coherent) (hmoves : u.Moves act v) (scope : String) :
    v.cache.generation scope = v.history.countP (invalidates scope) := by
  have same {name : String} {s : CacheScope} (hs : s.generation = (u.cache.scope name).generation) :
      (u.cache.set name s).generation scope = u.history.countP (invalidates scope) := by
    rw [← h.generation scope, ScopedCache.generation, ScopedCache.scope_set]
    split
    · next heq =>
      rw [hs, heq]
      rfl
    · rfl
  have other {e : CacheEvent ε} (he : invalidates scope e = false) :
      (e :: u.history).countP (invalidates scope) = u.history.countP (invalidates scope) :=
    List.countP_cons_of_neg (by simp [he])
  cases hmoves with
  | idle => exact h.generation scope
  | hit huse =>
    rw [other rfl]
    exact same (CacheScope.use?_eq_some huse).2.1
  | kept _ _ _ =>
    rw [other rfl]
    exact same rfl
  | miss | began | loaded | failed | outdated =>
    rw [other rfl]
    exact h.generation scope
  | invalidated name =>
    rw [ScopedCache.generation_invalidate, h.generation scope, List.countP_cons]
    by_cases hname : scope = name
    · simp [invalidates, hname]
    · simp [invalidates, hname, Ne.symm hname]

theorem Coherent.calls_step (h : u.Coherent) (hmoves : u.Moves act v) : ∀ c ∈ v.calls, c.Underway v.history := by
  -- a call that is not touched goes on waiting, one event later
  have waits (e : CacheEvent ε) {c : CacheCall} (hc : c ∈ u.calls) : c.Underway (e :: u.history) :=
    (h.calls c hc).cons e
  have goesOn {place : Nat} {c d : CacheCall} {e : CacheEvent ε} {stage : LoadStage}
      (hcall : u.calls[place]? = some c) (hd : d ∈ u.calls.set place { c with stage })
      (hstage : ∀ since, c.stage.Reached c.number since → stage.Reached c.number (e :: since)) :
      d.Underway (e :: u.history) := by
    rcases List.mem_or_eq_of_mem_set hd with hd | rfl
    · exact waits e hd
    · exact (h.calls c (List.mem_of_getElem? hcall)).goOn hstage
  cases hmoves with
  | idle => exact h.calls
  | hit _ | invalidated => exact fun c hc => waits _ hc
  | miss scope key =>
    intro c hc
    rcases List.mem_cons.mp hc with rfl | hc
    · exact ⟨[], u.history, rfl, h.generation scope, trivial⟩
    · exact waits _ hc
  | began hcall _ => exact fun d hd => goesOn hcall hd fun since _ => List.mem_cons_self
  | loaded value hcall hstage =>
    refine fun d hd => goesOn hcall hd fun since hreached => ?_
    rw [hstage] at hreached
    -- the loader was called since the call was made, and the value comes after that
    obtain ⟨middle, rest, rfl⟩ := List.append_of_mem hreached
    exact ⟨_ :: middle, rest, rfl, List.mem_cons_self⟩
  | failed _ _ | kept _ _ _ | outdated _ _ _ => exact fun d hd => waits _ (List.mem_of_mem_eraseIdx hd)

theorem Coherent.entries_step (h : u.Coherent) (hmoves : u.Moves act v) (scope : String) :
    ∀ e ∈ (v.cache.scope scope).entries, Fresh v.history scope e.1 e.2 := by
  have later {event : CacheEvent ε} (hstale : event ≠ .invalidated scope)
      (hkept : ∀ other key value, event ≠ .returned other scope key value true) {e : String × Json}
      (he : e ∈ (u.cache.scope scope).entries) : Fresh (event :: u.history) scope e.1 e.2 :=
    (h.entries scope e he).cons hstale fun other value => hkept other e.1 value
  cases hmoves with
  | idle => exact h.entries scope
  | miss | began | loaded | failed | outdated => exact fun e he => later (by simp) (by simp) he
  | @hit name key value s huse =>
    intro e he
    rw [ScopedCache.scope_set] at he
    refine later (by simp) (by simp) ?_
    split at he
    · next heq => exact heq ▸ (CacheScope.use?_eq_some huse).2.2.1 e he
    · exact he
  | @kept place c value hcall hstage hgeneration =>
    intro e he
    rw [ScopedCache.scope_set] at he
    split at he
    · next heq =>
      subst heq
      -- the entry that is kept, or one of another key
      rcases CacheScope.mem_keep he with rfl | ⟨he, hkey⟩
      · exact (h.calls c (List.mem_of_getElem? hcall)).fresh hstage (h.generation c.scope ▸ hgeneration)
      · refine (h.entries c.scope e he).cons (by simp) fun _ _ heq => hkey ?_
        obtain ⟨-, -, hsame, -⟩ := CacheEvent.returned.inj heq
        exact hsame.symm
    · next hother =>
      refine later (by simp) (fun _ _ _ heq => hother ?_) he
      obtain ⟨-, hsame, -⟩ := CacheEvent.returned.inj heq
      exact hsame.symm
  | invalidated name =>
    intro e he
    rw [ScopedCache.invalidate, ScopedCache.scope_set] at he
    split at he
    · cases he
    · next hother => exact later (fun heq => hother (CacheEvent.invalidated.inj heq).symm) (by simp) he

theorem Coherent.right_step (h : u.Coherent) (hmoves : u.Moves act v) :
    ∀ e earlier, e :: earlier <:+ v.history → e.Right earlier := by
  -- what is right of earlier events stays so, and only the new one has to be looked at
  have next {event : CacheEvent ε} (hevent : event.Right u.history) :
      ∀ e earlier, e :: earlier <:+ event :: u.history → e.Right earlier := by
    intro e earlier hsuffix
    rcases List.suffix_cons_iff.mp hsuffix with heq | hsuffix
    · cases heq
      exact hevent
    · exact h.right e earlier hsuffix
  cases hmoves with
  | idle => exact h.right
  | miss | began | loaded | failed | invalidated => exact next trivial
  | @hit scope key value s huse => exact next (h.entries scope (key, value) (CacheScope.use?_eq_some huse).1)
  | @kept place c value hcall hstage hgeneration =>
    refine next ((h.calls c (List.mem_of_getElem? hcall)).right hstage ?_)
    rw [← h.generation c.scope, hgeneration]
    simp
  | @outdated place c value hcall hstage hgeneration =>
    refine next ((h.calls c (List.mem_of_getElem? hcall)).right hstage ?_)
    rw [← h.generation c.scope]
    simpa using hgeneration

theorem Coherent.step (h : u.Coherent) (hmoves : u.Moves act v) : v.Coherent :=
  ⟨h.generation_step hmoves, h.calls_step hmoves, h.entries_step hmoves, h.right_step hmoves⟩

/-- An act leaves the scopes alone that it is not about. -/
theorem scope_step {scope : String} (hmoves : u.Moves act v) (hscope : u.scopeOf? act ≠ some scope) :
    v.cache.scope scope = u.cache.scope scope := by
  have other {name : String} (s : CacheScope) (hname : some name ≠ some scope) :
      (u.cache.set name s).scope scope = u.cache.scope scope := by
    rw [ScopedCache.scope_set, if_neg fun heq => hname (congrArg some heq.symm)]
  cases hmoves with
  | idle | miss | began | loaded | failed | outdated => rfl
  | hit _ => exact other _ hscope
  | kept hcall _ _ =>
    rw [scopeOf?, hcall] at hscope
    exact other _ hscope
  | invalidated _ => exact other _ hscope

/-! ### Runs -/

theorem run_induction {P : CacheUse ε → Prop} (hstep : ∀ u act, P u → P (u.step act)) (u : CacheUse ε) (hu : P u)
    (acts : List (CacheAct ε)) : P (u.run acts) := by
  induction acts generalizing u with
  | nil => exact hu
  | cons act acts ih => exact ih (u.step act) (hstep u act hu)

theorem numbered_run (capacity : Nat) (acts : List (CacheAct ε)) : ((start capacity).run acts).Numbered :=
  run_induction (fun u act h => h.step (u.moves_step act)) _ ⟨List.nodup_nil, fun _ h => absurd h List.not_mem_nil⟩ acts

theorem bounded_run (capacity : Nat) (acts : List (CacheAct ε)) :
    Bounded (max capacity 1) ((start capacity).run acts) := by
  have hpos : 0 < max capacity 1 := Nat.lt_of_lt_of_le Nat.one_pos (Nat.le_max_right capacity 1)
  refine run_induction (fun u act h => h.step hpos (u.moves_step act)) _ ⟨rfl, fun _ => Nat.zero_le _, ?_⟩ acts
  exact fun _ _ _ _ _ heq => absurd heq.symm (List.cons_ne_nil _ _)

theorem coherent_run (capacity : Nat) (acts : List (CacheAct ε)) : ((start capacity).run acts).Coherent := by
  refine run_induction (fun u act h => h.step (u.moves_step act)) _ ⟨fun _ => rfl, ?_, ?_, ?_⟩ acts
  · exact fun _ h => absurd h List.not_mem_nil
  · exact fun _ _ h => absurd h List.not_mem_nil
  · exact fun _ _ h => absurd (List.suffix_nil.mp h) (List.cons_ne_nil _ _)

/-- A call whose loader failed returns nothing, and so keeps nothing. -/
theorem Numbered.not_returned (h : u.Numbered) {call : Nat} {e : ε} (hfailed : .failed call e ∈ u.history)
    (scope key : String) (value : Json) (kept : Bool) : .returned call scope key value kept ∉ u.history := by
  intro hreturned
  let Apart (first second : CacheEvent ε) : Prop := ∀ n ∈ first.ended?, ∀ m ∈ second.ended?, n ≠ m
  have hsymm : Std.Symm Apart := ⟨fun _ _ hne n hn m hm => (hne m hm n hn).symm⟩
  have hapart : u.history.Pairwise Apart := List.pairwise_filterMap.mp h.nodup.of_append_right
  exact hapart.forall hfailed hreturned (by simp) call rfl call rfl rfl

/-- Whatever the order of the steps of the calls and of the invalidations: each entry of a cache is fresh, and so is each
value that is found; every other value that is returned comes from the call's own loader, and it is kept exactly if the
scope was not made stale since the call looked its key up, and then it is an entry; a loader that fails changes nothing
and nothing is returned for it; no act touches a scope that it is not about; and no scope has more entries than the
capacity, or one. -/
theorem served_fresh (capacity : Nat) (acts : List (CacheAct ε)) :
    let u : CacheUse ε := (start capacity).run acts
    (∀ scope key value, (key, value) ∈ (u.cache.scope scope).entries → Fresh u.history scope key value) ∧
    (∀ call scope key value earlier, .hit call scope key value :: earlier <:+ u.history →
      Fresh earlier scope key value) ∧
    (∀ call scope key value kept earlier, .returned call scope key value kept :: earlier <:+ u.history →
      ∃ since before, earlier = since ++ .miss call scope key :: before ∧ .loaded call value ∈ since ∧
        (kept = true ↔ .invalidated scope ∉ since)) ∧
    (∀ call scope key value rest, u.history = .returned call scope key value true :: rest →
      (key, value) ∈ (u.cache.scope scope).entries) ∧
    (∀ call e, .failed call e ∈ u.history →
      ∀ scope key value kept, .returned call scope key value kept ∉ u.history) ∧
    (∀ place e, (u.step (.finish place (.error e))).cache = u.cache) ∧
    (∀ act scope, u.scopeOf? act ≠ some scope → (u.step act).cache.scope scope = u.cache.scope scope) ∧
    (∀ scope, u.cache.size scope ≤ max capacity 1) := by
  intro u
  have hcoherent : u.Coherent := coherent_run capacity acts
  have hbounded : Bounded (max capacity 1) u := bounded_run capacity acts
  refine ⟨fun scope key value he => hcoherent.entries scope (key, value) he, ?_, ?_, hbounded.last, ?_,
    fun place e => ?_, fun act scope => scope_step (u.moves_step act), hbounded.size⟩
  · exact fun call scope key value earlier hsuffix => hcoherent.right _ earlier hsuffix
  · exact fun call scope key value kept earlier hsuffix => hcoherent.right _ earlier hsuffix
  · exact fun call e => (numbered_run capacity acts).not_returned
  · have hmoves := u.moves_step (.finish place (.error e))
    generalize u.step (.finish place (.error e)) = v at hmoves
    cases hmoves with
    | idle => rfl
    | failed => rfl

/-- A value that was loaded while its scope was made stale is returned, but it is not kept. -/
example :
    let u : CacheUse Unit := (start 4).run [.ask "a" "k", .begin 0, .invalidate "a", .finish 0 (.ok .null), .keep 0]
    u.cache.size "a" = 0 := by decide

end CacheUse
end RecordService
