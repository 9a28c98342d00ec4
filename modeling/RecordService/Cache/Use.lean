import RecordService.Cache.Basic

/-! # Caches in use

Several calls may be under way on one cache. A call takes its steps one at a time: it looks its key up, and where it
finds nothing its loader begins and ends, and then it keeps what was loaded and returns it. Between two steps the
others go on. Which steps are taken, and in which order, is a list of acts; an act that no call is ready for changes
nothing. -/

namespace RecordService

/-- How far a call is that has found nothing. -/
inductive LoadStage where
  | due
  | running
  | loaded (value : Json)

/-- A call that has found nothing and has not returned. -/
structure CacheCall where
  /-- No other call has it. -/
  number : Nat
  scope : String
  key : String
  /-- That of the scope when the key was looked up. -/
  generation : Nat
  stage : LoadStage

/-- What may happen next. Calls are given by their places among those under way. -/
inductive CacheAct (ε : Type) where
  /-- A call begins and looks its key up. -/
  | ask (scope key : String)
  /-- A loader begins. -/
  | begin (place : Nat)
  /-- A loader ends. -/
  | finish (place : Nat) (result : Except ε Json)
  /-- A call keeps the value that was loaded, and returns it. -/
  | keep (place : Nat)
  | invalidate (scope : String)

/-- What has happened. Calls are given by their numbers. -/
inductive CacheEvent (ε : Type) where
  /-- A call found an entry and returned its value. -/
  | hit (call : Nat) (scope key : String) (value : Json)
  | miss (call : Nat) (scope key : String)
  | began (call : Nat)
  | loaded (call : Nat) (value : Json)
  /-- The loader failed, and so did the call. -/
  | failed (call : Nat) (e : ε)
  /-- A call returned what its loader gave. -/
  | returned (call : Nat) (scope key : String) (value : Json) (kept : Bool)
  | invalidated (scope : String)

structure CacheUse (ε : Type) where
  cache : ScopedCache
  /-- Those under way. -/
  calls : List CacheCall
  /-- How many calls there were so far. -/
  asked : Nat
  /-- What has happened, the last first. -/
  history : List (CacheEvent ε)

namespace CacheUse

variable {ε : Type}

/-- An empty cache that nobody has used. -/
def start (capacity : Nat) : CacheUse ε :=
  ⟨.ofCapacity capacity, [], 0, []⟩

def step (u : CacheUse ε) : CacheAct ε → CacheUse ε
  | .ask scope key =>
    match u.cache.lookUp scope key with
    | (.hit value, cache) =>
      { u with cache, asked := u.asked + 1, history := .hit u.asked scope key value :: u.history }
    | (.miss generation, cache) =>
      { cache, calls := ⟨u.asked, scope, key, generation, .due⟩ :: u.calls, asked := u.asked + 1,
        history := .miss u.asked scope key :: u.history }
  | .begin place =>
    match u.calls[place]? with
    | some ⟨number, scope, key, generation, .due⟩ =>
      { u with calls := u.calls.set place ⟨number, scope, key, generation, .running⟩,
               history := .began number :: u.history }
    | _ => u
  | .finish place result =>
    match u.calls[place]?, result with
    | some ⟨number, scope, key, generation, .running⟩, .ok value =>
      { u with calls := u.calls.set place ⟨number, scope, key, generation, .loaded value⟩,
               history := .loaded number value :: u.history }
    | some ⟨number, _, _, _, .running⟩, .error e =>
      { u with calls := u.calls.eraseIdx place, history := .failed number e :: u.history }
    | _, _ => u
  | .keep place =>
    match u.calls[place]? with
    | some ⟨number, scope, key, generation, .loaded value⟩ =>
      { u with cache := u.cache.keep scope key generation value, calls := u.calls.eraseIdx place,
               history := .returned number scope key value (u.cache.generation scope = generation) :: u.history }
    | _ => u
  | .invalidate scope =>
    { u with cache := u.cache.invalidate scope, history := .invalidated scope :: u.history }

/-- One act after the other. -/
def run (u : CacheUse ε) (acts : List (CacheAct ε)) : CacheUse ε :=
  acts.foldl step u

/-- The scope that an act is about, if it touches the cache. -/
def scopeOf? (u : CacheUse ε) : CacheAct ε → Option String
  | .ask scope _ => some scope
  | .begin _ => none
  | .finish _ _ => none
  | .keep place => u.calls[place]?.map CacheCall.scope
  | .invalidate scope => some scope

end CacheUse
end RecordService
