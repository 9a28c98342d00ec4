import RecordService.Json.Basic

/-! # Scoped caches

A cache keeps values by scope and key. Each scope keeps at most a number of entries and drops those that have not
been used for the longest time. It counts how often it was made stale: a value whose loading began before the last
time is not kept. Looking up and keeping are two steps, so that anything may happen while a value is loaded. -/

namespace RecordService

/-- The entries of one scope, the last used first. -/
structure CacheScope where
  generation : Nat
  entries : List (String × Json)
deriving Repr

namespace CacheScope

/-- A scope that nothing has happened to. -/
def fresh : CacheScope := ⟨0, []⟩

/-- The entries without those of a key. -/
def without (entries : List (String × Json)) (key : String) : List (String × Json) :=
  entries.filter (·.1 != key)

/-- The value of a key, and the scope with that entry used last. -/
def use? (s : CacheScope) (key : String) : Option (Json × CacheScope) :=
  (s.entries.find? (·.1 == key)).map fun e => (e.2, { s with entries := e :: without s.entries key })

/-- The scope with an entry, which is used last. -/
def keep (s : CacheScope) (capacity : Nat) (key : String) (value : Json) : CacheScope :=
  { s with entries := ((key, value) :: without s.entries key).take capacity }

theorem mem_without {entries : List (String × Json)} {key : String} {e : String × Json} :
    e ∈ without entries key ↔ e ∈ entries ∧ e.1 ≠ key := by
  simp [without]

/-- An entry that is used stays with the others, and only their order changes. -/
theorem use?_eq_some {s t : CacheScope} {key : String} {value : Json} (h : s.use? key = some (value, t)) :
    (key, value) ∈ s.entries ∧ t.generation = s.generation ∧ (∀ e ∈ t.entries, e ∈ s.entries) ∧
      t.entries.length ≤ s.entries.length := by
  obtain ⟨e, hfind, he⟩ := Option.map_eq_some_iff.mp h
  obtain ⟨rfl, rfl⟩ := Prod.mk.inj he
  have hmem : e ∈ s.entries := List.mem_of_find?_eq_some hfind
  have hfound := List.find?_some hfind
  obtain rfl : e.1 = key := beq_iff_eq.mp hfound
  refine ⟨hmem, rfl, fun x hx => ?_, ?_⟩
  · rcases List.mem_cons.mp hx with rfl | hx
    · exact hmem
    · exact (mem_without.mp hx).1
  · have hdropped : (s.entries.filter (·.1 != e.1)).length < s.entries.length :=
      List.length_filter_lt_length_iff_exists.mpr ⟨e, hmem, by simp⟩
    exact hdropped

theorem mem_keep {s : CacheScope} {capacity : Nat} {key : String} {value : Json} {e : String × Json}
    (h : e ∈ (s.keep capacity key value).entries) : e = (key, value) ∨ e ∈ s.entries ∧ e.1 ≠ key := by
  rcases List.mem_cons.mp (List.mem_of_mem_take h) with rfl | h
  · exact Or.inl rfl
  · exact Or.inr (mem_without.mp h)

theorem length_keep_le (s : CacheScope) (capacity : Nat) (key : String) (value : Json) :
    (s.keep capacity key value).entries.length ≤ capacity := by
  rw [keep]
  exact (List.length_take_le ..)

end CacheScope

structure ScopedCache where
  /-- The most entries of a scope. -/
  capacity : Nat
  scopes : List (String × CacheScope)
deriving Repr

/-- What looking up a key finds: its value, or the generation for which a value is to be loaded. -/
inductive Found where
  | hit (value : Json)
  | miss (generation : Nat)
deriving Repr

namespace ScopedCache

/-- A cache of a capacity, which is one at least. -/
def ofCapacity (capacity : Nat) : ScopedCache :=
  ⟨max capacity 1, []⟩

/-- A cache of the usual capacity. -/
def standard : ScopedCache :=
  ofCapacity 256

def scope (c : ScopedCache) (name : String) : CacheScope :=
  (c.scopes.lookup name).getD .fresh

/-- The scopes with one of them replaced. -/
def setScope (name : String) (s : CacheScope) : List (String × CacheScope) → List (String × CacheScope)
  | [] => [(name, s)]
  | (n, t) :: rest => if n == name then (n, s) :: rest else (n, t) :: setScope name s rest

def set (c : ScopedCache) (name : String) (s : CacheScope) : ScopedCache :=
  { c with scopes := setScope name s c.scopes }

/-- How often the scope was made stale. -/
def generation (c : ScopedCache) (name : String) : Nat :=
  (c.scope name).generation

/-- The number of entries of the scope. -/
def size (c : ScopedCache) (name : String) : Nat :=
  (c.scope name).entries.length

/-- Drops all entries of the scope. -/
def invalidate (c : ScopedCache) (name : String) : ScopedCache :=
  c.set name ⟨(c.scope name).generation + 1, []⟩

/-- The first step: looks up a key. -/
def lookUp (c : ScopedCache) (name key : String) : Found × ScopedCache :=
  let s := c.scope name
  match s.use? key with
  | some (value, s) => (.hit value, c.set name s)
  | none => (.miss s.generation, c)

/-- The second step: keeps a value that was loaded for a generation, if that is still the scope's. -/
def keep (c : ScopedCache) (name key : String) (generation : Nat) (value : Json) : ScopedCache :=
  let s := c.scope name
  if s.generation = generation then c.set name (s.keep c.capacity key value) else c

/-! ### Generations -/

theorem lookup_setScope (name key : String) (s : CacheScope) : ∀ scopes : List (String × CacheScope),
    (setScope name s scopes).lookup key = if key = name then some s else scopes.lookup key
  | [] => by
    by_cases h : key = name
    · simp [setScope, h]
    · have hkey : (key == name) = false := beq_eq_false_iff_ne.mpr h
      simp [setScope, List.lookup_cons, h, hkey]
  | (n, t) :: rest => by
    have ih := lookup_setScope name key s rest
    by_cases hn : n = name
    · by_cases h : key = name
      · simp [setScope, hn, h]
      · have hkey : (key == name) = false := beq_eq_false_iff_ne.mpr h
        simp [setScope, List.lookup_cons, hn, h, hkey]
    · by_cases h : key = n
      · simp [setScope, hn, h]
      · have hkey : (key == n) = false := beq_eq_false_iff_ne.mpr h
        simp [setScope, List.lookup_cons, hn, hkey, ih]

theorem scope_set (c : ScopedCache) (name key : String) (s : CacheScope) :
    (c.set name s).scope key = if key = name then s else c.scope key := by
  unfold set scope
  rw [lookup_setScope]
  split
  · rfl
  · rfl

/-- A scope that is made stale is in its next generation, and every other one stays in its own. -/
theorem generation_invalidate (c : ScopedCache) (name key : String) :
    (c.invalidate name).generation key = c.generation key + if key = name then 1 else 0 := by
  unfold invalidate generation
  rw [scope_set]
  by_cases h : key = name
  · simp [h]
  · simp [h]

/-! ### Steps of a call -/

theorem lookUp_eq_hit {c c' : ScopedCache} {name key : String} {value : Json} :
    c.lookUp name key = (.hit value, c') ↔ ∃ s, (c.scope name).use? key = some (value, s) ∧ c' = c.set name s := by
  simp only [lookUp]
  cases h : (c.scope name).use? key with
  | none => simp
  | some found =>
    obtain ⟨v, s⟩ := found
    simp only [Prod.mk.injEq, Found.hit.injEq, Option.some.injEq]
    constructor
    · rintro ⟨rfl, rfl⟩
      exact ⟨s, ⟨rfl, rfl⟩, rfl⟩
    · rintro ⟨_, ⟨rfl, rfl⟩, rfl⟩
      exact ⟨rfl, rfl⟩

theorem lookUp_eq_miss {c c' : ScopedCache} {name key : String} {generation : Nat}
    (h : c.lookUp name key = (.miss generation, c')) : generation = c.generation name ∧ c' = c := by
  simp only [lookUp] at h
  cases hfound : (c.scope name).use? key with
  | some found =>
    rw [hfound] at h
    cases h
  | none =>
    rw [hfound] at h
    obtain ⟨hgeneration, rfl⟩ := Prod.mk.inj h
    exact ⟨(Found.miss.inj hgeneration).symm, rfl⟩

/-- Both steps around a loader, which may use the cache itself and may fail. The number says how often the loader
ran. -/
def getOrLoad {ε : Type} (c : ScopedCache) (name key : String)
    (load : ScopedCache → Except ε Json × ScopedCache) : Except ε (Json × Nat) × ScopedCache :=
  match c.lookUp name key with
  | (.hit value, c) => (.ok (value, 0), c)
  | (.miss generation, c) =>
    match load c with
    | (.ok value, c) => (.ok (value, 1), c.keep name key generation value)
    | (.error e, c) => (.error e, c)

end ScopedCache
end RecordService
