import Mathlib.Algebra.Group.Int.Defs
import RecordService.Json.Basic

/-! # What a document is made of

The numbers of a document (`Json.numbers`), the depth of its containers (`Json.depth`), and the induction over its
items and entries (`Json.induction`). -/

namespace RecordService

/-- The numbers that documents have. -/
def Number.Valid : Number → Prop
  | .int i => -2 ^ 63 ≤ i ∧ i < 2 ^ 64
  | .float x => x.isFinite = true

namespace Json

/-- What holds of a container if it holds of its parts, holds of all documents. -/
@[elab_as_elim]
theorem induction {P : Json → Prop} (null : P .null) (bool : ∀ b, P (.bool b)) (num : ∀ n, P (.num n))
    (str : ∀ s, P (.str s)) (arr : ∀ items : List Json, (∀ d ∈ items, P d) → P (.arr items))
    (obj : ∀ entries : Entries, (∀ e ∈ entries, P e.2) → P (.obj entries)) : ∀ d : Json, P d
  | .null => null
  | .bool b => bool b
  | .num n => num n
  | .str s => str s
  | .arr items => arr items fun d _ => induction null bool num str arr obj d
  | .obj entries => obj entries fun e _ => induction null bool num str arr obj e.2
-- a part is smaller than its container
termination_by d => sizeOf d
decreasing_by
  · have := List.sizeOf_lt_of_mem ‹d ∈ items›
    simp only [Json.arr.sizeOf_spec]
    omega
  · have := List.sizeOf_lt_of_mem ‹e ∈ entries›
    obtain ⟨key, value⟩ := e
    simp only [Json.obj.sizeOf_spec, Prod.mk.sizeOf_spec] at *
    omega

mutual

/-- The numbers in a document. -/
def numbers : Json → List Number
  | .num n => [n]
  | .arr items => numbersOfItems items
  | .obj entries => numbersOfEntries entries
  | _ => []

def numbersOfItems : List Json → List Number
  | [] => []
  | item :: rest => numbers item ++ numbersOfItems rest

def numbersOfEntries : List (String × Json) → List Number
  | [] => []
  | (_, value) :: rest => numbers value ++ numbersOfEntries rest

end

mutual

/-- How deep containers are nested in a document. -/
def depth : Json → Nat
  | .arr items => depthOfItems items + 1
  | .obj entries => depthOfEntries entries + 1
  | _ => 0

def depthOfItems : List Json → Nat
  | [] => 0
  | item :: rest => max (depth item) (depthOfItems rest)

def depthOfEntries : List (String × Json) → Nat
  | [] => 0
  | (_, value) :: rest => max (depth value) (depthOfEntries rest)

end

section
variable {p : Number → Prop} {bound : Nat}

theorem forall_numbersOfItems {items : List Json} :
    (∀ n ∈ numbersOfItems items, p n) ↔ ∀ d ∈ items, ∀ n ∈ d.numbers, p n := by
  induction items with
  | nil => simp [numbersOfItems]
  | cons item rest ih => simp only [numbersOfItems, List.forall_mem_append, ih, List.forall_mem_cons]

theorem forall_numbersOfEntries {entries : Entries} :
    (∀ n ∈ numbersOfEntries entries, p n) ↔ ∀ e ∈ entries, ∀ n ∈ e.2.numbers, p n := by
  induction entries with
  | nil => simp [numbersOfEntries]
  | cons entry rest ih => simp only [numbersOfEntries, List.forall_mem_append, ih, List.forall_mem_cons]

theorem depthOfItems_le {items : List Json} : depthOfItems items ≤ bound ↔ ∀ d ∈ items, d.depth ≤ bound := by
  induction items with
  | nil => simp [depthOfItems]
  | cons item rest ih => simp only [depthOfItems, Nat.max_le, ih, List.forall_mem_cons]

theorem depthOfEntries_le {entries : Entries} : depthOfEntries entries ≤ bound ↔ ∀ e ∈ entries, e.2.depth ≤ bound := by
  induction entries with
  | nil => simp [depthOfEntries]
  | cons entry rest ih => simp only [depthOfEntries, Nat.max_le, ih, List.forall_mem_cons]

end

end Json
end RecordService
