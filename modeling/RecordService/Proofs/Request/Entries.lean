import Mathlib.Tactic.SplitIfs
import RecordService.Request.Filter

/-! # Entries of a filter document

What one entry of an object is read as, by what its key says: a combinator takes the objects in it, a field the object
below it, and an operator or a count takes its operand, provided that it stands below a field. -/

namespace RecordService

/-! ### Computations that may fail -/

theorem bind_eq_ok {ε α β : Type} {x : Except ε α} {f : α → Except ε β} {b : β} :
    (x >>= f) = .ok b ↔ ∃ a, x = .ok a ∧ f a = .ok b := by
  cases x <;> simp [bind, Except.bind]

theorem map_eq_ok {ε α β : Type} {x : Except ε α} {f : α → β} {b : β} :
    x.map f = .ok b ↔ ∃ a, x = .ok a ∧ f a = b := by
  cases x <;> simp [Except.map]

theorem map_pair_eq_ok {ε α β : Type} {x : Except ε α} {a : α} {b c : β} :
    x.map (·, b) = .ok (a, c) ↔ x = .ok a ∧ c = b := by
  cases x <;> simp [Except.map, eq_comm]

theorem map_eq_error {ε α β : Type} {x : Except ε α} {f : α → β} {e : ε} : x.map f = .error e ↔ x = .error e := by
  cases x <;> simp [Except.map]

theorem pure_eq_ok {ε α : Type} {a b : α} : (pure a : Except ε α) = .ok b ↔ a = b := by
  simp [pure, Except.pure]

theorem mem_of_mapM_eq_ok {ε α β : Type} {f : α → Except ε β} : ∀ {items : List α} {all : List β},
    items.mapM f = .ok all → ∀ {item : α} {b : β}, item ∈ items → f item = .ok b → b ∈ all
  | first :: rest, all, h, item, b, hitem, hb => by
    rw [List.mapM_cons] at h
    obtain ⟨b₁, hfirst, h⟩ := bind_eq_ok.mp h
    obtain ⟨bs, hrest, h⟩ := bind_eq_ok.mp h
    obtain rfl := pure_eq_ok.mp h
    rcases List.mem_cons.mp hitem with rfl | hitem
    · rw [Except.ok.inj (hb.symm.trans hfirst)]
      exact List.mem_cons_self
    · exact List.mem_cons_of_mem _ (mem_of_mapM_eq_ok hrest hitem hb)

theorem exists_eq_ok {ε α : Type} {x : Except ε α} (h : x.isOk = true) : ∃ a, x = .ok a := by
  cases x with
  | ok a => exact ⟨a, rfl⟩
  | error _ => cases h

theorem Entries.get?_cons (e : String × Json) (es : Entries) (key : String) :
    Entries.get? (e :: es) key = if e.1 = key then some e.2 else Entries.get? es key := by
  unfold Entries.get?
  rw [List.find?_cons]
  by_cases h : e.1 = key
  · simp [h]
  · rw [if_neg h, beq_eq_false_iff_ne.mpr h]

namespace Filter

variable {key : String} {path : Path} {nodes : List Filter} {value : Json} {entries rest : List (String × Json)}
  {items : List Json}

-- the readers have long equations, which are worked out here, before the first proof asks for them
attribute [local simp] ofEntries ofEntry ofItems

theorem Key.name_of_field {name : String} (h : Key.ofText key = .field name) : name = key := by
  dsimp only [ofText] at h
  split_ifs at h
  cases hop : Operator.ofName? (bareKeyword key) with
  | some o =>
    rw [hop] at h
    cases h
  | none =>
    rw [hop] at h
    exact (Key.field.inj h).symm

/-! ### One after the other -/

theorem ofEntries_cons_eq_ok :
    ofEntries path ((key, value) :: rest) = .ok nodes ↔
      ∃ first more, ofEntry key path value = .ok first ∧ ofEntries path rest = .ok more ∧ first ++ more = nodes := by
  simp only [ofEntries, bind_eq_ok, pure_eq_ok, exists_and_left]

theorem ofEntries_singleton : ofEntries path [(key, value)] = ofEntry key path value := by
  rw [ofEntries]
  cases ofEntry key path value with
  | error e => rfl
  | ok nodes => simp [bind, Except.bind, pure, Except.pure]

/-- Only objects stand in a list. -/
theorem ofItems_cons_eq_ok {item : Json} :
    ofItems key path (item :: items) = .ok nodes ↔
      ∃ entries inner more, item = .obj entries ∧ ofEntries path entries = .ok inner ∧
        ofItems key path items = .ok more ∧ (conjoin inner).toList ++ more = nodes := by
  cases item with
  | obj entries => simp only [ofItems, bind_eq_ok, pure_eq_ok, Json.obj.injEq, exists_and_left, exists_eq_left']
  | _ => simp

theorem counts_cons_eq_ok {operand : Json} :
    counts path ((key, operand) :: rest) = .ok nodes ↔
      ∃ c more, Comparison.ofName? (bareKeyword key) = some c ∧ counts path rest = .ok more ∧
        .leaf ⟨path, .count c, operand⟩ :: more = nodes := by
  rw [counts]
  cases Comparison.ofName? (bareKeyword key) with
  | none => simp
  | some c => simp only [bind_eq_ok, pure_eq_ok, Option.some.injEq, exists_and_left, exists_eq_left']

/-! ### By what the key says -/

theorem underField_eq_ok {u : Unit} : underField key path = .ok u ↔ path.isEmpty = false := by
  unfold underField
  cases path.isEmpty <;> simp

/-- An operator takes any operand, but needs a field. -/
theorem ofEntry_op_eq_ok {o : Operator} (hkey : Key.ofText key = .op o) :
    ofEntry key path value = .ok nodes ↔ path.isEmpty = false ∧ nodes = [.leaf ⟨path, o, value⟩] := by
  have hfield : (do underField key path; return [.leaf ⟨path, o, value⟩] : Except CompileError (List Filter)) =
      .ok nodes ↔ path.isEmpty = false ∧ nodes = [.leaf ⟨path, o, value⟩] := by
    unfold underField
    cases path.isEmpty with
    | true => simp [bind, Except.bind]
    | false => simp [bind, Except.bind, pure, Except.pure, eq_comm]
  cases value with
  | _ => simpa [ofScalar, hkey] using hfield

/-- A field with a value that is no object has to equal it. -/
theorem ofEntry_value (hkey : Key.ofText key = .field key) (hvalue : ∀ es, value ≠ .obj es) :
    ofEntry key path value = .ok [.leaf ⟨path.child key, .compare .eq, value⟩] := by
  cases value with
  | obj es => exact absurd rfl (hvalue es)
  | _ => simp [ofScalar, hkey]

/-- What stands in an object below a field is one node. -/
theorem ofEntry_field_eq_ok {name : String} (hkey : Key.ofText key = .field name) :
    ofEntry key path (.obj entries) = .ok nodes ↔
      ∃ inner, ofEntries (path.child name) entries = .ok inner ∧ (conjoin inner).toList = nodes := by
  simp only [ofEntry, hkey, bind_eq_ok, pure_eq_ok]

theorem ofEntry_count_eq_ok (hkey : Key.ofText key = .count) :
    ofEntry key path (.obj entries) = .ok nodes ↔ path.isEmpty = false ∧ counts path entries = .ok nodes := by
  simp only [ofEntry, hkey, bind_eq_ok, underField_eq_ok, exists_const]

/-- A negation of an object that says nothing says nothing. -/
theorem ofEntry_not_eq_ok (hkey : Key.ofText key = .not) :
    ofEntry key path (.obj entries) = .ok nodes ↔
      ∃ inner, ofEntries path entries = .ok inner ∧ ((conjoin inner).map .not).toList = nodes := by
  simp only [ofEntry, hkey, bind_eq_ok, pure_eq_ok]

theorem ofEntry_all_eq_ok (hkey : Key.ofText key = .all) :
    ofEntry key path (.obj entries) = .ok nodes ↔
      ∃ inner, ofEntries path entries = .ok inner ∧ [.all (conjoin inner).toList] = nodes := by
  simp only [ofEntry, hkey, bind_eq_ok, pure_eq_ok]

theorem ofEntry_any_eq_ok (hkey : Key.ofText key = .any) :
    ofEntry key path (.obj entries) = .ok nodes ↔
      ∃ inner, ofEntries path entries = .ok inner ∧ [.any (conjoin inner).toList] = nodes := by
  simp only [ofEntry, hkey, bind_eq_ok, pure_eq_ok]

theorem ofEntry_allItems_eq_ok (hkey : Key.ofText key = .all) :
    ofEntry key path (.arr items) = .ok nodes ↔ ∃ inner, ofItems key path items = .ok inner ∧ [.all inner] = nodes := by
  simp only [ofEntry, hkey, bind_eq_ok, pure_eq_ok]

theorem ofEntry_anyItems_eq_ok (hkey : Key.ofText key = .any) :
    ofEntry key path (.arr items) = .ok nodes ↔ ∃ inner, ofItems key path items = .ok inner ∧ [.any inner] = nodes := by
  simp only [ofEntry, hkey, bind_eq_ok, pure_eq_ok]

end Filter
end RecordService
