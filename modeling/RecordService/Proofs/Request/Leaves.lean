import RecordService.Proofs.Request.Entries

/-! # Leaves of a filter

The predicates of a filter document, in the order in which they stand in it (`Filter.predicates`), are the leaves of the
tree that it is read into (`Filter.leavesOfAll_ofJson`): reading neither drops nor reorders them. -/

namespace RecordService

/-- Neither an object nor an array. -/
def Json.isScalar : Json → Bool
  | .obj _ => false
  | .arr _ => false
  | _ => true

namespace Filter

/-! ### Of a tree -/

mutual

/-- The predicates of a node, from left to right. -/
def leaves : Filter → List Predicate
  | all children => leavesOfAll children
  | any children => leavesOfAll children
  | not child => child.leaves
  | leaf p => [p]

/-- The predicates of several nodes. -/
def leavesOfAll : List Filter → List Predicate
  | [] => []
  | node :: rest => node.leaves ++ leavesOfAll rest

end

theorem leavesOfAll_eq (nodes : List Filter) : leavesOfAll nodes = nodes.flatMap leaves := by
  induction nodes with
  | nil => rfl
  | cons node rest ih => simp [leavesOfAll, ih]

theorem leavesOfAll_append (a b : List Filter) : leavesOfAll (a ++ b) = leavesOfAll a ++ leavesOfAll b := by
  simp [leavesOfAll_eq]

theorem leavesOfAll_singleton (node : Filter) : leavesOfAll [node] = node.leaves := by
  simp [leavesOfAll]

theorem leavesOfAll_conjoin (nodes : List Filter) : leavesOfAll (conjoin nodes).toList = leavesOfAll nodes := by
  rcases nodes with - | ⟨first, - | ⟨second, rest⟩⟩
  · rfl
  · rfl
  · exact leavesOfAll_singleton _

theorem leavesOfAll_negation (nodes : List Filter) :
    leavesOfAll ((conjoin nodes).map .not).toList = leavesOfAll nodes := by
  rw [← leavesOfAll_conjoin nodes]
  cases conjoin nodes with
  | none => rfl
  | some node => simp [leavesOfAll, leaves]

/-! ### Of a document -/

/-- The predicates of a count operand. -/
def countPredicates (path : Path) : List (String × Json) → List Predicate
  | [] => []
  | (key, operand) :: rest =>
    match Comparison.ofName? (bareKeyword key) with
    | some c => ⟨path, .count c, operand⟩ :: countPredicates path rest
    | none => countPredicates path rest

/-- The predicate of an entry whose value is no further filter. -/
def scalarPredicates (key : String) (value : Json) (path : Path) : List Predicate :=
  match Key.ofText key with
  | .op o => [⟨path, o, value⟩]
  | .field name => [⟨path.child name, .compare .eq, value⟩]
  | _ => []

mutual

/-- The predicates of the entries of an object at a path. -/
def entriesPredicates (path : Path) : List (String × Json) → List Predicate
  | [] => []
  | (key, value) :: rest => entryPredicates key path value ++ entriesPredicates path rest

/-- The predicates of one entry. -/
def entryPredicates (key : String) (path : Path) : Json → List Predicate
  | .obj entries =>
    match Key.ofText key with
    | .all | .any | .not => entriesPredicates path entries
    | .count => countPredicates path entries
    | .op o => [⟨path, o, .obj entries⟩]
    | .field name => entriesPredicates (path.child name) entries
  | .arr items =>
    match Key.ofText key with
    | .all | .any => itemsPredicates path items
    | _ => scalarPredicates key (.arr items) path
  | value => scalarPredicates key value path

/-- The predicates of the children of a group. -/
def itemsPredicates (path : Path) : List Json → List Predicate
  | [] => []
  | .obj entries :: rest => entriesPredicates path entries ++ itemsPredicates path rest
  | _ :: rest => itemsPredicates path rest

end

/-- The predicates of a filter document, in the order in which they stand. -/
def predicates : Json → List Predicate
  | .obj entries => entriesPredicates .root entries
  | _ => []

/-! ### Reading -/

theorem leavesOfAll_counts {path : Path} {entries : List (String × Json)} {nodes : List Filter}
    (h : counts path entries = .ok nodes) : leavesOfAll nodes = countPredicates path entries := by
  induction entries generalizing nodes with
  | nil =>
    cases h
    rfl
  | cons e rest ih =>
    obtain ⟨c, more, hc, hmore, rfl⟩ := counts_cons_eq_ok.mp h
    simp [leavesOfAll, leaves, countPredicates, hc, ih hmore]

theorem leavesOfAll_ofScalar {key : String} {value : Json} {path : Path} {nodes : List Filter}
    (h : ofScalar key value path = .ok nodes) : leavesOfAll nodes = scalarPredicates key value path := by
  unfold ofScalar at h
  unfold scalarPredicates
  cases hk : Key.ofText key with
  | all => simp [hk] at h
  | any => simp [hk] at h
  | not => simp [hk] at h
  | count =>
    simp only [hk] at h
    obtain ⟨_, -, herr⟩ := bind_eq_ok.mp h
    cases herr
  | op o =>
    simp only [hk] at h
    obtain ⟨_, -, hnodes⟩ := bind_eq_ok.mp h
    rw [← pure_eq_ok.mp hnodes]
    simp [leavesOfAll, leaves]
  | field name =>
    simp only [hk] at h
    rw [← pure_eq_ok.mp h]
    simp [leavesOfAll, leaves]

theorem ofEntry_of_isScalar {key : String} {value : Json} {path : Path} (h : value.isScalar = true) :
    ofEntry key path value = ofScalar key value path := by
  cases value with
  | arr | obj => cases h
  | _ => simp [ofEntry]

theorem entryPredicates_of_isScalar {key : String} {value : Json} {path : Path} (h : value.isScalar = true) :
    entryPredicates key path value = scalarPredicates key value path := by
  cases value with
  | arr | obj => cases h
  | _ => simp [entryPredicates]

theorem leavesOfAll_scalarEntry {key : String} {value : Json} {path : Path} {nodes : List Filter}
    (hs : value.isScalar = true) (h : ofEntry key path value = .ok nodes) :
    leavesOfAll nodes = entryPredicates key path value := by
  rw [entryPredicates_of_isScalar hs]
  exact leavesOfAll_ofScalar (ofEntry_of_isScalar hs ▸ h)

mutual

theorem leavesOfAll_ofEntries (path : Path) : ∀ (entries : List (String × Json)) (nodes : List Filter),
    ofEntries path entries = .ok nodes → leavesOfAll nodes = entriesPredicates path entries
  | [], nodes, h => by
    rw [ofEntries] at h
    cases h
    rfl
  | (key, value) :: rest, nodes, h => by
    obtain ⟨first, more, hfirst, hmore, rfl⟩ := ofEntries_cons_eq_ok.mp h
    rw [leavesOfAll_append, entriesPredicates, leavesOfAll_ofEntry key path value first hfirst,
      leavesOfAll_ofEntries path rest more hmore]

theorem leavesOfAll_ofEntry (key : String) (path : Path) : ∀ (value : Json) (nodes : List Filter),
    ofEntry key path value = .ok nodes → leavesOfAll nodes = entryPredicates key path value
  | .obj entries, nodes, h => by
    rw [entryPredicates]
    cases hk : Key.ofText key with
    | all =>
      obtain ⟨inner, hinner, rfl⟩ := (ofEntry_all_eq_ok hk).mp h
      rw [leavesOfAll_singleton, leaves, leavesOfAll_conjoin]
      exact leavesOfAll_ofEntries path entries inner hinner
    | any =>
      obtain ⟨inner, hinner, rfl⟩ := (ofEntry_any_eq_ok hk).mp h
      rw [leavesOfAll_singleton, leaves, leavesOfAll_conjoin]
      exact leavesOfAll_ofEntries path entries inner hinner
    | not =>
      obtain ⟨inner, hinner, rfl⟩ := (ofEntry_not_eq_ok hk).mp h
      rw [leavesOfAll_negation]
      exact leavesOfAll_ofEntries path entries inner hinner
    | count =>
      obtain ⟨-, hcounts⟩ := (ofEntry_count_eq_ok hk).mp h
      exact leavesOfAll_counts hcounts
    | op o =>
      obtain ⟨-, rfl⟩ := (ofEntry_op_eq_ok hk).mp h
      rfl
    | field name =>
      obtain ⟨inner, hinner, rfl⟩ := (ofEntry_field_eq_ok hk).mp h
      rw [leavesOfAll_conjoin]
      exact leavesOfAll_ofEntries (path.child name) entries inner hinner
  | .arr items, nodes, h => by
    rw [entryPredicates]
    cases hk : Key.ofText key with
    | all =>
      obtain ⟨inner, hinner, rfl⟩ := (ofEntry_allItems_eq_ok hk).mp h
      rw [leavesOfAll_singleton]
      exact leavesOfAll_ofItems key path items inner hinner
    | any =>
      obtain ⟨inner, hinner, rfl⟩ := (ofEntry_anyItems_eq_ok hk).mp h
      rw [leavesOfAll_singleton]
      exact leavesOfAll_ofItems key path items inner hinner
    | _ =>
      simp only [ofEntry, hk] at h
      exact leavesOfAll_ofScalar h
  | .null, nodes, h => leavesOfAll_scalarEntry rfl h
  | .bool _, nodes, h => leavesOfAll_scalarEntry rfl h
  | .num _, nodes, h => leavesOfAll_scalarEntry rfl h
  | .str _, nodes, h => leavesOfAll_scalarEntry rfl h

theorem leavesOfAll_ofItems (key : String) (path : Path) : ∀ (items : List Json) (nodes : List Filter),
    ofItems key path items = .ok nodes → leavesOfAll nodes = itemsPredicates path items
  | [], nodes, h => by
    rw [ofItems] at h
    cases h
    rfl
  | item :: rest, nodes, h => by
    obtain ⟨entries, inner, more, rfl, hinner, hmore, rfl⟩ := ofItems_cons_eq_ok.mp h
    rw [leavesOfAll_append, leavesOfAll_conjoin, itemsPredicates, leavesOfAll_ofEntries path entries inner hinner,
      leavesOfAll_ofItems key path rest more hmore]

end

/-- The leaves of what is read are the predicates of the document. -/
theorem leavesOfAll_ofJson {filter : Json} {nodes : List Filter} (h : ofJson filter = .ok nodes) :
    leavesOfAll nodes = predicates filter := by
  cases filter with
  | null =>
    rw [ofJson] at h
    cases h
    rfl
  | obj entries =>
    rw [ofJson] at h
    exact leavesOfAll_ofEntries .root entries nodes h
  | _ => simp [ofJson] at h

end Filter
end RecordService
