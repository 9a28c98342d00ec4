import RecordService.Proofs.Request.Leaves

/-! # Filters below a relation

A filter document reads the same below a field as at the root, except that all its paths begin with the field
(`Filter.ofEntries_under`). Operators may stand at the top of it only there, so that nothing is said of the documents
that are no filters by themselves. -/

namespace RecordService

/-- The path below a field. -/
def Path.under (p : Path) (field : String) : Path :=
  ⟨field :: p.segments⟩

def Predicate.under (p : Predicate) (field : String) : Predicate :=
  { p with path := p.path.under field }

@[simp] theorem Path.isEmpty_under (p : Path) (field : String) : (p.under field).isEmpty = false := rfl

@[simp] theorem Path.child_under (p : Path) (field segment : String) :
    (p.under field).child segment = (p.child segment).under field := rfl

namespace Filter

/-! ### Trees -/

mutual

/-- The node with all its paths below a field. -/
def under (field : String) : Filter → Filter
  | all children => all (underAll field children)
  | any children => any (underAll field children)
  | not child => not (child.under field)
  | leaf p => leaf (p.under field)

def underAll (field : String) : List Filter → List Filter
  | [] => []
  | node :: rest => node.under field :: underAll field rest

end

variable {field key : String} {path : Path} {nodes : List Filter}

theorem underAll_eq_map (field : String) (nodes : List Filter) : underAll field nodes = nodes.map (under field) := by
  induction nodes with
  | nil => rfl
  | cons node rest ih => rw [underAll, ih, List.map_cons]

@[simp] theorem underAll_append (a b : List Filter) :
    underAll field (a ++ b) = underAll field a ++ underAll field b := by
  simp [underAll_eq_map]

theorem conjoin_underAll (nodes : List Filter) :
    conjoin (underAll field nodes) = (conjoin nodes).map (under field) := by
  rcases nodes with - | ⟨first, - | ⟨second, rest⟩⟩
  · rfl
  · rfl
  · simp [underAll, conjoin, under]

theorem underAll_conjoin (nodes : List Filter) :
    underAll field (conjoin nodes).toList = (conjoin (underAll field nodes)).toList := by
  rw [conjoin_underAll]
  cases conjoin nodes <;> rfl

theorem underAll_negation (nodes : List Filter) :
    underAll field ((conjoin nodes).map .not).toList = ((conjoin (underAll field nodes)).map .not).toList := by
  rw [conjoin_underAll]
  cases conjoin nodes <;> rfl

/-! ### Documents -/

theorem counts_under {entries : List (String × Json)} (h : counts path entries = .ok nodes) :
    counts (path.under field) entries = .ok (underAll field nodes) := by
  induction entries generalizing nodes with
  | nil =>
    cases h
    rfl
  | cons e rest ih =>
    obtain ⟨c, more, hc, hmore, rfl⟩ := counts_cons_eq_ok.mp h
    exact counts_cons_eq_ok.mpr ⟨c, _, hc, ih hmore, rfl⟩

theorem ofScalar_under {value : Json} (h : ofScalar key value path = .ok nodes) :
    ofScalar key value (path.under field) = .ok (underAll field nodes) := by
  unfold ofScalar at h ⊢
  cases hk : Key.ofText key with
  | all | any | not => simp [hk] at h
  | count =>
    simp only [hk] at h
    obtain ⟨_, -, herr⟩ := bind_eq_ok.mp h
    cases herr
  | op o =>
    simp only [hk] at h
    obtain ⟨_, -, h⟩ := bind_eq_ok.mp h
    obtain rfl := pure_eq_ok.mp h
    rfl
  | field name =>
    simp only [hk] at h
    obtain rfl := Except.ok.inj h
    rfl

theorem scalarEntry_under {value : Json} (hs : value.isScalar = true) (h : ofEntry key path value = .ok nodes) :
    ofEntry key (path.under field) value = .ok (underAll field nodes) := by
  rw [ofEntry_of_isScalar hs] at h ⊢
  exact ofScalar_under h

mutual

/-- Below a field, entries say what they say without it, of the fields below it. -/
theorem ofEntries_under (field : String) (path : Path) : ∀ (entries : List (String × Json)) (nodes : List Filter),
    ofEntries path entries = .ok nodes → ofEntries (path.under field) entries = .ok (underAll field nodes)
  | [], nodes, h => by
    rw [ofEntries] at h ⊢
    cases h
    rfl
  | (key, value) :: rest, nodes, h => by
    obtain ⟨first, more, hfirst, hmore, rfl⟩ := ofEntries_cons_eq_ok.mp h
    exact ofEntries_cons_eq_ok.mpr ⟨_, _, ofEntry_under field key path value first hfirst,
      ofEntries_under field path rest more hmore, (underAll_append first more).symm⟩

theorem ofEntry_under (field key : String) (path : Path) : ∀ (value : Json) (nodes : List Filter),
    ofEntry key path value = .ok nodes → ofEntry key (path.under field) value = .ok (underAll field nodes)
  | .obj entries, nodes, h => by
    cases hk : Key.ofText key with
    | all =>
      obtain ⟨inner, hinner, rfl⟩ := (ofEntry_all_eq_ok hk).mp h
      refine (ofEntry_all_eq_ok hk).mpr ⟨_, ofEntries_under field path entries inner hinner, ?_⟩
      rw [underAll, underAll, under, underAll_conjoin]
    | any =>
      obtain ⟨inner, hinner, rfl⟩ := (ofEntry_any_eq_ok hk).mp h
      refine (ofEntry_any_eq_ok hk).mpr ⟨_, ofEntries_under field path entries inner hinner, ?_⟩
      rw [underAll, underAll, under, underAll_conjoin]
    | not =>
      obtain ⟨inner, hinner, rfl⟩ := (ofEntry_not_eq_ok hk).mp h
      exact (ofEntry_not_eq_ok hk).mpr
        ⟨_, ofEntries_under field path entries inner hinner, (underAll_negation inner).symm⟩
    | count =>
      obtain ⟨-, hcounts⟩ := (ofEntry_count_eq_ok hk).mp h
      exact (ofEntry_count_eq_ok hk).mpr ⟨path.isEmpty_under field, counts_under hcounts⟩
    | op o =>
      obtain ⟨-, rfl⟩ := (ofEntry_op_eq_ok hk).mp h
      exact (ofEntry_op_eq_ok hk).mpr ⟨path.isEmpty_under field, rfl⟩
    | field name =>
      obtain ⟨inner, hinner, rfl⟩ := (ofEntry_field_eq_ok hk).mp h
      exact (ofEntry_field_eq_ok hk).mpr
        ⟨_, ofEntries_under field (path.child name) entries inner hinner, (underAll_conjoin inner).symm⟩
  | .arr items, nodes, h => by
    cases hk : Key.ofText key with
    | all =>
      obtain ⟨inner, hinner, rfl⟩ := (ofEntry_allItems_eq_ok hk).mp h
      exact (ofEntry_allItems_eq_ok hk).mpr ⟨_, ofItems_under field key path items inner hinner, rfl⟩
    | any =>
      obtain ⟨inner, hinner, rfl⟩ := (ofEntry_anyItems_eq_ok hk).mp h
      exact (ofEntry_anyItems_eq_ok hk).mpr ⟨_, ofItems_under field key path items inner hinner, rfl⟩
    | _ =>
      simp only [ofEntry, hk] at h ⊢
      exact ofScalar_under h
  | .null, _, h => scalarEntry_under rfl h
  | .bool _, _, h => scalarEntry_under rfl h
  | .num _, _, h => scalarEntry_under rfl h
  | .str _, _, h => scalarEntry_under rfl h

theorem ofItems_under (field key : String) (path : Path) : ∀ (items : List Json) (nodes : List Filter),
    ofItems key path items = .ok nodes → ofItems key (path.under field) items = .ok (underAll field nodes)
  | [], nodes, h => by
    rw [ofItems] at h ⊢
    cases h
    rfl
  | item :: rest, nodes, h => by
    obtain ⟨entries, inner, more, rfl, hinner, hmore, rfl⟩ := ofItems_cons_eq_ok.mp h
    refine ofItems_cons_eq_ok.mpr ⟨entries, _, _, rfl, ofEntries_under field path entries inner hinner,
      ofItems_under field key path rest more hmore, ?_⟩
    rw [underAll_append, underAll_conjoin]

end

/-- A filter below a field is one clause at most, the clauses of the filter with all paths below the field. -/
theorem ofJson_under (hfield : Key.ofText field = .field field) {entries : List (String × Json)}
    (h : ofJson (.obj entries) = .ok nodes) :
    ofJson (.obj [(field, .obj entries)]) = .ok (match nodes with
      | [] => []
      | [node] => [node.under field]
      | nodes => [.all (nodes.map (under field))]) := by
  have hinner : ofEntries (Path.root.child field) entries = .ok (underAll field nodes) :=
    ofEntries_under field .root entries nodes h
  rw [ofJson, ofEntries_singleton, (ofEntry_field_eq_ok hfield).mpr ⟨_, hinner, rfl⟩, underAll_eq_map]
  rcases nodes with - | ⟨first, - | ⟨second, rest⟩⟩ <;> rfl

theorem ofJson_under_author :
    let entries : List (String × Json) :=
      [("_or", .arr [.obj [("name", .obj [("contains", .str "an")])],
          .obj [("not", .obj [("posts", .obj [("count", .obj [("_gte", .int 2)])])])]]),
        ("id", .int 7)]
    let nodes (path : String → Path) : List Filter :=
      [.any [.leaf ⟨path "name", .contains, .str "an"⟩, .not (.leaf ⟨path "posts", .count .gte, .int 2⟩)],
        .leaf ⟨path "id", .compare .eq, .int 7⟩]
    Key.ofText "author" = .field "author" ∧ ofJson (.obj entries) = .ok (nodes fun name => ⟨[name]⟩) ∧
      ofJson (.obj [("author", .obj entries)]) = .ok [.all (nodes fun name => ⟨["author", name]⟩)] := by
  intro entries nodes
  have hfield : Key.ofText "author" = .field "author" := by decide +kernel
  have hread : ofJson (.obj entries) = .ok (nodes fun name => ⟨[name]⟩) := by rfl
  exact ⟨hfield, hread, ofJson_under hfield hread⟩

end Filter
end RecordService
