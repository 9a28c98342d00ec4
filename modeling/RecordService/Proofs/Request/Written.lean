import RecordService.Proofs.Request.Leaves

/-! # Written filters

Each tree of conditions has a document: a group is a keyword with the documents of its children, a predicate its path,
one object for each segment, around the operator and the operand. Keywords may start with an underscore, which gives a
tree several documents (`Filter.Written`). All of them are read as the tree, of any depth and with empty groups in it,
as long as no segment of a path is a keyword (`Filter.ofJson_written`). -/

namespace RecordService

namespace Filter

/-- The words that name no field. -/
def keywords : List String :=
  ["and", "or", "not", "count", "eq", "neq", "gt", "gte", "lt", "lte", "in", "not_in", "between", "is_null", "contains",
    "starts_with", "ends_with", "eq_set"]

/-! ### Keys -/

/-- The key is the word, or the word after an underscore. -/
inductive Spells (word : String) : String → Prop
  | bare : Spells word word
  | marked : Spells word ("_" ++ word)

theorem Key.ofText_eq_field {key : String} : Key.ofText key = .field key ↔ bareKeyword key ∉ keywords := by
  constructor
  · intro h hmem
    simp only [keywords, List.mem_cons, List.not_mem_nil, or_false] at hmem
    rcases hmem with hbare | hbare | hbare | hbare | hbare | hbare | hbare | hbare | hbare | hbare | hbare | hbare |
      hbare | hbare | hbare | hbare | hbare | hbare <;> simp [ofText, hbare, Operator.ofName?, Comparison.ofName?,
        Comparison.name, Operator.name] at h
  · intro h
    simp only [keywords, List.mem_cons, List.not_mem_nil, or_false, not_or] at h
    simp [ofText, Operator.ofName?, Comparison.ofName?, Comparison.name, Operator.name, h, Ne.symm]

theorem Spells.bareKeyword_eq {word key : String} (h : Spells word key) (hword : bareKeyword word = word) :
    bareKeyword key = word := by
  cases h with
  | bare => exact hword
  | marked => simp [bareKeyword]

/-- A keyword is read the same in both spellings; a field is named by the whole key. -/
theorem Spells.ofText_eq {word key : String} (h : Spells word key) (hword : bareKeyword word = word) {k : Key}
    (hread : Key.ofText word = k) (hk : ∀ name, k ≠ .field name) : Key.ofText key = k := by
  simp only [Key.ofText, hword] at hread
  simp only [Key.ofText, h.bareKeyword_eq hword]
  cases hop : Operator.ofName? word with
  | some o => rwa [hop] at hread
  | none =>
    rw [hop] at hread
    split_ifs at hread ⊢ <;> first | exact hread | exact absurd hread.symm (hk _)

theorem Spells.key_all {key : String} (h : Spells "and" key) : Key.ofText key = .all :=
  h.ofText_eq rfl rfl nofun

theorem Spells.key_any {key : String} (h : Spells "or" key) : Key.ofText key = .any :=
  h.ofText_eq rfl rfl nofun

theorem Spells.key_not {key : String} (h : Spells "not" key) : Key.ofText key = .not :=
  h.ofText_eq rfl rfl nofun

theorem Spells.key_count {key : String} (h : Spells "count" key) : Key.ofText key = .count :=
  h.ofText_eq rfl rfl nofun

theorem Spells.key_op {op : Operator} (hop : ∀ c, op ≠ .count c) {key : String} (h : Spells op.name key) :
    Key.ofText key = .op op := by
  cases op with
  | count c => exact absurd rfl (hop c)
  | compare c => cases c <;> exact h.ofText_eq rfl rfl nofun
  | _ => exact h.ofText_eq rfl rfl nofun

theorem Spells.comparison {c : Comparison} {key : String} (h : Spells c.name key) :
    Comparison.ofName? (bareKeyword key) = some c := by
  rw [h.bareKeyword_eq (by cases c <;> rfl)]
  cases c <;> rfl

/-! ### Documents -/

/-- What is asked of a field: an operator and its operand, or a comparison of a count. -/
inductive Asks (op : Operator) (operand : Json) : List (String × Json) → Prop
  | op {key : String} : (∀ c, op ≠ .count c) → Spells op.name key → Asks op operand [(key, operand)]
  | count {c : Comparison} {key inner : String} : op = .count c → Spells "count" key → Spells c.name inner →
      Asks op operand [(key, .obj [(inner, operand)])]

/-- A document below a chain of keys. -/
def nested : List String → Json → Json
  | [], d => d
  | key :: rest, d => .obj [(key, nested rest d)]

mutual

/-- The documents of a tree. -/
inductive Written : Filter → Json → Prop
  | all {children : List Filter} {items : List Json} {key : String} : Spells "and" key → WrittenAll children items →
      Written (.all children) (.obj [(key, .arr items)])
  | any {children : List Filter} {items : List Json} {key : String} : Spells "or" key → WrittenAll children items →
      Written (.any children) (.obj [(key, .arr items)])
  | not {child : Filter} {d : Json} {key : String} : Spells "not" key → Written child d →
      Written (.not child) (.obj [(key, d)])
  | leaf {p : Predicate} {entries : List (String × Json)} : Asks p.op p.operand entries →
      Written (.leaf p) (nested p.path.segments (.obj entries))

inductive WrittenAll : List Filter → List Json → Prop
  | nil : WrittenAll [] []
  | cons {node : Filter} {d : Json} {nodes : List Filter} {items : List Json} : Written node d →
      WrittenAll nodes items → WrittenAll (node :: nodes) (d :: items)

end

/-- The operator and the operand of a predicate. -/
def asked (p : Predicate) : List (String × Json) :=
  match p.op with
  | .count c => [("count", .obj [(c.name, p.operand)])]
  | op => [(op.name, p.operand)]

mutual

/-- The document of a tree that has no underscores. -/
def toJson : Filter → Json
  | all children => .obj [("and", .arr (toJsonAll children))]
  | any children => .obj [("or", .arr (toJsonAll children))]
  | not child => .obj [("not", child.toJson)]
  | leaf p => nested p.path.segments (.obj (asked p))

def toJsonAll : List Filter → List Json
  | [] => []
  | node :: rest => node.toJson :: toJsonAll rest

end

theorem asks_asked (p : Predicate) : Asks p.op p.operand (asked p) := by
  obtain ⟨path, op, operand⟩ := p
  cases op with
  | count c => exact .count rfl .bare .bare
  | _ => exact .op (fun c h => by cases h) .bare

mutual

theorem written_of_toJson : ∀ {f : Filter} {d : Json}, f.toJson = d → f.Written d
  | all _, _, rfl => .all .bare (writtenAll_of_toJsonAll rfl)
  | any _, _, rfl => .any .bare (writtenAll_of_toJsonAll rfl)
  | not _, _, rfl => .not .bare (written_of_toJson rfl)
  | leaf p, _, rfl => .leaf (asks_asked p)

theorem writtenAll_of_toJsonAll : ∀ {nodes : List Filter} {items : List Json}, toJsonAll nodes = items →
    WrittenAll nodes items
  | [], _, rfl => .nil
  | _ :: _, _, rfl => .cons (written_of_toJson rfl) (writtenAll_of_toJsonAll rfl)

end

/-! ### Reading -/

/-- The path goes through fields to a field. -/
def OfFields (p : Path) : Prop :=
  p.segments ≠ [] ∧ ∀ s ∈ p.segments, bareKeyword s ∉ keywords

variable {path : Path}

theorem Asks.reads {op : Operator} {operand : Json} {entries : List (String × Json)} (h : Asks op operand entries)
    (hpath : path.isEmpty = false) : ofEntries path entries = .ok [.leaf ⟨path, op, operand⟩] := by
  cases h with
  | op hop hkey =>
    rw [ofEntries_singleton, ofEntry_op_eq_ok (hkey.key_op hop)]
    exact ⟨hpath, rfl⟩
  | count hop hkey hinner =>
    subst hop
    rw [ofEntries_singleton, ofEntry_count_eq_ok hkey.key_count]
    exact ⟨hpath, counts_cons_eq_ok.mpr ⟨_, [], hinner.comparison, rfl, rfl⟩⟩

/-- A document below fields is one node, that of the document at the end of them. -/
theorem ofEntries_nested {entries : List (String × Json)} {node : Filter} : ∀ {segments : List String} (path : Path),
    (∀ s ∈ segments, bareKeyword s ∉ keywords) → ofEntries ⟨path.segments ++ segments⟩ entries = .ok [node] →
      ∃ outer, nested segments (.obj entries) = .obj outer ∧ ofEntries path outer = .ok [node]
  | [], path, _, h => ⟨entries, rfl, by simpa using h⟩
  | s :: rest, path, hfields, h => by
    obtain ⟨inner, hinner, hread⟩ := ofEntries_nested (path.child s) (fun t ht => hfields t (List.mem_cons_of_mem s ht))
      (by simpa [Path.child] using h)
    have hkey : Key.ofText s = .field s := Key.ofText_eq_field.mpr (hfields s List.mem_cons_self)
    refine ⟨[(s, .obj inner)], by rw [nested, hinner], ?_⟩
    rw [ofEntries_singleton, ofEntry_field_eq_ok hkey]
    exact ⟨_, hread, rfl⟩

mutual

/-- A written node is an object, which is read as the node. -/
theorem Written.reads : ∀ {f : Filter} {d : Json}, Written f d → (∀ p ∈ f.leaves, OfFields p.path) →
    ∃ entries, d = .obj entries ∧ ofEntries .root entries = .ok [f]
  | _, _, .all hkey hitems, hleaves => by
    refine ⟨_, rfl, ?_⟩
    rw [ofEntries_singleton, ofEntry_allItems_eq_ok hkey.key_all]
    exact ⟨_, hitems.reads hleaves, rfl⟩
  | _, _, .any hkey hitems, hleaves => by
    refine ⟨_, rfl, ?_⟩
    rw [ofEntries_singleton, ofEntry_anyItems_eq_ok hkey.key_any]
    exact ⟨_, hitems.reads hleaves, rfl⟩
  | _, _, .not hkey hchild, hleaves => by
    obtain ⟨entries, rfl, hread⟩ := hchild.reads hleaves
    refine ⟨_, rfl, ?_⟩
    rw [ofEntries_singleton, ofEntry_not_eq_ok hkey.key_not]
    exact ⟨_, hread, rfl⟩
  | _, _, .leaf (p := p) hasks, hleaves => by
    -- the path is spelled by nested keys, and the innermost object has the test
    obtain ⟨hne, hfields⟩ := hleaves p (by simp [leaves])
    exact ofEntries_nested .root hfields (hasks.reads (by simpa [Path.isEmpty, Path.root] using hne))

theorem WrittenAll.reads {key : String} : ∀ {nodes : List Filter} {items : List Json}, WrittenAll nodes items →
    (∀ p ∈ leavesOfAll nodes, OfFields p.path) → ofItems key .root items = .ok nodes
  | _, _, .nil, _ => by rw [ofItems]
  | _, _, .cons hnode hrest, hleaves => by
    simp only [leavesOfAll, List.mem_append] at hleaves
    obtain ⟨entries, rfl, hread⟩ := hnode.reads fun p hp => hleaves p (Or.inl hp)
    exact ofItems_cons_eq_ok.mpr
      ⟨entries, _, _, rfl, hread, hrest.reads fun p hp => hleaves p (Or.inr hp), rfl⟩

end

/-- A written tree is read as itself, whether its keywords have underscores or not. -/
theorem ofJson_written {f : Filter} (h : ∀ p ∈ f.leaves, OfFields p.path) :
    ofJson f.toJson = .ok [f] ∧ ∀ d, f.Written d → ofJson d = .ok [f] := by
  have hread (d : Json) (hd : f.Written d) : ofJson d = .ok [f] := by
    obtain ⟨entries, rfl, hentries⟩ := hd.reads h
    exact hentries
  exact ⟨hread _ (written_of_toJson rfl), hread⟩

/-- Groups of all kinds, one of them empty, a path of two segments and a count, with and without underscores. -/
theorem ofJson_written_author :
    let name : Predicate := ⟨⟨["author", "name"]⟩, .contains, .str "an"⟩
    let tags : Predicate := ⟨⟨["tags"]⟩, .count .gte, .int 2⟩
    let tree : Filter := .all [.any [], .not (.any [.leaf name, .leaf tags])]
    let document (key : String → String) : Json :=
      .obj [(key "and", .arr [.obj [("or", .arr [])], .obj [(key "not", .obj [("or", .arr
        [.obj [("author", .obj [("name", .obj [(key "contains", .str "an")])])],
          .obj [("tags", .obj [(key "count", .obj [("gte", .int 2)])])]])])]])]
    (∀ p ∈ tree.leaves, OfFields p.path) ∧ tree.toJson = document id ∧ tree.Written (document ("_" ++ ·)) ∧
      ofJson (document id) = .ok [tree] ∧ ofJson (document ("_" ++ ·)) = .ok [tree] := by
  intro name tags tree document
  have hfields : ∀ p ∈ tree.leaves, OfFields p.path := by
    have hleaves : tree.leaves = [name, tags] := rfl
    rw [hleaves]
    refine List.forall_mem_cons.mpr ⟨⟨by decide, by decide +kernel⟩, List.forall_mem_singleton.mpr ⟨by decide, ?_⟩⟩
    decide +kernel
  have hwritten : tree.Written (document ("_" ++ ·)) := by
    have hname : Written (.leaf name) _ := .leaf (.op (fun _ h => nomatch h) .marked)
    have htags : Written (.leaf tags) _ := .leaf (.count rfl .marked .bare)
    exact .all .marked (.cons (.any .bare .nil)
      (.cons (.not .marked (.any .bare (.cons hname (.cons htags .nil)))) .nil))
  obtain ⟨hplain, hall⟩ := ofJson_written hfields
  exact ⟨hfields, rfl, hwritten, hplain, hall _ hwritten⟩

end Filter
end RecordService
