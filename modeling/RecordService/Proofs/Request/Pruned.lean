import RecordService.Proofs.Request.Leaves
import RecordService.Request.Aggregate
import RecordService.Request.Find
import RecordService.Request.Sort
import Mathlib.Data.List.Forall2

/-! # Requests less some of their parts

A request may be given with some of its field paths, sort terms and filter leaves deleted (`FindRequest.Pruned`); which
of them may go is a parameter. Deleting entries from a filter document deletes leaves of the tree that it is read into
(`DocumentPruned.ofJson`), with one thing besides: several clauses of an object are read as a group, and a single one
that is left of them is not. A deletion is `tight` if it leaves every group a group. -/

namespace RecordService

/-- A list less some elements that may go. -/
inductive Thinned {α : Type} (lost : α → Prop) : List α → List α → Prop
  | nil : Thinned lost [] []
  | keep {a : α} {as bs : List α} : Thinned lost as bs → Thinned lost (a :: as) (a :: bs)
  | drop {a : α} {as bs : List α} : lost a → Thinned lost as bs → Thinned lost (a :: as) bs

namespace Filter

/-! ### Trees -/

mutual

/-- A node less some leaves whose paths may go. -/
inductive Pruned (lost : Path → Prop) (tight : Prop) : Filter → Filter → Prop
  | same {f : Filter} : Pruned lost tight f f
  | all {as bs : List Filter} : PrunedAll lost tight as bs → Pruned lost tight (.all as) (.all bs)
  | any {as bs : List Filter} : PrunedAll lost tight as bs → Pruned lost tight (.any as) (.any bs)
  | not {a b : Filter} : Pruned lost tight a b → Pruned lost tight (.not a) (.not b)
  /-- What is left of a conjunction may stand alone. -/
  | alone {as : List Filter} {b : Filter} : ¬tight → PrunedAll lost tight as [b] → Pruned lost tight (.all as) b

/-- Several nodes less some leaves. A node that has lost all its leaves may go. -/
inductive PrunedAll (lost : Path → Prop) (tight : Prop) : List Filter → List Filter → Prop
  | nil : PrunedAll lost tight [] []
  | cons {a b : Filter} {as bs : List Filter} : Pruned lost tight a b → PrunedAll lost tight as bs →
      PrunedAll lost tight (a :: as) (b :: bs)
  | drop {a : Filter} {as bs : List Filter} : (∀ p ∈ a.leaves, lost p.path) → PrunedAll lost tight as bs →
      PrunedAll lost tight (a :: as) bs

end

/-! ### Documents -/

/-- The number of nodes that the entries of an object are read into. -/
def clauses (path : Path) (entries : List (String × Json)) : Nat :=
  match ofEntries path entries with
  | .ok nodes => nodes.length
  | .error _ => 0

mutual

/-- Entries of an object at a path, less some whose predicates may go. -/
inductive EntriesPruned (lost : Path → Prop) (tight : Prop) :
    Path → List (String × Json) → List (String × Json) → Prop
  | nil {path : Path} : EntriesPruned lost tight path [] []
  | keep {path : Path} {e : String × Json} {as bs : List (String × Json)} : EntriesPruned lost tight path as bs →
      EntriesPruned lost tight path (e :: as) (e :: bs)
  | drop {path : Path} {key : String} {a : Json} {as bs : List (String × Json)} :
      (∀ p ∈ entryPredicates key path a, lost p.path) → EntriesPruned lost tight path as bs →
      EntriesPruned lost tight path ((key, a) :: as) bs
  | inside {path : Path} {key : String} {a b : Json} {as bs : List (String × Json)} :
      EntryPruned lost tight key path a b → EntriesPruned lost tight path as bs →
      EntriesPruned lost tight path ((key, a) :: as) ((key, b) :: bs)

/-- The value of a key at a path, less some clauses of it. -/
inductive EntryPruned (lost : Path → Prop) (tight : Prop) : String → Path → Json → Json → Prop
  | field {key name : String} {path : Path} {as bs : List (String × Json)} : Key.ofText key = .field name →
      ObjectPruned lost tight (path.child name) as bs → EntryPruned lost tight key path (.obj as) (.obj bs)
  /-- A combinator of the entries of one object. -/
  | combine {key : String} {path : Path} {as bs : List (String × Json)} : Key.ofText key ∈ [Key.all, .any, .not] →
      ObjectPruned lost tight path as bs → EntryPruned lost tight key path (.obj as) (.obj bs)
  /-- A combinator of several objects. -/
  | combineItems {key : String} {path : Path} {as bs : List Json} : Key.ofText key ∈ [Key.all, .any] →
      ItemsPruned lost tight path as bs → EntryPruned lost tight key path (.arr as) (.arr bs)
  | count {key : String} {path : Path} {as bs : List (String × Json)} : Key.ofText key = .count → lost path →
      bs.Sublist as → EntryPruned lost tight key path (.obj as) (.obj bs)

inductive ItemsPruned (lost : Path → Prop) (tight : Prop) : Path → List Json → List Json → Prop
  | nil {path : Path} : ItemsPruned lost tight path [] []
  | keep {path : Path} {item : Json} {as bs : List Json} : ItemsPruned lost tight path as bs →
      ItemsPruned lost tight path (item :: as) (item :: bs)
  | drop {path : Path} {entries : List (String × Json)} {as bs : List Json} :
      (∀ p ∈ entriesPredicates path entries, lost p.path) → ItemsPruned lost tight path as bs →
      ItemsPruned lost tight path (.obj entries :: as) bs
  | inside {path : Path} {es fs : List (String × Json)} {as bs : List Json} : ObjectPruned lost tight path es fs →
      ItemsPruned lost tight path as bs → ItemsPruned lost tight path (.obj es :: as) (.obj fs :: bs)

/-- An object below the root, less some entries. -/
inductive ObjectPruned (lost : Path → Prop) (tight : Prop) :
    Path → List (String × Json) → List (String × Json) → Prop
  | mk {path : Path} {as bs : List (String × Json)} : EntriesPruned lost tight path as bs →
      (tight → clauses path bs = 1 → clauses path as = 1) → ObjectPruned lost tight path as bs

end

/-! ### Reading -/

variable {lost : Path → Prop} {tight : Prop} {path : Path} {key : String}

namespace PrunedAll

theorem refl : ∀ nodes : List Filter, PrunedAll lost tight nodes nodes
  | [] => .nil
  | _ :: rest => .cons .same (refl rest)

theorem append {as bs as' bs' : List Filter} (h : PrunedAll lost tight as bs) (h' : PrunedAll lost tight as' bs') :
    PrunedAll lost tight (as ++ as') (bs ++ bs') := by
  induction as generalizing bs with
  | nil =>
    cases h
    exact h'
  | cons a as ih =>
    cases h with
    | cons hab hrest => exact .cons hab (ih hrest)
    | drop hlost hrest => exact .drop hlost (ih hrest)

theorem drops : ∀ {nodes : List Filter}, (∀ p ∈ leavesOfAll nodes, lost p.path) → PrunedAll lost tight nodes []
  | [], _ => .nil
  | node :: rest, h => by
    simp only [leavesOfAll, List.mem_append] at h
    exact .drop (fun p hp => h p (Or.inl hp)) (drops fun p hp => h p (Or.inr hp))

/-- Where nothing is left, everything may go. -/
theorem lost_leaves {nodes : List Filter} (h : PrunedAll lost tight nodes []) :
    ∀ p ∈ leavesOfAll nodes, lost p.path := by
  induction nodes with
  | nil => exact fun p hp => absurd hp List.not_mem_nil
  | cons node rest ih =>
    cases h with
    | drop hlost hrest =>
      intro p hp
      rcases List.mem_append.mp hp with hp | hp
      · exact hlost p hp
      · exact ih hrest p hp

theorem length_le {as bs : List Filter} (h : PrunedAll lost tight as bs) : bs.length ≤ as.length := by
  induction as generalizing bs with
  | nil => cases h; exact Nat.le_refl 0
  | cons a as ih =>
    cases h with
    | cons _ hrest => exact Nat.succ_le_succ (ih hrest)
    | drop _ hrest => exact Nat.le_succ_of_le (ih hrest)

theorem sublist {as bs : List Filter} (h : bs.Sublist as) (hlost : ∀ p ∈ leavesOfAll as, lost p.path) :
    PrunedAll lost tight as bs := by
  induction h with
  | slnil => exact .nil
  | cons a _ ih =>
    simp only [leavesOfAll, List.mem_append] at hlost
    exact .drop (fun p hp => hlost p (Or.inl hp)) (ih fun p hp => hlost p (Or.inr hp))
  | cons_cons a _ ih =>
    simp only [leavesOfAll, List.mem_append] at hlost
    exact .cons .same (ih fun p hp => hlost p (Or.inr hp))

/-- The one node that several nodes are read as. -/
theorem conjoin {as bs : List Filter} (h : PrunedAll lost tight as bs) (ht : tight → bs.length = 1 → as.length = 1) :
    Filter.conjoin as = none ∧ Filter.conjoin bs = none ∨
      (∃ a, Filter.conjoin as = some a ∧ Filter.conjoin bs = none ∧ ∀ p ∈ a.leaves, lost p.path) ∨
      ∃ a b, Filter.conjoin as = some a ∧ Filter.conjoin bs = some b ∧ Pruned lost tight a b := by
  match as, bs, h with
  | [], [], _ => exact Or.inl ⟨rfl, rfl⟩
  | [a], [], h =>
    refine Or.inr (Or.inl ⟨a, rfl, rfl, ?_⟩)
    simpa [leavesOfAll] using h.lost_leaves
  | [a], [b], h =>
    refine Or.inr (Or.inr ⟨a, b, rfl, rfl, ?_⟩)
    cases h with
    | cons hab _ => exact hab
    | drop _ hrest => cases hrest
  | a :: a' :: as, [], h => exact Or.inr (Or.inl ⟨_, rfl, rfl, h.lost_leaves⟩)
  | a :: a' :: as, [b], h =>
    have hloose : ¬tight := fun htight => by simpa using ht htight rfl
    exact Or.inr (Or.inr ⟨_, _, rfl, rfl, .alone hloose h⟩)
  | a :: a' :: as, b :: b' :: bs, h => exact Or.inr (Or.inr ⟨_, _, rfl, rfl, .all h⟩)
  | [a], b :: b' :: bs, h => exact absurd h.length_le (by simp)

theorem conjoined {as bs : List Filter} (h : PrunedAll lost tight as bs) (ht : tight → bs.length = 1 → as.length = 1) :
    PrunedAll lost tight (Filter.conjoin as).toList (Filter.conjoin bs).toList := by
  rcases h.conjoin ht with ⟨ha, hb⟩ | ⟨a, ha, hb, hlost⟩ | ⟨a, b, ha, hb, hab⟩
  · rw [ha, hb]
    exact .nil
  · rw [ha, hb]
    exact .drop hlost .nil
  · rw [ha, hb]
    exact .cons hab .nil

theorem negation {as bs : List Filter} (h : PrunedAll lost tight as bs) (ht : tight → bs.length = 1 → as.length = 1) :
    PrunedAll lost tight ((Filter.conjoin as).map .not).toList ((Filter.conjoin bs).map .not).toList := by
  rcases h.conjoin ht with ⟨ha, hb⟩ | ⟨a, ha, hb, hlost⟩ | ⟨a, b, ha, hb, hab⟩
  · rw [ha, hb]
    exact .nil
  · rw [ha, hb]
    exact .drop hlost .nil
  · rw [ha, hb]
    exact .cons (.not hab) .nil

end PrunedAll

theorem counts_sublist {as bs : List (String × Json)} (h : bs.Sublist as) :
    ∀ {ms : List Filter}, counts path as = .ok ms → ∃ ns, counts path bs = .ok ns ∧ ns.Sublist ms := by
  induction h with
  | slnil => exact fun hread => ⟨_, hread, List.Sublist.refl _⟩
  | cons e _ ih =>
    intro ms hread
    obtain ⟨c, more, -, hmore, rfl⟩ := counts_cons_eq_ok.mp hread
    obtain ⟨ns, hns, hsub⟩ := ih hmore
    exact ⟨ns, hns, hsub.cons _⟩
  | cons_cons e _ ih =>
    intro ms hread
    obtain ⟨c, more, hc, hmore, rfl⟩ := counts_cons_eq_ok.mp hread
    obtain ⟨ns, hns, hsub⟩ := ih hmore
    exact ⟨_, counts_cons_eq_ok.mpr ⟨c, ns, hc, hns, rfl⟩, hsub.cons_cons _⟩

theorem path_of_mem_countPredicates {entries : List (String × Json)} {p : Predicate}
    (h : p ∈ countPredicates path entries) : p.path = path := by
  induction entries with
  | nil => cases h
  | cons e rest ih =>
    obtain ⟨key, operand⟩ := e
    simp only [countPredicates] at h
    split at h
    · rcases List.mem_cons.mp h with rfl | h
      · rfl
      · exact ih h
    · exact ih h

theorem clauses_of_ok {entries : List (String × Json)} {nodes : List Filter} (h : ofEntries path entries = .ok nodes) :
    clauses path entries = nodes.length := by
  rw [clauses, h]

mutual

theorem EntriesPruned.ofEntries : ∀ {path : Path} {as bs : List (String × Json)} {ms : List Filter},
    EntriesPruned lost tight path as bs → ofEntries path as = .ok ms →
      ∃ ns, ofEntries path bs = .ok ns ∧ PrunedAll lost tight ms ns
  | path, _, _, ms, .nil, ha => by
    rw [Filter.ofEntries] at ha
    cases ha
    exact ⟨[], by rw [Filter.ofEntries], .nil⟩
  | path, (key, a) :: as, _, ms, .keep hrest, ha => by
    obtain ⟨first, more, hfirst, hmore, rfl⟩ := ofEntries_cons_eq_ok.mp ha
    obtain ⟨ns, hns, hpruned⟩ := hrest.ofEntries hmore
    exact ⟨_, ofEntries_cons_eq_ok.mpr ⟨first, ns, hfirst, hns, rfl⟩, (PrunedAll.refl first).append hpruned⟩
  | path, _, _, ms, .drop hlost hrest, ha => by
    obtain ⟨first, more, hfirst, hmore, rfl⟩ := ofEntries_cons_eq_ok.mp ha
    obtain ⟨ns, hns, hpruned⟩ := hrest.ofEntries hmore
    rw [← leavesOfAll_ofEntry _ _ _ _ hfirst] at hlost
    exact ⟨ns, hns, (PrunedAll.drops hlost).append hpruned⟩
  | path, _, _, ms, .inside hab hrest, ha => by
    obtain ⟨first, more, hfirst, hmore, rfl⟩ := ofEntries_cons_eq_ok.mp ha
    obtain ⟨ns₁, hns₁, hpruned₁⟩ := hab.ofEntry hfirst
    obtain ⟨ns₂, hns₂, hpruned₂⟩ := hrest.ofEntries hmore
    exact ⟨_, ofEntries_cons_eq_ok.mpr ⟨ns₁, ns₂, hns₁, hns₂, rfl⟩, hpruned₁.append hpruned₂⟩

theorem EntryPruned.ofEntry : ∀ {key : String} {path : Path} {a b : Json} {ms : List Filter},
    EntryPruned lost tight key path a b → ofEntry key path a = .ok ms →
      ∃ ns, ofEntry key path b = .ok ns ∧ PrunedAll lost tight ms ns
  | key, path, _, _, ms, .field hk hab, ha => by
    obtain ⟨inner, hinner, rfl⟩ := (ofEntry_field_eq_ok hk).mp ha
    obtain ⟨ns, hns, hpruned, ht⟩ := hab.ofEntries hinner
    exact ⟨_, (ofEntry_field_eq_ok hk).mpr ⟨ns, hns, rfl⟩, hpruned.conjoined ht⟩
  | key, path, _, _, ms, .combine hk hab, ha => by
    simp only [List.mem_cons, List.not_mem_nil, or_false] at hk
    rcases hk with hk | hk | hk
    · obtain ⟨inner, hinner, rfl⟩ := (ofEntry_all_eq_ok hk).mp ha
      obtain ⟨ns, hns, hpruned, ht⟩ := hab.ofEntries hinner
      exact ⟨_, (ofEntry_all_eq_ok hk).mpr ⟨ns, hns, rfl⟩, .cons (.all (hpruned.conjoined ht)) .nil⟩
    · obtain ⟨inner, hinner, rfl⟩ := (ofEntry_any_eq_ok hk).mp ha
      obtain ⟨ns, hns, hpruned, ht⟩ := hab.ofEntries hinner
      exact ⟨_, (ofEntry_any_eq_ok hk).mpr ⟨ns, hns, rfl⟩, .cons (.any (hpruned.conjoined ht)) .nil⟩
    · obtain ⟨inner, hinner, rfl⟩ := (ofEntry_not_eq_ok hk).mp ha
      obtain ⟨ns, hns, hpruned, ht⟩ := hab.ofEntries hinner
      exact ⟨_, (ofEntry_not_eq_ok hk).mpr ⟨ns, hns, rfl⟩, hpruned.negation ht⟩
  | key, path, _, _, ms, .combineItems hk hab, ha => by
    simp only [List.mem_cons, List.not_mem_nil, or_false] at hk
    rcases hk with hk | hk
    · obtain ⟨inner, hinner, rfl⟩ := (ofEntry_allItems_eq_ok hk).mp ha
      obtain ⟨ns, hns, hpruned⟩ := hab.ofItems hinner
      exact ⟨_, (ofEntry_allItems_eq_ok hk).mpr ⟨ns, hns, rfl⟩, .cons (.all hpruned) .nil⟩
    · obtain ⟨inner, hinner, rfl⟩ := (ofEntry_anyItems_eq_ok hk).mp ha
      obtain ⟨ns, hns, hpruned⟩ := hab.ofItems hinner
      exact ⟨_, (ofEntry_anyItems_eq_ok hk).mpr ⟨ns, hns, rfl⟩, .cons (.any hpruned) .nil⟩
  | key, path, _, _, ms, .count hk hlost hsub, ha => by
    obtain ⟨hpath, hms⟩ := (ofEntry_count_eq_ok hk).mp ha
    obtain ⟨ns, hns, hnodes⟩ := counts_sublist hsub hms
    refine ⟨ns, (ofEntry_count_eq_ok hk).mpr ⟨hpath, hns⟩, .sublist hnodes fun p hp => ?_⟩
    -- all counts have the path of the relation, and are lost with it
    rw [leavesOfAll_counts hms] at hp
    rw [path_of_mem_countPredicates hp]
    exact hlost

theorem ItemsPruned.ofItems : ∀ {key : String} {path : Path} {as bs : List Json} {ms : List Filter},
    ItemsPruned lost tight path as bs → ofItems key path as = .ok ms →
      ∃ ns, ofItems key path bs = .ok ns ∧ PrunedAll lost tight ms ns
  | key, path, _, _, ms, .nil, ha => by
    rw [Filter.ofItems] at ha
    cases ha
    exact ⟨[], by rw [Filter.ofItems], .nil⟩
  | key, path, item :: as, _, ms, .keep hrest, ha => by
    obtain ⟨entries, inner, more, rfl, hinner, hmore, rfl⟩ := ofItems_cons_eq_ok.mp ha
    obtain ⟨ns, hns, hpruned⟩ := hrest.ofItems hmore
    exact ⟨_, ofItems_cons_eq_ok.mpr ⟨entries, inner, ns, rfl, hinner, hns, rfl⟩, (PrunedAll.refl _).append hpruned⟩
  | key, path, _, _, ms, .drop hlost hrest, ha => by
    obtain ⟨_, inner, more, ⟨⟩, hinner, hmore, rfl⟩ := ofItems_cons_eq_ok.mp ha
    obtain ⟨ns, hns, hpruned⟩ := hrest.ofItems hmore
    rw [← leavesOfAll_ofEntries _ _ _ hinner, ← leavesOfAll_conjoin] at hlost
    exact ⟨ns, hns, (PrunedAll.drops hlost).append hpruned⟩
  | key, path, _, _, ms, .inside hab hrest, ha => by
    obtain ⟨_, inner, more, ⟨⟩, hinner, hmore, rfl⟩ := ofItems_cons_eq_ok.mp ha
    obtain ⟨ns₁, hns₁, hpruned₁, ht⟩ := hab.ofEntries hinner
    obtain ⟨ns₂, hns₂, hpruned₂⟩ := hrest.ofItems hmore
    exact ⟨_, ofItems_cons_eq_ok.mpr ⟨_, ns₁, ns₂, rfl, hns₁, hns₂, rfl⟩, (hpruned₁.conjoined ht).append hpruned₂⟩

theorem ObjectPruned.ofEntries : ∀ {path : Path} {as bs : List (String × Json)} {ms : List Filter},
    ObjectPruned lost tight path as bs → ofEntries path as = .ok ms →
      ∃ ns, ofEntries path bs = .ok ns ∧ PrunedAll lost tight ms ns ∧ (tight → ns.length = 1 → ms.length = 1)
  | path, as, bs, ms, .mk hab ht, ha => by
    obtain ⟨ns, hns, hpruned⟩ := hab.ofEntries ha
    refine ⟨ns, hns, hpruned, ?_⟩
    rwa [clauses_of_ok ha, clauses_of_ok hns] at ht

end

end Filter

/-- A filter document less some clauses: some entries of its objects, or, whatever it looks like, some leaves of the
nodes that it is read into. -/
inductive DocumentPruned (lost : Path → Prop) (tight : Prop) : Json → Json → Prop
  | same {filter : Json} : DocumentPruned lost tight filter filter
  | entries {as bs : List (String × Json)} : Filter.EntriesPruned lost tight .root as bs →
      DocumentPruned lost tight (.obj as) (.obj bs)
  | leaves {a b : Json} {ms ns : List Filter} : Filter.ofJson a = .ok ms → Filter.ofJson b = .ok ns →
      Filter.PrunedAll lost tight ms ns → DocumentPruned lost tight a b

/-- A document less some clauses is read into the nodes of the document less some leaves. -/
theorem DocumentPruned.ofJson {lost : Path → Prop} {tight : Prop} {a b : Json} {ms : List Filter}
    (h : DocumentPruned lost tight a b) (ha : Filter.ofJson a = .ok ms) :
    ∃ ns, Filter.ofJson b = .ok ns ∧ Filter.PrunedAll lost tight ms ns := by
  cases h with
  | same => exact ⟨ms, ha, .refl ms⟩
  | entries hab =>
    rw [Filter.ofJson] at ha ⊢
    exact hab.ofEntries ha
  | leaves ha' hb hpruned =>
    cases ha.symm.trans ha'
    exact ⟨_, hb, hpruned⟩

/-- An aggregate less some clauses of its condition. -/
structure AggregateRequest.Pruned (lost : Path → Prop) (tight : Prop) (a b : AggregateRequest) : Prop where
  function : b.function = a.function
  path : b.path = a.path
  label : b.label = a.label
  condition : DocumentPruned lost tight (a.condition.getD .null) (b.condition.getD .null)

/-- A request less some field paths, sort terms and clauses of its filters. An empty field list stands for all fields,
so some field has to stay. -/
structure FindRequest.Pruned (lostField lost : Path → Prop) (tight : Prop) (a b : FindRequest) : Prop where
  fields : Thinned lostField (Path.listOf a.fields) (Path.listOf b.fields)
  fields_ne_nil : Path.listOf a.fields ≠ [] → Path.listOf b.fields ≠ []
  filter : DocumentPruned lost tight a.filter b.filter
  sort : Thinned (fun t => lost t.path) (SortTerm.listOf a.sort) (SortTerm.listOf b.sort)
  aggregates : ∀ as, AggregateRequest.ofJson a.aggregate = .ok as →
    ∃ bs, AggregateRequest.ofJson b.aggregate = .ok bs ∧ List.Forall₂ (AggregateRequest.Pruned lost tight) as bs
  page : b.page = a.page
  limit : b.limit = a.limit
  counts : b.counts = a.counts

end RecordService
