import RecordService.Proofs.Request.Leaves
import RecordService.Request.Aggregate
import RecordService.Request.Find
import Mathlib.Data.List.Forall2

/-! # Requests that differ in operands

Two filter documents are alike when they have the same keys in the same places and differ in their operands alone. Which
operands may stand for each other is a parameter: `R path op a b` says it of two operands of one operator at one path.
Documents that are alike are read into trees that are alike (`FilterAlike.ofJson`), and the same holds of the aggregates
of two requests, whose conditions are filters (`AggregatesAlike.ofJson`). -/

namespace RecordService

/-- Which operands of an operator at a path may stand for each other. -/
abbrev OperandRel := Path → Operator → Json → Json → Prop

namespace Filter

/-! ### Trees -/

mutual

/-- Nodes that differ in their operands alone. -/
inductive Alike (R : OperandRel) : Filter → Filter → Prop
  | all {as bs : List Filter} : AlikeAll R as bs → Alike R (.all as) (.all bs)
  | any {as bs : List Filter} : AlikeAll R as bs → Alike R (.any as) (.any bs)
  | not {a b : Filter} : Alike R a b → Alike R (.not a) (.not b)
  | leaf {path : Path} {op : Operator} {a b : Json} : R path op a b →
      Alike R (.leaf ⟨path, op, a⟩) (.leaf ⟨path, op, b⟩)

inductive AlikeAll (R : OperandRel) : List Filter → List Filter → Prop
  | nil : AlikeAll R [] []
  | cons {a b : Filter} {as bs : List Filter} : Alike R a b → AlikeAll R as bs → AlikeAll R (a :: as) (b :: bs)

end

/-! ### Documents -/

mutual

/-- Entries of objects at a path that differ in their operands alone. -/
inductive EntriesAlike (R : OperandRel) : Path → List (String × Json) → List (String × Json) → Prop
  | nil {path : Path} : EntriesAlike R path [] []
  | cons {path : Path} {key : String} {a b : Json} {as bs : List (String × Json)} : EntryAlike R key path a b →
      EntriesAlike R path as bs → EntriesAlike R path ((key, a) :: as) ((key, b) :: bs)

/-- Values of a key at a path that differ in their operands alone. -/
inductive EntryAlike (R : OperandRel) : String → Path → Json → Json → Prop
  | operand {key : String} {path : Path} {op : Operator} {a b : Json} : Key.ofText key = .op op → R path op a b →
      EntryAlike R key path a b
  /-- A field and a value that it equals. -/
  | value {key name : String} {path : Path} {a b : Json} : Key.ofText key = .field name → (∀ es, a ≠ .obj es) →
      (∀ es, b ≠ .obj es) → R (path.child name) (.compare .eq) a b → EntryAlike R key path a b
  /-- A field and what holds of it. -/
  | field {key name : String} {path : Path} {as bs : List (String × Json)} : Key.ofText key = .field name →
      EntriesAlike R (path.child name) as bs → EntryAlike R key path (.obj as) (.obj bs)
  /-- A combinator of the entries of one object. -/
  | combine {key : String} {path : Path} {as bs : List (String × Json)} : Key.ofText key ∈ [Key.all, .any, .not] →
      EntriesAlike R path as bs → EntryAlike R key path (.obj as) (.obj bs)
  /-- A combinator of several objects. -/
  | combineItems {key : String} {path : Path} {as bs : List Json} : Key.ofText key ∈ [Key.all, .any] →
      ItemsAlike R path as bs → EntryAlike R key path (.arr as) (.arr bs)
  | count {key : String} {path : Path} {as bs : List (String × Json)} : Key.ofText key = .count →
      CountsAlike R path as bs → EntryAlike R key path (.obj as) (.obj bs)

inductive ItemsAlike (R : OperandRel) : Path → List Json → List Json → Prop
  | nil {path : Path} : ItemsAlike R path [] []
  | cons {path : Path} {es fs : List (String × Json)} {as bs : List Json} : EntriesAlike R path es fs →
      ItemsAlike R path as bs → ItemsAlike R path (.obj es :: as) (.obj fs :: bs)

/-- Comparisons of a count. -/
inductive CountsAlike (R : OperandRel) : Path → List (String × Json) → List (String × Json) → Prop
  | nil {path : Path} : CountsAlike R path [] []
  | cons {path : Path} {key : String} {a b : Json} {as bs : List (String × Json)} :
      (∀ c, Comparison.ofName? (bareKeyword key) = some c → R path (.count c) a b) →
      CountsAlike R path as bs → CountsAlike R path ((key, a) :: as) ((key, b) :: bs)

end

/-! ### Reading -/

variable {R : OperandRel}

namespace AlikeAll

theorem append {as bs as' bs' : List Filter} (h : AlikeAll R as bs) (h' : AlikeAll R as' bs') :
    AlikeAll R (as ++ as') (bs ++ bs') := by
  induction as generalizing bs with
  | nil =>
    cases h
    exact h'
  | cons a as ih =>
    cases h with
    | cons hab hrest => exact .cons hab (ih hrest)

theorem single {a b : Filter} (h : Alike R a b) : AlikeAll R [a] [b] :=
  .cons h .nil

theorem conjoin {as bs : List Filter} (h : AlikeAll R as bs) :
    AlikeAll R (conjoin as).toList (conjoin bs).toList := by
  rcases h with - | ⟨hab, - | ⟨hab', hrest⟩⟩
  · exact .nil
  · exact single hab
  · exact single (.all (.cons hab (.cons hab' hrest)))

theorem negation {as bs : List Filter} (h : AlikeAll R as bs) :
    AlikeAll R ((Filter.conjoin as).map .not).toList ((Filter.conjoin bs).map .not).toList := by
  rcases h with - | ⟨hab, - | ⟨hab', hrest⟩⟩
  · exact .nil
  · exact single (.not hab)
  · exact single (.not (.all (.cons hab (.cons hab' hrest))))

end AlikeAll

theorem CountsAlike.counts {path : Path} {as bs : List (String × Json)} {ms ns : List Filter}
    (h : CountsAlike R path as bs) (ha : counts path as = .ok ms) (hb : counts path bs = .ok ns) :
    AlikeAll R ms ns := by
  induction as generalizing bs ms ns with
  | nil =>
    cases h
    cases ha
    cases hb
    exact .nil
  | cons entry as ih =>
    obtain ⟨key, a⟩ := entry
    cases h with
    | cons hab hrest =>
      obtain ⟨c, ms', hc, hms, rfl⟩ := counts_cons_eq_ok.mp ha
      obtain ⟨c', ns', hc', hns, rfl⟩ := counts_cons_eq_ok.mp hb
      obtain rfl := Option.some.inj (hc.symm.trans hc')
      exact .cons (.leaf (hab c hc)) (ih hrest hms hns)

mutual

theorem EntriesAlike.ofEntries : ∀ {path : Path} {as bs : List (String × Json)} {ms ns : List Filter},
    EntriesAlike R path as bs → ofEntries path as = .ok ms → ofEntries path bs = .ok ns → AlikeAll R ms ns
  | path, _, _, ms, ns, .nil, ha, hb => by
    rw [Filter.ofEntries] at ha hb
    cases ha
    cases hb
    exact .nil
  | path, _, _, ms, ns, .cons hab hrest, ha, hb => by
    obtain ⟨ms₁, ms₂, hms₁, hms₂, rfl⟩ := ofEntries_cons_eq_ok.mp ha
    obtain ⟨ns₁, ns₂, hns₁, hns₂, rfl⟩ := ofEntries_cons_eq_ok.mp hb
    exact (hab.ofEntry hms₁ hns₁).append (hrest.ofEntries hms₂ hns₂)

theorem EntryAlike.ofEntry : ∀ {key : String} {path : Path} {a b : Json} {ms ns : List Filter},
    EntryAlike R key path a b → ofEntry key path a = .ok ms → ofEntry key path b = .ok ns → AlikeAll R ms ns
  | key, path, a, b, ms, ns, .operand hk hab, ha, hb => by
    obtain ⟨-, rfl⟩ := (ofEntry_op_eq_ok hk).mp ha
    obtain ⟨-, rfl⟩ := (ofEntry_op_eq_ok hk).mp hb
    exact .single (.leaf hab)
  | key, path, a, b, ms, ns, .value hk hva hvb hab, ha, hb => by
    obtain rfl := Key.name_of_field hk
    obtain rfl := Except.ok.inj ((ofEntry_value hk hva).symm.trans ha)
    obtain rfl := Except.ok.inj ((ofEntry_value hk hvb).symm.trans hb)
    exact .single (.leaf hab)
  | key, path, _, _, ms, ns, .field hk hab, ha, hb => by
    obtain ⟨ms', hms, rfl⟩ := (ofEntry_field_eq_ok hk).mp ha
    obtain ⟨ns', hns, rfl⟩ := (ofEntry_field_eq_ok hk).mp hb
    exact (hab.ofEntries hms hns).conjoin
  | key, path, _, _, ms, ns, .combine hk hab, ha, hb => by
    simp only [List.mem_cons, List.not_mem_nil, or_false] at hk
    rcases hk with hk | hk | hk
    · obtain ⟨ms', hms, rfl⟩ := (ofEntry_all_eq_ok hk).mp ha
      obtain ⟨ns', hns, rfl⟩ := (ofEntry_all_eq_ok hk).mp hb
      exact .single (.all (hab.ofEntries hms hns).conjoin)
    · obtain ⟨ms', hms, rfl⟩ := (ofEntry_any_eq_ok hk).mp ha
      obtain ⟨ns', hns, rfl⟩ := (ofEntry_any_eq_ok hk).mp hb
      exact .single (.any (hab.ofEntries hms hns).conjoin)
    · obtain ⟨ms', hms, rfl⟩ := (ofEntry_not_eq_ok hk).mp ha
      obtain ⟨ns', hns, rfl⟩ := (ofEntry_not_eq_ok hk).mp hb
      exact (hab.ofEntries hms hns).negation
  | key, path, _, _, ms, ns, .combineItems hk hab, ha, hb => by
    simp only [List.mem_cons, List.not_mem_nil, or_false] at hk
    rcases hk with hk | hk
    · obtain ⟨ms', hms, rfl⟩ := (ofEntry_allItems_eq_ok hk).mp ha
      obtain ⟨ns', hns, rfl⟩ := (ofEntry_allItems_eq_ok hk).mp hb
      exact .single (.all (hab.ofItems hms hns))
    · obtain ⟨ms', hms, rfl⟩ := (ofEntry_anyItems_eq_ok hk).mp ha
      obtain ⟨ns', hns, rfl⟩ := (ofEntry_anyItems_eq_ok hk).mp hb
      exact .single (.any (hab.ofItems hms hns))
  | key, path, _, _, ms, ns, .count hk hab, ha, hb => by
    obtain ⟨-, hms⟩ := (ofEntry_count_eq_ok hk).mp ha
    obtain ⟨-, hns⟩ := (ofEntry_count_eq_ok hk).mp hb
    exact hab.counts hms hns

theorem ItemsAlike.ofItems : ∀ {key : String} {path : Path} {as bs : List Json} {ms ns : List Filter},
    ItemsAlike R path as bs → ofItems key path as = .ok ms → ofItems key path bs = .ok ns → AlikeAll R ms ns
  | key, path, _, _, ms, ns, .nil, ha, hb => by
    rw [Filter.ofItems] at ha hb
    cases ha
    cases hb
    exact .nil
  | key, path, _, _, ms, ns, .cons hab hrest, ha, hb => by
    obtain ⟨_, ms₁, ms₂, ⟨⟩, hms₁, hms₂, rfl⟩ := ofItems_cons_eq_ok.mp ha
    obtain ⟨_, ns₁, ns₂, ⟨⟩, hns₁, hns₂, rfl⟩ := ofItems_cons_eq_ok.mp hb
    exact (hab.ofEntries hms₁ hns₁).conjoin.append (hrest.ofItems hms₂ hns₂)

end

end Filter

/-- Filter documents that differ in their operands alone. -/
inductive FilterAlike (R : OperandRel) : Json → Json → Prop
  | null : FilterAlike R .null .null
  | obj {as bs : List (String × Json)} : Filter.EntriesAlike R .root as bs → FilterAlike R (.obj as) (.obj bs)

/-- Documents that are alike are read into trees that are alike. -/
theorem FilterAlike.ofJson {R : OperandRel} {a b : Json} {ms ns : List Filter} (h : FilterAlike R a b)
    (ha : Filter.ofJson a = .ok ms) (hb : Filter.ofJson b = .ok ns) : Filter.AlikeAll R ms ns := by
  cases h with
  | null =>
    rw [Filter.ofJson] at ha hb
    cases ha
    cases hb
    exact .nil
  | obj hab =>
    rw [Filter.ofJson] at ha hb
    exact hab.ofEntries ha hb

/-! ### Aggregates -/

/-- Aggregates that differ in the operands of their conditions alone. -/
structure AggregateRequest.Alike (R : OperandRel) (a b : AggregateRequest) : Prop where
  function : a.function = b.function
  path : a.path = b.path
  label : a.label = b.label
  condition : FilterAlike R (a.condition.getD .null) (b.condition.getD .null)

/-- Members of a target of the same name; a condition may differ in its operands. -/
def MemberAlike (R : OperandRel) (a b : String × Json) : Prop :=
  a.1 = b.1 ∧ if a.1 = "condition" then FilterAlike R a.2 b.2 else a.2 = b.2

inductive TargetAlike (R : OperandRel) : Json → Json → Prop
  | path {text : String} : TargetAlike R (.str text) (.str text)
  | obj {as bs : List (String × Json)} : List.Forall₂ (MemberAlike R) as bs → TargetAlike R (.obj as) (.obj bs)

/-- What a function is applied to: one target or several. -/
inductive TargetsAlike (R : OperandRel) : Json → Json → Prop
  | one {a b : Json} : TargetAlike R a b → TargetsAlike R a b
  | many {as bs : List Json} : List.Forall₂ (TargetAlike R) as bs → TargetsAlike R (.arr as) (.arr bs)

/-- Aggregate documents that differ in the operands of their conditions alone. -/
inductive AggregatesAlike (R : OperandRel) : Json → Json → Prop
  | null : AggregatesAlike R .null .null
  | obj {as bs : List (String × Json)} : List.Forall₂ (fun a b => a.1 = b.1 ∧ TargetsAlike R a.2 b.2) as bs →
      AggregatesAlike R (.obj as) (.obj bs)

/-- What an effect makes of related lists, when it makes related things of related elements. -/
theorem forall₂_mapM {ε α β : Type} {S : α → α → Prop} {T : β → β → Prop} {f : α → Except ε β}
    (hf : ∀ {a b : α} {x y : β}, S a b → f a = .ok x → f b = .ok y → T x y) :
    ∀ {as bs : List α} {xs ys : List β}, List.Forall₂ S as bs → as.mapM f = .ok xs → bs.mapM f = .ok ys →
      List.Forall₂ T xs ys
  | _, _, xs, ys, .nil, ha, hb => by
    cases pure_eq_ok.mp ha
    cases pure_eq_ok.mp hb
    exact .nil
  | _, _, xs, ys, .cons hab hrest, ha, hb => by
    rw [List.mapM_cons] at ha hb
    obtain ⟨x, hx, ha⟩ := bind_eq_ok.mp ha
    obtain ⟨xs', hxs, ha⟩ := bind_eq_ok.mp ha
    obtain ⟨y, hy, hb⟩ := bind_eq_ok.mp hb
    obtain ⟨ys', hys, hb⟩ := bind_eq_ok.mp hb
    cases pure_eq_ok.mp ha
    cases pure_eq_ok.mp hb
    exact .cons (hf hab hx hy) (forall₂_mapM @hf hrest hxs hys)

section
variable {R : OperandRel}

theorem MemberAlike.get?_eq {as bs : List (String × Json)} (h : List.Forall₂ (MemberAlike R) as bs) (key : String)
    (hk : key ≠ "condition") : Entries.get? as key = Entries.get? bs key := by
  induction h with
  | nil => rfl
  | @cons a b as bs hab hrest ih =>
    obtain ⟨hkey, hvalue⟩ := hab
    rw [Entries.get?_cons, Entries.get?_cons, ← hkey, ih]
    by_cases ha : a.1 = key
    · rw [if_neg (ha ▸ hk)] at hvalue
      rw [hvalue]
    · rw [if_neg ha, if_neg ha]

/-- A condition that is left out is no condition. -/
theorem MemberAlike.condition {as bs : List (String × Json)} (h : List.Forall₂ (MemberAlike R) as bs) :
    FilterAlike R ((Entries.get? as "condition").getD .null) ((Entries.get? bs "condition").getD .null) := by
  induction h with
  | nil => exact .null
  | @cons a b as bs hab hrest ih =>
    obtain ⟨hkey, hvalue⟩ := hab
    rw [Entries.get?_cons, Entries.get?_cons, ← hkey]
    by_cases ha : a.1 = "condition"
    · rw [if_pos ha] at hvalue
      rw [if_pos ha, if_pos ha]
      exact hvalue
    · rw [if_neg ha, if_neg ha]
      exact ih

/-- What is read of an object's members. -/
theorem AggregateRequest.ofTarget_obj {function : AggregateFunction} {es : List (String × Json)}
    {x : AggregateRequest} (h : ofTarget function (.obj es) = .ok x) :
    ∃ field, Entries.get? es "field" = some (.str field) ∧ x.function = function ∧ x.path = .ofText field ∧
      x.label = (match Entries.get? es "as" with
        | some (.str label) => label
        | _ => field) ∧
      x.condition.getD .null = (Entries.get? es "condition").getD .null := by
  simp only [ofTarget] at h
  split at h
  · rename_i field hfield
    cases h
    refine ⟨field, hfield, rfl, rfl, rfl, ?_⟩
    dsimp only
    split
    · rename_i hnull
      rw [hnull]
      rfl
    · rfl
  · cases h

theorem TargetAlike.ofTarget {function : AggregateFunction} {a b : Json} {x y : AggregateRequest}
    (h : TargetAlike R a b) (ha : AggregateRequest.ofTarget function a = .ok x)
    (hb : AggregateRequest.ofTarget function b = .ok y) : x.Alike R y := by
  cases h with
  | path =>
    rw [ha] at hb
    cases hb
    cases ha
    exact ⟨rfl, rfl, rfl, .null⟩
  | obj hmembers =>
    obtain ⟨field, hfield, hfx, hpx, hlx, hcx⟩ := AggregateRequest.ofTarget_obj ha
    obtain ⟨field', hfield', hfy, hpy, hly, hcy⟩ := AggregateRequest.ofTarget_obj hb
    have heq := MemberAlike.get?_eq hmembers "field" (by decide)
    rw [hfield, hfield'] at heq
    cases heq
    refine ⟨hfx.trans hfy.symm, hpx.trans hpy.symm, ?_, ?_⟩
    · rw [hlx, hly, MemberAlike.get?_eq hmembers "as" (by decide)]
    · rw [hcx, hcy]
      exact MemberAlike.condition hmembers

theorem TargetAlike.ne_arr {a b : Json} (h : TargetAlike R a b) (items : List Json) : a ≠ .arr items ∧ b ≠ .arr items := by
  cases h <;> exact ⟨nofun, nofun⟩

theorem AggregateRequest.ofEntry_single_eq_ok {name : String} {function : AggregateFunction} {single : Json}
    {xs : List AggregateRequest} (hname : AggregateFunction.ofKey? name = some function)
    (hsingle : ∀ items, single ≠ .arr items) :
    ofEntry name single = .ok xs ↔ ∃ x, ofTarget function single = .ok x ∧ xs = [x] := by
  cases single with
  | arr items => exact absurd rfl (hsingle items)
  | _ => simp only [ofEntry, hname, bind_eq_ok, pure_eq_ok, @eq_comm _ xs]

theorem TargetsAlike.ofEntry {name : String} {a b : Json} {xs ys : List AggregateRequest} (h : TargetsAlike R a b)
    (ha : AggregateRequest.ofEntry name a = .ok xs) (hb : AggregateRequest.ofEntry name b = .ok ys) :
    List.Forall₂ (AggregateRequest.Alike R) xs ys := by
  cases hname : AggregateFunction.ofKey? name with
  | none => simp [AggregateRequest.ofEntry, hname] at ha
  | some function =>
    cases h with
    | many hitems =>
      simp only [AggregateRequest.ofEntry, hname] at ha hb
      exact forall₂_mapM (fun hab hx hy => hab.ofTarget hx hy) hitems ha hb
    | one hab =>
      obtain ⟨x, hx, rfl⟩ := (AggregateRequest.ofEntry_single_eq_ok hname fun items => (hab.ne_arr items).1).mp ha
      obtain ⟨y, hy, rfl⟩ := (AggregateRequest.ofEntry_single_eq_ok hname fun items => (hab.ne_arr items).2).mp hb
      exact .cons (hab.ofTarget hx hy) .nil

/-- Aggregate documents that are alike are read into aggregates that are alike. -/
theorem AggregatesAlike.ofJson {a b : Json} {xs ys : List AggregateRequest} (h : AggregatesAlike R a b)
    (ha : AggregateRequest.ofJson a = .ok xs) (hb : AggregateRequest.ofJson b = .ok ys) :
    List.Forall₂ (AggregateRequest.Alike R) xs ys := by
  cases h with
  | null =>
    cases ha
    cases hb
    exact .nil
  | obj hentries =>
    obtain ⟨xss, hxss, ha⟩ := bind_eq_ok.mp ha
    obtain ⟨yss, hyss, hb⟩ := bind_eq_ok.mp hb
    cases pure_eq_ok.mp ha
    cases pure_eq_ok.mp hb
    have hlists : List.Forall₂ (List.Forall₂ (AggregateRequest.Alike R)) xss yss :=
      forall₂_mapM (fun {e e'} _ _ hab hx hy => hab.2.ofEntry hx (hab.1 ▸ hy)) hentries hxss hyss
    exact List.rel_flatten hlists

end

/-- Requests that differ in the operands of their filters and aggregate conditions alone. -/
structure FindRequest.Alike (R : OperandRel) (a b : FindRequest) : Prop where
  filter : FilterAlike R a.filter b.filter
  fields : a.fields = b.fields
  sort : a.sort = b.sort
  page : a.page = b.page
  limit : a.limit = b.limit
  counts : a.counts = b.counts
  aggregate : AggregatesAlike R a.aggregate b.aggregate

end RecordService
