import Mathlib.Data.List.Induction
import RecordService.Proofs.Plan.Recordings

/-! # Plans after any calls

Whatever a plan is asked for, and in whatever order, it follows its calls (`JoinPlan.Follows`): its joins are those of
the paths that have come up, each at a place of its own from the first call on, where the table of places finds it, and a
recording that runs has the places reached since it began. So much holds of a new plan, and each call keeps it. Asking
for what was recorded ends the recording, so that the same is not told twice (`JoinPlan.not_recorded_again`). -/

namespace RecordService

/-! ### Calls -/

namespace Usage

def nothing : Usage := ⟨false, false, false, false⟩

/-- All the parts that are in one of the usages. -/
def unions (us : List Usage) : Usage :=
  us.foldl union nothing

theorem unions_append (us vs : List Usage) : unions (us ++ vs) = vs.foldl union (unions us) :=
  List.foldl_append

theorem unions_singleton (u : Usage) : unions [u] = u := by
  simp [unions, union, nothing]

end Usage

/-- What a plan is asked for: the alias of a relation, to begin or end a recording, or an alias for a subquery. -/
inductive PlanCall where
  | join (parentPath parentAlias : String) (r : Relation) (target : Table) (usage : Usage)
  | record
  | recorded
  | scratch
deriving DecidableEq, Repr

namespace PlanCall

/-- The relation that the call reaches. -/
def crossing? : PlanCall → Option Crossing
  | join parentPath _ r target _ => some ⟨extendPath parentPath r.name, r, target⟩
  | record | recorded | scratch => none

def path? (call : PlanCall) : Option String :=
  call.crossing?.map (·.path)

/-- The usage for which the call reaches the path, if it does. -/
def usageOn (path : String) : PlanCall → Option Usage
  | join parentPath _ r _ usage => if extendPath parentPath r.name = path then some usage else none
  | record | recorded | scratch => none

theorem usageOn_eq_none {call : PlanCall} {path : String} (h : call.path? ≠ some path) : call.usageOn path = none := by
  cases call with
  | join parentPath parentAlias r target usage => exact if_neg fun heq => h (congrArg some heq)
  | record | recorded | scratch => rfl

end PlanCall

theorem filterMap_concat {α β : Type} (f : α → Option β) (items : List α) (item : α) :
    (items ++ [item]).filterMap f = items.filterMap f ++ (f item).toList := by
  rw [List.filterMap_append]
  cases h : f item <;> simp [h]

theorem eraseDups_concat {α : Type} [DecidableEq α] (items : List α) (item : α) :
    (items ++ [item]).eraseDups = if item ∈ items.eraseDups then items.eraseDups else items.eraseDups ++ [item] := by
  rw [List.eraseDups_append]
  by_cases h : item ∈ items <;> simp [List.removeAll, List.eraseDups_cons, h]

namespace JoinPlan

/-- The plan after a call. -/
def perform (p : JoinPlan) : PlanCall → JoinPlan
  | .join parentPath parentAlias r target usage => (p.join parentPath parentAlias r target usage).2
  | .record => p.record
  | .recorded => p.recorded.2
  | .scratch => p.scratch.2

def after (p : JoinPlan) (calls : List PlanCall) : JoinPlan :=
  calls.foldl perform p

/-- The aliases that subqueries get, in order. -/
def subqueries (p : JoinPlan) : List PlanCall → List String
  | [] => []
  | call :: rest =>
    let later := (p.perform call).subqueries rest
    if call = .scratch then p.scratch.1 :: later else later

/-- What holds of a plan after any calls from the start on. -/
structure Follows (p : JoinPlan) (root : String) (calls : List PlanCall) : Prop where
  /-- The paths that have come up have a join each, in the order of their first calls. -/
  paths : p.joins.map (·.path) = (calls.filterMap PlanCall.path?).eraseDups
  distinct : (p.joins.map (·.path)).Nodup
  /-- The table of places has a path exactly if there is a join of it, and that join's place. -/
  index : ∀ path k, p.byPath.lookup path = some k ↔ ∃ j, p.joins[k]? = some j ∧ j.path = path
  /-- It has each path once. -/
  keys : (p.byPath.map (·.1)).Nodup
  alias? : ∀ path, p.alias? path = (p.index? path).map joinAlias
  /-- A join has the alias of its place, and its junction the one that goes with it. -/
  aliases : ∀ (k : Nat) (j : Join), p.joins[k]? = some j →
    j.tableAlias = joinAlias k ∧ ∀ link ∈ j.link, link.tableAlias = linkAlias j.tableAlias
  apart : ((p.joins.flatMap fun j => [j.tableAlias, linkAlias j.tableAlias]) ++ (start root).subqueries calls).Nodup
  usage : ∀ j ∈ p.joins, j.usage = Usage.unions (calls.filterMap (·.usageOn j.path))
  /-- What was planned at some point is still there, but for a wider usage. -/
  kept : ∀ before later, calls = before ++ later → ∀ (k : Nat) (j : Join),
    ((start root).after before).joins[k]? = some j → ∃ u, p.joins[k]? = some { j with usage := u }
  /-- Every call for a path was answered with the alias of its join, and the first one made it. -/
  answered : ∀ before parentPath parentAlias r target u later,
    calls = before ++ .join parentPath parentAlias r target u :: later → ∃ k j, p.joins[k]? = some j ∧
      j.path = extendPath parentPath r.name ∧
      j.tableAlias = (((start root).after before).join parentPath parentAlias r target u).1 ∧
      (extendPath parentPath r.name ∉ before.filterMap PlanCall.path? →
        j = newJoin k (extendPath parentPath r.name) parentAlias r target j.usage)
  /-- A recording that runs has the places of the paths that have come up since it began, in ascending order. -/
  recorded : ∀ before since, calls = before ++ .record :: since → .record ∉ since → .recorded ∉ since →
    p.recorded.1.Pairwise (· < ·) ∧
      ∀ k, k ∈ p.recorded.1 ↔ ∃ call ∈ since, ∃ path ∈ call.path?, p.index? path = some k
  /-- Where every recording has ended, nothing is recorded. -/
  idle : (∀ before since, calls = before ++ .record :: since → .recorded ∈ since) → p.recorded.1 = []

variable {p p' : JoinPlan} {calls : List PlanCall} {call : PlanCall} {k : Nat} {j : Join}

theorem after_append (p : JoinPlan) (calls more : List PlanCall) :
    p.after (calls ++ more) = (p.after calls).after more :=
  List.foldl_append

/-! ### Joins -/

theorem extends_perform (p : JoinPlan) (call : PlanCall) : p.Extends (p.perform call) := by
  cases call with
  | join parentPath parentAlias r target u => exact (p.gains_join parentPath parentAlias r target u).toExtends
  | record => exact p.extends_record
  | recorded => exact p.extends_recorded
  | scratch => exact p.grows_scratch.toExtends

theorem extends_after (p : JoinPlan) (calls : List PlanCall) : p.Extends (p.after calls) := by
  induction calls generalizing p with
  | nil => exact .refl p
  | cons call rest ih => exact (p.extends_perform call).trans (ih (p.perform call))

theorem Regular.perform (h : p.Regular) (call : PlanCall) : (p.perform call).Regular := by
  cases call with
  | join parentPath parentAlias r target u => exact h.join parentPath parentAlias r target u
  | record | recorded | scratch => exact ⟨h.indexed, h.aliases⟩

theorem Regular.after (h : p.Regular) (calls : List PlanCall) : (p.after calls).Regular := by
  induction calls generalizing p with
  | nil => exact h
  | cons call rest ih => exact ih (h.perform call)

theorem regular_after (root : String) (calls : List PlanCall) : ((start root).after calls).Regular :=
  (regular_start root).after calls

theorem Regular.alias?_eq (h : p.Regular) (path : String) : p.alias? path = (p.index? path).map joinAlias := by
  cases hk : p.index? path with
  | none => rw [alias?, hk, Option.bind_none, Option.map_none]
  | some k =>
    obtain ⟨j, hj, -⟩ := h.indexed.index?_iff.mp hk
    rw [alias?, hk, Option.bind_some, placeAlias?, hj, Option.map_some, Option.map_some, h.aliases k j hj]

/-- The table has the paths of the joins, the last one first. -/
theorem keys_perform (h : p.byPath.map (·.1) = (p.joins.map (·.path)).reverse) (hp : p.Indexed) (call : PlanCall) :
    (p.perform call).byPath.map (·.1) = ((p.perform call).joins.map (·.path)).reverse := by
  cases call with
  | join parentPath parentAlias r target u =>
    show (p.join parentPath parentAlias r target u).2.byPath.map (·.1) =
      ((p.join parentPath parentAlias r target u).2.joins.map (·.path)).reverse
    cases hindex : p.index? (extendPath parentPath r.name) with
    | some place =>
      obtain ⟨q, hq, -, -, hputs⟩ := join_of_some hp parentAlias target u hindex
      rw [hputs.paths hq rfl, ← h]
      simp only [JoinPlan.join, hindex, touch]
    | none =>
      simp only [JoinPlan.join, hindex, touch, List.map_append, List.reverse_append, List.map_cons, h]
      rfl
  | record | recorded | scratch => exact h

theorem keys_after (root : String) (calls : List PlanCall) :
    ((start root).after calls).byPath.map (·.1) = (((start root).after calls).joins.map (·.path)).reverse := by
  induction calls using List.reverseRecOn with
  | nil => rfl
  | append_singleton calls call ih =>
    rw [after_append]
    exact keys_perform ih (regular_after root calls).indexed call

/-- Where the paths of the joins are those that have come up, they still are after another call. -/
theorem paths_perform {paths : List String} (hp : p.Indexed) (h : p.joins.map (·.path) = paths.eraseDups)
    (call : PlanCall) : (p.perform call).joins.map (·.path) = (paths ++ call.path?.toList).eraseDups := by
  cases call with
  | join parentPath parentAlias r target u =>
    show ((p.join parentPath parentAlias r target u).2.joins.map (·.path)) =
      (paths ++ [extendPath parentPath r.name]).eraseDups
    rw [eraseDups_concat, ← h]
    cases hindex : p.index? (extendPath parentPath r.name) with
    | some place =>
      obtain ⟨q, hq, hpath, -, hputs⟩ := join_of_some hp parentAlias target u hindex
      rw [hputs.paths hq rfl, if_pos]
      exact hpath ▸ List.mem_map_of_mem (List.mem_of_getElem? hq)
    | none =>
      obtain ⟨-, hjoins, -⟩ := join_of_none parentAlias target u hindex
      rw [hjoins, List.map_append, if_neg (hp.index?_eq_none_iff.mp hindex)]
      rfl
  | record | recorded | scratch =>
    show p.joins.map (·.path) = (paths ++ []).eraseDups
    rw [List.append_nil, h]

theorem paths_after (root : String) (calls : List PlanCall) :
    ((start root).after calls).joins.map (·.path) = (calls.filterMap PlanCall.path?).eraseDups := by
  induction calls using List.reverseRecOn with
  | nil => rfl
  | append_singleton calls call ih =>
    rw [after_append, filterMap_concat]
    exact paths_perform (regular_after root calls).indexed ih call

/-- A call widens the usage of the join of its path, or plans it for its own. -/
theorem usage_perform (hp : p.Regular) (h : (p.perform call).joins[k]? = some j) :
    (∃ q, p.joins[k]? = some q ∧ q.path = j.path ∧ j.usage = (call.usageOn j.path).toList.foldl Usage.union q.usage) ∨
      j.path ∉ p.joins.map (·.path) ∧ call.usageOn j.path = some j.usage := by
  cases call with
  | join parentPath parentAlias r target u =>
    change (p.join parentPath parentAlias r target u).2.joins[k]? = some j at h
    cases hindex : p.index? (extendPath parentPath r.name) with
    | some place =>
      obtain ⟨q, hq, hpath, -, hputs⟩ := join_of_some hp.indexed parentAlias target u hindex
      left
      obtain ⟨rfl, rfl⟩ | ⟨hplace, h⟩ := hputs.getElem?_eq_some.mp h
      · exact ⟨q, hq, rfl, by simp [PlanCall.usageOn, hpath]⟩
      -- paths are joined once each, so this join is of another path
      · have hne : extendPath parentPath r.name ≠ j.path := by
          rintro heq
          rw [heq, hp.indexed.index?_path h] at hindex
          exact hplace (Option.some.inj hindex)
        exact ⟨j, h, rfl, by simp [PlanCall.usageOn, hne]⟩
    | none =>
      obtain ⟨-, -, hputs⟩ := join_of_none parentAlias target u hindex
      have hfresh := hp.indexed.index?_eq_none_iff.mp hindex
      obtain ⟨-, rfl⟩ | ⟨-, h⟩ := hputs.getElem?_eq_some.mp h
      · exact Or.inr ⟨hfresh, if_pos rfl⟩
      · have hne : extendPath parentPath r.name ≠ j.path := fun heq =>
          hfresh (heq ▸ List.mem_map_of_mem (List.mem_of_getElem? h))
        exact Or.inl ⟨j, h, rfl, by simp [PlanCall.usageOn, hne]⟩
  | record | recorded | scratch => exact Or.inl ⟨j, h, rfl, rfl⟩

theorem usage_after (root : String) (calls : List PlanCall) : ∀ j ∈ ((start root).after calls).joins,
    j.usage = Usage.unions (calls.filterMap (·.usageOn j.path)) := by
  induction calls using List.reverseRecOn with
  | nil => exact fun j hj => absurd hj List.not_mem_nil
  | append_singleton calls call ih =>
    intro j hj
    rw [after_append] at hj
    obtain ⟨k, hk⟩ := List.mem_iff_getElem?.mp hj
    rw [filterMap_concat, Usage.unions_append]
    rcases usage_perform (regular_after root calls) hk with ⟨q, hq, hpath, husage⟩ | ⟨hfresh, husage⟩
    · rw [husage, ih q (List.mem_of_getElem? hq), hpath]
    · -- no call before was for the path, so this one's usage is all there is
      have hnone : calls.filterMap (·.usageOn j.path) = [] := by
        rw [List.filterMap_eq_nil_iff]
        refine fun c hc => PlanCall.usageOn_eq_none fun hpath => hfresh ?_
        rw [paths_after, List.mem_eraseDups]
        exact List.mem_filterMap.mpr ⟨c, hc, hpath⟩
      rw [hnone, husage]
      exact (Usage.unions_singleton j.usage).symm

/-- A join is as its relation and its place make it. -/
theorem planned_after (root : String) (calls : List PlanCall) : ∀ (k : Nat) (j : Join),
    ((start root).after calls).joins[k]? = some j →
      ∃ path parentAlias r target, j = newJoin k path parentAlias r target j.usage := by
  induction calls using List.reverseRecOn with
  | nil => intro k j hj; simp [after, start] at hj
  | append_singleton calls call ih =>
    intro k j hj
    rw [after_append] at hj
    cases call with
    | join parentPath parentAlias r target u =>
      rcases join_getElem? hj with ⟨q, v, hq, rfl⟩ | ⟨-, hnew⟩
      · obtain ⟨path, parentAlias', r', target', hplanned⟩ := ih k q hq
        exact ⟨path, parentAlias', r', target', by rw [hplanned]; rfl⟩
      · exact ⟨_, parentAlias, r, target, by rw [hnew]; rfl⟩
    | record | recorded | scratch => exact ih k j hj

theorem aliases_after (root : String) (calls : List PlanCall) (k : Nat) (j : Join)
    (h : ((start root).after calls).joins[k]? = some j) :
    j.tableAlias = joinAlias k ∧ ∀ link ∈ j.link, link.tableAlias = linkAlias j.tableAlias := by
  obtain ⟨path, parentAlias, r, target, hplanned⟩ := planned_after root calls k j h
  rw [hplanned]
  refine ⟨rfl, fun link hlink => ?_⟩
  obtain ⟨junction, -, rfl⟩ := Option.map_eq_some_iff.mp hlink
  rfl

/-! ### Aliases -/

theorem scratches_perform (p : JoinPlan) (call : PlanCall) :
    (p.perform call).scratches = p.scratches + if call = .scratch then 1 else 0 := by
  cases call with
  | join parentPath parentAlias r target u =>
    cases hindex : p.index? (extendPath parentPath r.name) <;> simp [perform, JoinPlan.join, hindex, touch]
  | record | recorded | scratch => rfl

theorem subqueries_eq (p : JoinPlan) (calls : List PlanCall) :
    p.subqueries calls = (List.range' p.scratches (calls.count .scratch)).map fun n => "s" ++ toString n := by
  induction calls generalizing p with
  | nil => rfl
  | cons call rest ih =>
    rw [subqueries, ih, scratches_perform]
    by_cases h : call = .scratch
    · rw [h, List.count_cons_self, List.range'_succ]
      rfl
    · rw [if_neg h, if_neg h, List.count_cons_of_ne h]
      rfl

theorem toList_subquery (n : Nat) : ("s" ++ toString n).toList = 's' :: Nat.toDigits 10 n := by
  rw [String.toList_append, toList_toString_nat]
  rfl

/-- The aliases of joins, of their junctions and of subqueries, all different. -/
theorem nodup_aliases (places : Nat) (calls : List PlanCall) (root : String) :
    (((List.range places).map joinAlias).flatMap (fun a => [a, linkAlias a]) ++
      (start root).subqueries calls).Nodup := by
  rw [List.flatMap_map, List.nodup_append, List.nodup_flatMap]
  refine ⟨⟨fun k _ => ?_, List.pairwise_lt_range.imp fun {k l} hlt name hk hl => ?_⟩, ?_, ?_⟩
  · simpa using joinAlias_ne_linkAlias k k
  · simp only [List.mem_cons, List.not_mem_nil, or_false] at hk hl
    exact absurd (alias_place hk hl) (Nat.ne_of_lt hlt)
  · rw [subqueries_eq]
    refine List.Nodup.map (fun m n h => ?_) List.nodup_range'
    have hlist := congrArg String.toList h
    rw [toList_subquery, toList_subquery] at hlist
    exact toDigits_inj (List.cons.inj hlist).2
  · -- an alias of a subquery begins with another letter
    rintro _ hname _ hsub rfl
    rw [subqueries_eq] at hsub
    obtain ⟨n, -, rfl⟩ := List.mem_map.mp hsub
    obtain ⟨k, -, hk⟩ := List.mem_flatMap.mp hname
    simp only [List.mem_cons, List.not_mem_nil, or_false] at hk
    rcases hk with hk | hk
    · have hlist := congrArg String.toList hk
      rw [toList_subquery, toList_joinAlias] at hlist
      cases hlist
    · have hlist := congrArg String.toList hk
      rw [toList_subquery, toList_linkAlias] at hlist
      cases hlist

theorem Regular.map_alias (h : p.Regular) : p.joins.map (·.tableAlias) = (List.range p.joins.length).map joinAlias := by
  refine List.ext_getElem? fun k => ?_
  rw [List.getElem?_map, List.getElem?_map]
  by_cases hk : k < p.joins.length
  · rw [List.getElem?_eq_getElem hk, List.getElem?_range hk, Option.map_some, Option.map_some,
      h.aliases k _ (List.getElem?_eq_getElem hk)]
  · rw [List.getElem?_eq_none (Nat.le_of_not_lt hk), List.getElem?_eq_none (by simpa using hk)]
    rfl

/-- The answer to a call for a path is the alias that its join has from then on. -/
theorem answered_after {parentPath parentAlias : String} {r : Relation} {target : Table} {u : Usage} (hp : p.Regular)
    (hext : (p.join parentPath parentAlias r target u).2.Extends p') :
    ∃ k j, p'.joins[k]? = some j ∧ j.path = extendPath parentPath r.name ∧
      j.tableAlias = (p.join parentPath parentAlias r target u).1 ∧
      (extendPath parentPath r.name ∉ p.joins.map (·.path) →
        j = newJoin k (extendPath parentPath r.name) parentAlias r target j.usage) := by
  cases hindex : p.index? (extendPath parentPath r.name) with
  | some place =>
    obtain ⟨q, hq, hpath, halias, hputs⟩ := join_of_some hp.indexed parentAlias target u hindex
    obtain ⟨v, hv, -⟩ := hext.joins place _ hputs.here
    refine ⟨place, _, hv, hpath, halias.symm, fun hfresh => ?_⟩
    rw [hp.indexed.index?_eq_none_iff.mpr hfresh] at hindex
    cases hindex
  | none =>
    obtain ⟨halias, -, hputs⟩ := join_of_none parentAlias target u hindex
    obtain ⟨v, hv, -⟩ := hext.joins _ _ hputs.here
    exact ⟨_, _, hv, rfl, halias.symm, fun _ => rfl⟩

/-! ### Recordings -/

theorem marks_perform (p : JoinPlan) (hrecord : call ≠ .record) (hrecorded : call ≠ .recorded) :
    p.Marks (p.perform call) call.crossing?.toList := by
  cases call with
  | join parentPath parentAlias r target u => exact p.marks_join parentPath parentAlias r target u
  | record => exact absurd rfl hrecord
  | recorded => exact absurd rfl hrecorded
  | scratch => exact .of_recording rfl

/-- While a recording goes on, it notes what the calls reach. -/
theorem marks_after (p : JoinPlan) (hrecord : .record ∉ calls) (hrecorded : .recorded ∉ calls) :
    p.Marks (p.after calls) (calls.filterMap PlanCall.crossing?) := by
  induction calls using List.reverseRecOn with
  | nil => exact .of_recording rfl
  | append_singleton calls call ih =>
    simp only [List.mem_append, List.mem_singleton, not_or] at hrecord hrecorded
    rw [after_append, filterMap_concat]
    exact (ih hrecord.1 hrecorded.1).append (extends_perform _ call)
      (marks_perform _ (Ne.symm hrecord.2) (Ne.symm hrecorded.2))

theorem Noted.perform (h : p.Noted) (hp : p.Indexed) (call : PlanCall) : (p.perform call).Noted := by
  cases call with
  | join parentPath parentAlias r target u => exact h.join hp parentPath parentAlias r target u
  | record => exact h.of_joins rfl fun _ hseen => Or.inr (Option.some.inj hseen).symm
  | recorded => exact h.of_joins rfl fun _ hseen => nomatch hseen
  | scratch => exact h

/-- A recording has noted places of joins, each once. -/
theorem noted_after (root : String) (calls : List PlanCall) : ((start root).after calls).Noted := by
  induction calls using List.reverseRecOn with
  | nil => exact noted_start root
  | append_singleton calls call ih =>
    rw [after_append]
    exact ih.perform (regular_after root calls).indexed call

theorem isSome_perform (hrecord : call ≠ .record) (h : (p.perform call).recording.isSome = true) :
    call ≠ .recorded ∧ p.recording.isSome = true := by
  cases call with
  | join parentPath parentAlias r target u =>
    have hrunning : (p.perform (.join parentPath parentAlias r target u)).recording.isSome = p.recording.isSome := by
      cases hindex : p.index? (extendPath parentPath r.name) <;> simp [perform, JoinPlan.join, hindex, touch]
    exact ⟨by simp, hrunning ▸ h⟩
  | record => exact absurd rfl hrecord
  | recorded => cases h
  | scratch => exact ⟨by simp, h⟩

/-- A recording that runs began with some call and has not ended since. -/
theorem running_after (root : String) (h : ((start root).after calls).recording.isSome = true) :
    ∃ before since, calls = before ++ .record :: since ∧ .recorded ∉ since := by
  induction calls using List.reverseRecOn with
  | nil => cases h
  | append_singleton calls call ih =>
    rw [after_append] at h
    by_cases hrecord : call = .record
    · exact ⟨calls, [], by rw [hrecord], List.not_mem_nil⟩
    · obtain ⟨hrecorded, hrunning⟩ := isSome_perform hrecord h
      obtain ⟨before, since, rfl, hsince⟩ := ih hrunning
      refine ⟨before, since ++ [call], by rw [List.append_assoc, List.cons_append], ?_⟩
      simp [hsince, Ne.symm hrecorded]

/-! ### Any calls -/

/-- A plan follows its calls, whatever they are. -/
theorem after_follows (root : String) (calls : List PlanCall) : ((start root).after calls).Follows root calls := by
  have hregular := regular_after root calls
  refine ⟨paths_after root calls, hregular.indexed.distinct, fun _ _ => hregular.indexed.index?_iff, ?keys,
    hregular.alias?_eq, aliases_after root calls, ?apart, usage_after root calls, ?kept, ?answered, ?recorded, ?idle⟩
  case keys =>
    rw [keys_after]
    exact List.nodup_reverse.mpr hregular.indexed.distinct
  case apart =>
    -- the aliases of the joins are those of their places
    have hjoins := nodup_aliases ((start root).after calls).joins.length calls root
    rw [← hregular.map_alias, List.flatMap_map] at hjoins
    exact hjoins
  case kept =>
    rintro before later rfl k j hj
    rw [after_append]
    obtain ⟨u, hu, -⟩ := (extends_after _ later).joins k j hj
    exact ⟨u, hu⟩
  case answered =>
    rintro before parentPath parentAlias r target u later rfl
    have hext := extends_after (((start root).after before).join parentPath parentAlias r target u).2 later
    obtain ⟨k, j, hj, hpath, halias, hfirst⟩ := answered_after (regular_after root before) hext
    refine ⟨k, j, by rw [after_append]; exact hj, hpath, halias, fun hfresh => hfirst ?_⟩
    rwa [paths_after, List.mem_eraseDups]
  case recorded =>
    rintro before since rfl hrecord hrecorded
    have hplaces := (marks_after ((start root).after before).record hrecord hrecorded).places
    refine ⟨(noted_after root _).pairwise_recorded, fun k => ?_⟩
    rw [after_append]
    refine (hplaces.mem_iff k).trans ?_
    simp only [List.mem_filterMap, PlanCall.path?, Option.mem_def, Option.map_eq_some_iff]
    constructor
    · rintro ⟨x, ⟨call, hcall, hx⟩, hk⟩
      exact ⟨call, hcall, x.path, ⟨x, hx, rfl⟩, hk⟩
    · rintro ⟨call, hcall, path, ⟨x, hx, rfl⟩, hk⟩
      exact ⟨x, ⟨call, hcall, hx⟩, hk⟩
  case idle =>
    intro hended
    have hnone : ((start root).after calls).recording = none := by
      by_contra hsome
      obtain ⟨before, since, heq, hsince⟩ := running_after root (Option.isSome_iff_ne_none.mpr hsome)
      exact hsince (hended before since heq)
    rw [JoinPlan.recorded, hnone]
    rfl

/-- The relations of posts to their authors and their tags. -/
def reachAuthor (u : Usage) : PlanCall :=
  .join "" "r" (.direct "author" .one "users" "authorId" "id") (.start "users") u

def reachTags (u : Usage) : PlanCall :=
  .join "" "r" (.through "tags" "tags" "post_tags" "postId" "tagId") (.start "tags") u

/-- Joins that are new and joins that were there before are recorded alike. -/
theorem after_follows_posts :
    let since := [reachAuthor .forAggregate, reachTags .forAggregate]
    let calls := [reachTags .forProjection, .scratch] ++ .record :: since
    let p := (start "r").after calls
    p.joins.map (·.path) = ["tags", "author"] ∧ p.byPath.lookup "author" = some 1 ∧
      (∀ j ∈ p.joins, j.path = "tags" → j.usage = Usage.forProjection.union .forAggregate) ∧
      ["j0", "j0_link", "j1", "j1_link", "s0"].Nodup ∧ p.recorded.1 = [0, 1] ∧
      ∃ call ∈ since, ∃ path ∈ call.path?, p.index? path = some 0 := by
  intro since calls p
  have h : p.Follows "r" calls := after_follows "r" calls
  have hnames : (p.joins.flatMap fun j => [j.tableAlias, linkAlias j.tableAlias]) ++ (start "r").subqueries calls =
      ["j0", "j0_link", "j1", "j1_link", "s0"] := by
    decide
  have hrecorded : p.recorded.1 = [0, 1] := by decide
  obtain ⟨-, hreached⟩ := h.recorded [reachTags .forProjection, .scratch] since rfl (by decide) (by decide)
  refine ⟨h.paths.trans (by decide), (h.index "author" 1).mpr ⟨_, rfl, rfl⟩, fun j hj hpath => ?_, hnames ▸ h.apart,
    hrecorded, (hreached 0).mp ?_⟩
  · rw [h.usage j hj, hpath]
    decide
  · rw [hrecorded]
    exact List.mem_cons_self

/-- What was recorded is told once: asked again, the plan says nothing, though the recording that began last has reached
a join. -/
theorem not_recorded_again :
    ∃ since : List PlanCall, .record ∉ since ∧ ∃ call ∈ since, ∃ path ∈ call.path?,
      ((start "r").after (.record :: since)).index? path = some 0 ∧
        ((start "r").after (.record :: since)).recorded.1 = [] :=
  ⟨[reachAuthor .forFilter, .recorded], by decide, reachAuthor .forFilter, by decide, "author", by decide, by decide,
    by decide⟩

end JoinPlan

end RecordService
