import Mathlib.Data.List.Sort
import RecordService.Plan.Resolve
import RecordService.Proofs.Catalog.Declared

/-! # Joins hang together

The joins of a plan form a tree. Each stands for a path of relations, no two for the same path, and below its parent: the
root, or a join planned before it that every statement renders which renders the child, and that a recording has
reached if it has reached the child (`JoinPlan.Rooted`). Joining a relation at a place that the plan knows
(`JoinPlan.At`) keeps this and makes the plan know the place below (`JoinPlan.join_spec`); what a plan knows it still
knows when it has grown (`JoinPlan.Grows`). -/

namespace RecordService

/-! ### Usage -/

namespace Usage

variable {u v w : Usage}

/-- Whatever meets the one meets the other. -/
def Within (u v : Usage) : Prop :=
  ∀ w, u.meets w = true → v.meets w = true

theorem Within.refl (u : Usage) : u.Within u :=
  fun _ h => h

theorem Within.trans (h : u.Within v) (h' : v.Within w) : u.Within w :=
  fun x hx => h' x (h x hx)

theorem meets_union (u v w : Usage) : (u.union v).meets w = (u.meets w || v.meets w) := by
  simp only [union, meets, Bool.and_or_distrib_right]
  ac_rfl

theorem within_union_left (u v : Usage) : u.Within (u.union v) := by
  intro w h
  rw [meets_union, h, Bool.true_or]

theorem within_union_right (u v : Usage) : v.Within (u.union v) := by
  intro w h
  rw [meets_union, h, Bool.or_true]

theorem union_within (hu : u.Within w) (hv : v.Within w) : (u.union v).Within w := by
  intro x h
  rw [meets_union, Bool.or_eq_true] at h
  rcases h with h | h
  · exact hu x h
  · exact hv x h

end Usage

/-! ### Dotted paths -/

section
variable {path path' name name' : String}

theorem extendPath_ne_empty (h : name ≠ "") : extendPath path name ≠ "" := by
  unfold extendPath
  split
  · exact h
  · intro heq
    have hlen := congrArg String.length heq
    simp at hlen

/-- What stands before a separator and after it, if the separator does not occur before. -/
theorem append_cons_inj {α : Type} {x : α} : ∀ {a b p q : List α}, a ++ x :: p = b ++ x :: q → x ∉ a → x ∉ b →
    a = b ∧ p = q
  | [], [], p, q, h, _, _ => ⟨rfl, (List.cons.inj h).2⟩
  | [], y :: b, p, q, h, _, hb => absurd (List.mem_cons.mpr (Or.inl (List.cons.inj h).1)) hb
  | y :: a, [], p, q, h, ha, _ => absurd (List.mem_cons.mpr (Or.inl (List.cons.inj h).1.symm)) ha
  | y :: a, z :: b, p, q, h, ha, hb => by
    obtain ⟨rfl, hrest⟩ := List.cons.inj h
    obtain ⟨rfl, rfl⟩ := append_cons_inj hrest (fun hm => ha (List.mem_cons_of_mem _ hm))
      (fun hm => hb (List.mem_cons_of_mem _ hm))
    exact ⟨rfl, rfl⟩

/-- A dotted path says what its last name is, and what it is below. -/
theorem extendPath_inj (hd : '.' ∉ name.toList) (hd' : '.' ∉ name'.toList)
    (h : extendPath path name = extendPath path' name') : path = path' ∧ name = name' := by
  have hlist := congrArg String.toList h
  unfold extendPath at hlist
  split at hlist
  · rename_i hp
    split at hlist
    · rename_i hp'
      rw [String.isEmpty_iff] at hp hp'
      exact ⟨hp.trans hp'.symm, String.toList_inj.mp hlist⟩
    · refine absurd ?_ hd
      rw [hlist]
      simp
  · split at hlist
    · refine absurd ?_ hd'
      rw [← hlist]
      simp
    -- read from the end, the name goes as far as the first dot
    · have hrev := congrArg List.reverse hlist
      simp only [String.toList_append, List.reverse_append, List.append_assoc] at hrev
      obtain ⟨hname, hpath⟩ := append_cons_inj (x := '.') hrev (by simpa using hd) (by simpa using hd')
      exact ⟨String.toList_inj.mp (List.reverse_inj.mp hpath), String.toList_inj.mp (List.reverse_inj.mp hname)⟩

end
/-! ### Reached tables -/

/-- What is asked of a setting: the root is a table of the catalog, its alias is none that compilation makes up, and
relations have names that dotted paths can tell apart. -/
structure Setting.Safe (s : Setting) : Prop where
  root : s.catalog.table? s.root.name = some s.root
  rootAlias : CompileOptions.aliasFault? s.options.rootAlias = none
  names : s.catalog.PathSafe

/-- The dotted path of relations leads from the root to the table. -/
inductive Setting.Reaches (s : Setting) : String → Table → Prop
  | root : Reaches s "" s.root
  | step {path : String} {parent target : Table} {r : Relation} : Reaches s path parent →
      parent.relation? r.name = some r → s.catalog.target? r = some target →
      Reaches s (extendPath path r.name) target

namespace Setting.Reaches

variable {s : Setting} {path : String} {t t' : Table}

theorem mem (hs : s.Safe) (h : s.Reaches path t) : t ∈ s.catalog.tables := by
  cases h with
  | root => exact Catalog.mem_of_table? hs.root
  | step _ _ ht => exact Catalog.mem_of_target? ht

theorem table? (hs : s.Safe) (h : s.Reaches path t) : s.catalog.table? t.name = some t := by
  cases h with
  | root => exact hs.root
  | step _ _ ht => exact Catalog.table?_name ht

theorem extendPath_inj (hs : s.Safe) {path' : String} {r r' : Relation} (h : s.Reaches path t)
    (h' : s.Reaches path' t') (hr : t.relation? r.name = some r) (hr' : t'.relation? r'.name = some r')
    (heq : extendPath path r.name = extendPath path' r'.name) : path = path' ∧ r.name = r'.name :=
  RecordService.extendPath_inj (hs.names.dotless t (h.mem hs) r (Catalog.mem_of_relation? hr))
    (hs.names.dotless t' (h'.mem hs) r' (Catalog.mem_of_relation? hr')) heq

theorem extendPath_ne_empty (hs : s.Safe) {r : Relation} (h : s.Reaches path t) (hr : t.relation? r.name = some r) :
    extendPath path r.name ≠ "" :=
  RecordService.extendPath_ne_empty (hs.names.nonempty t (h.mem hs) r (Catalog.mem_of_relation? hr))

/-- A path leads to one table. -/
theorem unique (hs : s.Safe) (h : s.Reaches path t) : s.Reaches path t' → t = t' := by
  -- on how the first table is reached: the path says what its last step was
  induction h generalizing t' with
  | root =>
    intro h'
    generalize hp : "" = p at h'
    cases h' with
    | root => rfl
    | step hpath hr _ => exact absurd hp.symm (hpath.extendPath_ne_empty hs hr)
  | step hpath hr ht ih =>
    intro h'
    generalize hp : extendPath _ _ = p at h'
    cases h' with
    | root => exact absurd hp (hpath.extendPath_ne_empty hs hr)
    | step hpath' hr' ht' =>
      obtain ⟨rfl, hname⟩ := hpath.extendPath_inj hs hpath' hr hr' hp
      obtain rfl := ih hpath'
      rw [hname, hr'] at hr
      cases hr
      exact Option.some.inj (ht.symm.trans ht')

end Setting.Reaches

/-! ### Well-formed plans -/

namespace JoinPlan

/-- The alias stands for the path: it is the root's, or that of a planned join of which `K` holds. -/
def Knows (p : JoinPlan) (K : Nat → Join → Prop) (path tableAlias : String) : Prop :=
  path = "" ∧ tableAlias = p.root ∨
    ∃ k q, p.joins[k]? = some q ∧ q.path = path ∧ tableAlias = joinAlias k ∧ K k q

/-- A join that the usage stays within, and that a recording has reached. -/
def Current (p : JoinPlan) (u : Usage) (k : Nat) (q : Join) : Prop :=
  u.Within q.usage ∧ ∀ seen ∈ p.recording, k ∈ seen

/-- The plan knows the table at a path by the alias. -/
structure At (p : JoinPlan) (s : Setting) (u : Usage) (path tableAlias : String) (table : Table) : Prop where
  reaches : s.Reaches path table
  knows : p.Knows (p.Current u) path tableAlias

/-- What a place of a well-formed plan has: a join of a relation below a path, whose parent comes before it, and is in
every usage and every recording that the join is in. -/
structure Grounded (p : JoinPlan) (s : Setting) (i : Nat) (j : Join) (path : String) (parent : Table) (r : Relation)
    (target : Table) : Prop where
  reaches : s.Reaches path parent
  relation : parent.relation? r.name = some r
  leads : s.catalog.target? r = some target
  join : j = newJoin i (extendPath path r.name) j.parentAlias r target j.usage
  parent : p.Knows (fun k q => k < i ∧ j.usage.Within q.usage ∧ ∀ seen ∈ p.recording, i ∈ seen → k ∈ seen) path
    j.parentAlias

/-- The table of places has the paths of the joins, each with the place of its join, and no other paths. -/
def Indexed (p : JoinPlan) : Prop :=
  ∀ path k, p.index? path = some k ↔ (p.joins.map (·.path))[k]? = some path

/-- What a recording has noted are places of joins, each once. -/
def Noted (p : JoinPlan) : Prop :=
  ∀ seen ∈ p.recording, seen.Nodup ∧ ∀ k ∈ seen, k < p.joins.length

/-- The joins form a tree below the root, one for each path. The table of places finds them, and a recording has noted
none but them. -/
structure Rooted (p : JoinPlan) (s : Setting) : Prop where
  indexed : p.Indexed
  noted : p.Noted
  grounded : ∀ i j, p.joins[i]? = some j → ∃ path parent r target, p.Grounded s i j path parent r target

/-- Joins are only added, and keep their places and everything but their usage, which grows. -/
structure Extends (p p' : JoinPlan) : Prop where
  root : p'.root = p.root
  index? : ∀ {path : String} {k : Nat}, p.index? path = some k → p'.index? path = some k
  joins : ∀ (k : Nat) (q : Join), p.joins[k]? = some q →
    ∃ u, p'.joins[k]? = some { q with usage := u } ∧ q.usage.Within u

/-- A plan grows while a recording, if one runs, goes on. -/
structure Grows (p p' : JoinPlan) : Prop extends p.Extends p' where
  running : p'.recording.isSome = p.recording.isSome
  seen : ∀ seen' ∈ p'.recording, ∃ seen ∈ p.recording, ∀ k ∈ seen, k ∈ seen'

variable {p p' p'' : JoinPlan} {s : Setting} {u : Usage} {path tableAlias : String} {table : Table}

/-- A plan with the same joins extends it. -/
theorem Extends.of_joins (hroot : p'.root = p.root) (hbyPath : p'.byPath = p.byPath) (hjoins : p'.joins = p.joins) :
    p.Extends p' where
  root := hroot
  index? h := by rwa [JoinPlan.index?, hbyPath]
  joins k q hq := ⟨q.usage, hjoins ▸ hq, Usage.Within.refl q.usage⟩

theorem Extends.refl (p : JoinPlan) : p.Extends p :=
  .of_joins rfl rfl rfl

theorem Extends.trans (h : p.Extends p') (h' : p'.Extends p'') : p.Extends p'' := by
  refine ⟨h'.root.trans h.root, fun hk => h'.index? (h.index? hk), fun k q hq => ?_⟩
  obtain ⟨u, hq', hu⟩ := h.joins k q hq
  obtain ⟨u', hq'', hu'⟩ := h'.joins k _ hq'
  exact ⟨u', hq'', hu.trans hu'⟩

theorem Grows.refl (p : JoinPlan) : p.Grows p :=
  ⟨Extends.refl p, rfl, fun seen h => ⟨seen, h, fun _ hk => hk⟩⟩

theorem Grows.trans (h : p.Grows p') (h' : p'.Grows p'') : p.Grows p'' := by
  refine ⟨h.toExtends.trans h'.toExtends, h'.running.trans h.running, fun seen'' hseen'' => ?_⟩
  obtain ⟨seen', hseen', hsub'⟩ := h'.seen seen'' hseen''
  obtain ⟨seen, hseen, hsub⟩ := h.seen seen' hseen'
  exact ⟨seen, hseen, fun k hk => hsub' k (hsub k hk)⟩

theorem Knows.mono {K K' : Nat → Join → Prop} (h : p.Knows K path tableAlias) (hroot : p'.root = p.root)
    (hK : ∀ k q, p.joins[k]? = some q → K k q → ∃ q', p'.joins[k]? = some q' ∧ q'.path = q.path ∧ K' k q') :
    p'.Knows K' path tableAlias := by
  rcases h with ⟨hpath, halias⟩ | ⟨k, q, hq, hpath, halias, hk⟩
  · exact Or.inl ⟨hpath, halias.trans hroot.symm⟩
  · obtain ⟨q', hq', hpath', hk'⟩ := hK k q hq hk
    exact Or.inr ⟨k, q', hq', hpath'.trans hpath, halias, hk'⟩

theorem Grows.current (h : p.Grows p') {k : Nat} {q q' : Join} (hq : p.Current u k q)
    (husage : q.usage.Within q'.usage) : p'.Current u k q' := by
  refine ⟨hq.1.trans husage, fun seen' hseen' => ?_⟩
  obtain ⟨seen, hseen, hsub⟩ := h.seen seen' hseen'
  exact hsub k (hq.2 seen hseen)

/-- A plan that has grown still knows what it knew. -/
theorem At.grows (h : p.At s u path tableAlias table) (hgrows : p.Grows p') : p'.At s u path tableAlias table := by
  refine ⟨h.reaches, h.knows.mono hgrows.root fun k q hq hk => ?_⟩
  obtain ⟨u', hq', hu'⟩ := hgrows.joins k q hq
  exact ⟨_, hq', rfl, hgrows.current hk hu'⟩

theorem at_root (p : JoinPlan) (s : Setting) (u : Usage) : p.At s u "" p.root s.root :=
  ⟨.root, Or.inl ⟨rfl, rfl⟩⟩

/-! ### The table of places -/

namespace Indexed

theorem index?_iff (hp : p.Indexed) {k : Nat} : p.index? path = some k ↔ ∃ j, p.joins[k]? = some j ∧ j.path = path := by
  rw [hp, List.getElem?_map, Option.map_eq_some_iff]

theorem index?_path (hp : p.Indexed) {k : Nat} {j : Join} (hj : p.joins[k]? = some j) : p.index? j.path = some k :=
  hp.index?_iff.mpr ⟨j, hj, rfl⟩

theorem index?_eq_none_iff (hp : p.Indexed) : p.index? path = none ↔ path ∉ p.joins.map (·.path) := by
  rw [Option.eq_none_iff_forall_ne_some, List.mem_iff_getElem?, not_exists]
  exact forall_congr' fun k => not_congr (hp path k)

/-- The table has one place for each path, so no path is planned twice. -/
theorem distinct (hp : p.Indexed) : (p.joins.map (·.path)).Nodup := by
  refine List.pairwise_iff_getElem.mpr fun i j hi hj hlt heq => Nat.ne_of_lt hlt ?_
  have hleft := (hp _ i).mpr (List.getElem?_eq_getElem hi)
  have hright := (hp _ j).mpr (List.getElem?_eq_getElem hj)
  rw [heq, hright] at hleft
  exact (Option.some.inj hleft).symm

theorem of_paths (hp : p.Indexed) (hbyPath : p'.byPath = p.byPath)
    (hpaths : p'.joins.map (·.path) = p.joins.map (·.path)) : p'.Indexed := by
  intro path k
  rw [JoinPlan.index?, hbyPath, hpaths]
  exact hp path k

/-- A new path gets the place behind all others. -/
theorem concat (hp : p.Indexed) (hfresh : p.index? path = none)
    (hbyPath : p'.byPath = (path, p.joins.length) :: p.byPath)
    (hpaths : p'.joins.map (·.path) = p.joins.map (·.path) ++ [path]) : p'.Indexed := by
  intro path' k
  rw [JoinPlan.index?, hbyPath, hpaths, List.lookup_cons, List.getElem?_append, List.length_map]
  by_cases hpath : path' = path
  · subst hpath
    have hnone : (p.joins.map (·.path))[k]? ≠ some path' := by
      rw [Ne, ← hp, hfresh]
      simp
    simp only [beq_self_eq_true, Option.some.injEq]
    split
    case isTrue hlt => exact iff_of_false (Nat.ne_of_gt hlt) hnone
    case isFalse hge =>
      rw [List.getElem?_singleton]
      constructor
      · rintro rfl
        simp
      · intro h
        split at h <;> simp_all
        omega
  · rw [beq_false_of_ne hpath]
    refine (hp path' k).trans ?_
    split
    · rfl
    case isFalse hge =>
      refine iff_of_false (by simp [hge]) ?_
      rw [List.getElem?_singleton]
      split <;> simp [Ne.symm hpath]

end Indexed

namespace Rooted

theorem path_ne_empty (hs : s.Safe) (hp : p.Rooted s) {k : Nat} {q : Join} (hq : p.joins[k]? = some q) :
    q.path ≠ "" := by
  obtain ⟨path, parent, r, target, hground⟩ := hp.grounded k q hq
  rw [hground.join]
  exact hground.reaches.extendPath_ne_empty hs hground.relation

/-- Two joins of one path are at one place. -/
theorem place_unique (hp : p.Rooted s) {k k' : Nat} {q q' : Join} (hq : p.joins[k]? = some q)
    (hq' : p.joins[k']? = some q') (hpath : q.path = q'.path) : k = k' := by
  have hk := hp.indexed.index?_path hq
  rw [hpath, hp.indexed.index?_path hq'] at hk
  exact (Option.some.inj hk).symm

/-- A path has one alias, of which all holds that holds of it in either view. -/
theorem knows_and (hs : s.Safe) (hp : p.Rooted s) {K K' : Nat → Join → Prop} {tableAlias' : String}
    (h : p.Knows K path tableAlias) (h' : p.Knows K' path tableAlias') :
    tableAlias = tableAlias' ∧ p.Knows (fun k q => K k q ∧ K' k q) path tableAlias := by
  rcases h with ⟨rfl, rfl⟩ | ⟨k, q, hq, rfl, rfl, hk⟩
  · rcases h' with ⟨-, rfl⟩ | ⟨k', q', hq', hpath', -, -⟩
    · exact ⟨rfl, Or.inl ⟨rfl, rfl⟩⟩
    · exact absurd hpath' (hp.path_ne_empty hs hq')
  · rcases h' with ⟨hpath', -⟩ | ⟨k', q', hq', hpath', rfl, hk'⟩
    · exact absurd hpath' (hp.path_ne_empty hs hq)
    · obtain rfl := hp.place_unique hq' hq hpath'
      rw [hq] at hq'
      cases hq'
      exact ⟨rfl, Or.inr ⟨k', q, hq, rfl, rfl, hk, hk'⟩⟩

end Rooted

/-! ### Joining -/

/-- What joining does: one place has a new join, or one of wider usage, and has been reached. -/
structure Puts (p p' : JoinPlan) (place : Nat) (new : Join) : Prop where
  root : p'.root = p.root
  index? : ∀ {path : String} {k : Nat}, p.index? path = some k → p'.index? path = some k
  here : p'.joins[place]? = some new
  elsewhere : ∀ i, i ≠ place → p'.joins[i]? = p.joins[i]?
  recording : p'.recording = (p.touch place).recording

/-- What is at a place is new, or was there before. -/
theorem Puts.getElem?_eq_some {place k : Nat} {new j : Join} (h : p.Puts p' place new) :
    p'.joins[k]? = some j ↔ k = place ∧ j = new ∨ k ≠ place ∧ p.joins[k]? = some j := by
  by_cases hk : k = place
  · simp [hk, h.here, eq_comm]
  · simp [hk, h.elsewhere k hk]

theorem mem_touch {place : Nat} {seen' : List Nat} (h : seen' ∈ (p.touch place).recording) :
    ∃ seen ∈ p.recording, ∀ k, k ∈ seen' ↔ k ∈ seen ∨ k = place := by
  obtain ⟨seen, hseen, rfl⟩ := Option.map_eq_some_iff.mp h
  refine ⟨seen, hseen, fun k => ?_⟩
  split
  · rename_i hmem
    rw [List.contains_iff_mem] at hmem
    constructor
    · exact Or.inl
    · rintro (hk | rfl)
      · exact hk
      · exact hmem
  · simp

theorem nodup_touch {place : Nat} (h : ∀ seen ∈ p.recording, seen.Nodup) :
    ∀ seen' ∈ (p.touch place).recording, seen'.Nodup := by
  intro seen' hseen'
  obtain ⟨seen, hseen, rfl⟩ := Option.map_eq_some_iff.mp hseen'
  split
  · exact h seen hseen
  · -- the place is added only where it is not there yet
    rename_i hmem
    rw [List.contains_iff_mem] at hmem
    exact List.nodup_append.mpr ⟨h seen hseen, List.nodup_singleton _, by rintro a ha b hb rfl; simp_all⟩

theorem isSome_touch (p : JoinPlan) (place : Nat) : (p.touch place).recording.isSome = p.recording.isSome :=
  Option.isSome_map

variable {r : Relation} {target : Table} {place : Nat}

/-- A path that is planned already keeps its place, and the usage of its join is widened. -/
theorem join_of_some (hp : p.Indexed) (tableAlias : String) (target : Table) (u : Usage)
    (h : p.index? (extendPath path r.name) = some place) :
    ∃ q, p.joins[place]? = some q ∧ q.path = extendPath path r.name ∧
      (p.join path tableAlias r target u).1 = q.tableAlias ∧
      p.Puts (p.join path tableAlias r target u).2 place { q with usage := q.usage.union u } := by
  obtain ⟨q, hq, hpath⟩ := hp.index?_iff.mp h
  simp only [join, h]
  refine ⟨q, hq, hpath, ?_, rfl, id, ?_, fun i hi => ?_, rfl⟩
  · show (((p.joins[place]?).map (·.tableAlias)).getD "") = _
    rw [hq]
    rfl
  · show (p.joins.modify place _)[place]? = _
    rw [List.getElem?_modify_eq, hq]
    rfl
  · show (p.joins.modify place _)[i]? = _
    exact List.getElem?_modify_ne _ _ hi.symm

/-- A new path is planned behind all others. -/
theorem join_of_none (tableAlias : String) (target : Table) (u : Usage)
    (h : p.index? (extendPath path r.name) = none) :
    (p.join path tableAlias r target u).1 = joinAlias p.joins.length ∧
      (p.join path tableAlias r target u).2.joins =
        p.joins ++ [newJoin p.joins.length (extendPath path r.name) tableAlias r target u] ∧
      p.Puts (p.join path tableAlias r target u).2 p.joins.length
        (newJoin p.joins.length (extendPath path r.name) tableAlias r target u) := by
  simp only [join, h]
  refine ⟨trivial, rfl, rfl, fun {path' k} hk => ?_, ?_, fun i hi => ?_, rfl⟩
  · -- the entry of the new path hides no other one
    have hne : path' ≠ extendPath path r.name := by
      rintro rfl
      rw [h] at hk
      cases hk
    show List.lookup path' ((_, _) :: p.byPath) = some k
    rwa [List.lookup_cons, beq_false_of_ne hne]
  · exact List.getElem?_concat_length
  · show (p.joins ++ [_])[i]? = _
    rcases Nat.lt_or_gt_of_ne hi with hlt | hgt
    · exact List.getElem?_append_left hlt
    · rw [List.getElem?_eq_none (by simp; omega), List.getElem?_eq_none (by omega)]

theorem Puts.paths {q new : Join} (h : p.Puts p' place new) (hq : p.joins[place]? = some q)
    (hpath : new.path = q.path) :
    p'.joins.map (·.path) = p.joins.map (·.path) := by
  refine List.ext_getElem? fun i => ?_
  rw [List.getElem?_map, List.getElem?_map]
  by_cases hi : i = place
  · rw [hi, h.here, hq, Option.map_some, Option.map_some, hpath]
  · rw [h.elsewhere i hi]

/-- Joining keeps the table of places true. -/
theorem Indexed.join (hp : p.Indexed) (path tableAlias : String) (r : Relation) (target : Table) (u : Usage) :
    (p.join path tableAlias r target u).2.Indexed := by
  cases h : p.index? (extendPath path r.name) with
  | some place =>
    refine hp.of_paths ?_ ?_
    · simp only [JoinPlan.join, h]
      rfl
    · obtain ⟨q, hq, -, -, hputs⟩ := join_of_some hp tableAlias target u h
      exact hputs.paths hq rfl
  | none =>
    refine hp.concat h ?_ ?_
    · simp only [JoinPlan.join, h]
      rfl
    · rw [(join_of_none tableAlias target u h).2.1, List.map_append]
      rfl

theorem Puts.grows {new : Join} (h : p.Puts p' place new)
    (hold : ∀ q, p.joins[place]? = some q → new = { q with usage := new.usage } ∧ q.usage.Within new.usage) :
    p.Grows p' := by
  refine ⟨⟨h.root, h.index?, fun k q hq => ?_⟩, h.recording ▸ isSome_touch p place, fun seen' hseen' => ?_⟩
  · by_cases hk : k = place
    · subst hk
      obtain ⟨hnew, hwithin⟩ := hold q hq
      exact ⟨new.usage, by rw [h.here, ← hnew], hwithin⟩
    · exact ⟨q.usage, by rw [h.elsewhere k hk, hq], Usage.Within.refl q.usage⟩
  · rw [h.recording] at hseen'
    obtain ⟨seen, hseen, hiff⟩ := mem_touch hseen'
    exact ⟨seen, hseen, fun k hk => (hiff k).mpr (Or.inl hk)⟩

theorem Noted.puts {new : Join} (hp : p.Noted) (h : p.Puts p' place new) (hlength : p.joins.length ≤ p'.joins.length) :
    p'.Noted := by
  intro seen' hseen'
  rw [h.recording] at hseen'
  obtain ⟨seen, hseen, hiff⟩ := mem_touch hseen'
  refine ⟨nodup_touch (fun seen hseen => (hp seen hseen).1) seen' hseen', fun k hk => ?_⟩
  rcases (hiff k).mp hk with hk | rfl
  · exact Nat.lt_of_lt_of_le ((hp seen hseen).2 k hk) hlength
  · exact (List.getElem?_eq_some_iff.mp h.here).1

/-- Joining notes the place of a join, and notes it once. -/
theorem Noted.join (hp : p.Noted) (hindexed : p.Indexed) (path tableAlias : String) (r : Relation) (target : Table)
    (u : Usage) : (p.join path tableAlias r target u).2.Noted := by
  cases h : p.index? (extendPath path r.name) with
  | some place =>
    obtain ⟨q, hq, -, -, hputs⟩ := join_of_some hindexed tableAlias target u h
    have hlength := congrArg List.length (hputs.paths hq rfl)
    rw [List.length_map, List.length_map] at hlength
    exact hp.puts hputs (Nat.le_of_eq hlength.symm)
  | none =>
    obtain ⟨-, hjoins, hputs⟩ := join_of_none tableAlias target u h
    exact hp.puts hputs (by rw [hjoins, List.length_append]; exact Nat.le_add_right _ _)

/-- A new join keeps the tree if its parent is current. -/
theorem Rooted.puts {new : Join} {parent : Table} (hp : p.Rooted s) (h : p.Puts p' place new)
    (hold : ∀ q, p.joins[place]? = some q → new = { q with usage := new.usage } ∧ q.usage.Within new.usage)
    (hindexed : p'.Indexed) (hnoted : p'.Noted) (hreaches : s.Reaches path parent)
    (hrelation : parent.relation? r.name = some r) (hleads : s.catalog.target? r = some target)
    (hnew : new = newJoin place (extendPath path r.name) new.parentAlias r target new.usage)
    (hparent : p.Knows (fun k q => k < place ∧ p.Current new.usage k q) path new.parentAlias) : p'.Rooted s := by
  have hgrows := h.grows hold
  refine ⟨hindexed, hnoted, fun i j hj => ?_⟩
  obtain ⟨rfl, rfl⟩ | ⟨hi, hj⟩ := h.getElem?_eq_some.mp hj
  · refine ⟨path, parent, r, target, hreaches, hrelation, hleads, hnew, hparent.mono h.root fun k q hq hk => ?_⟩
    obtain ⟨u', hq', hu'⟩ := hgrows.joins k q hq
    have hcurrent : p'.Current j.usage k { q with usage := u' } := hgrows.current hk.2 hu'
    exact ⟨_, hq', rfl, hk.1, hcurrent.1, fun seen' hseen' _ => hcurrent.2 seen' hseen'⟩
  · obtain ⟨path', parent', r', target', hground⟩ := hp.grounded i j hj
    refine ⟨path', parent', r', target', hground.reaches, hground.relation, hground.leads, hground.join,
      hground.parent.mono h.root fun k q hq hk => ?_⟩
    obtain ⟨u', hq', hu'⟩ := hgrows.joins k q hq
    obtain ⟨hlt, hwithin, hrecorded⟩ := hk
    refine ⟨_, hq', rfl, hlt, hwithin.trans hu', fun seen' hseen' hmem => ?_⟩
    rw [h.recording] at hseen'
    obtain ⟨seen, hseen, hiff⟩ := mem_touch hseen'
    have hmem' : i ∈ seen := ((hiff i).mp hmem).resolve_right hi
    exact (hiff k).mpr (Or.inl (hrecorded seen hseen hmem'))

theorem Puts.knows {new : Join} (h : p.Puts p' place new) (hu : u.Within new.usage) :
    p'.Knows (p'.Current u) new.path (joinAlias place) := by
  refine Or.inr ⟨place, new, h.here, rfl, rfl, hu, fun seen' hseen' => ?_⟩
  rw [h.recording] at hseen'
  obtain ⟨seen, -, hiff⟩ := mem_touch hseen'
  exact (hiff place).mpr (Or.inr rfl)

/-- Joining a relation for the first time puts a join below the one of its parent. -/
theorem join_new_spec (hp : p.Rooted s) (hat : p.At s u path tableAlias table)
    (hr : table.relation? r.name = some r) (ht : s.catalog.target? r = some target)
    (hindex : p.index? (extendPath path r.name) = none) :
    (p.join path tableAlias r target u).2.Rooted s ∧ p.Grows (p.join path tableAlias r target u).2 ∧
      (p.join path tableAlias r target u).2.Knows ((p.join path tableAlias r target u).2.Current u)
        (extendPath path r.name) (p.join path tableAlias r target u).1 := by
  obtain ⟨halias, -, hputs⟩ := join_of_none tableAlias target u hindex
  have hold : ∀ q, p.joins[p.joins.length]? = some q →
      newJoin p.joins.length (extendPath path r.name) tableAlias r target u =
        { q with usage := u } ∧ q.usage.Within u := by
    intro q hq
    simp at hq
  have hparent : p.Knows (fun k q => k < p.joins.length ∧ p.Current u k q) path tableAlias :=
    hat.knows.mono rfl fun k q hq hk => ⟨q, hq, rfl, (List.getElem?_eq_some_iff.mp hq).1, hk⟩
  have hindexed := hp.indexed.join path tableAlias r target u
  have hnoted := hp.noted.join hp.indexed path tableAlias r target u
  refine ⟨hp.puts hputs hold hindexed hnoted hat.reaches hr ht rfl hparent, hputs.grows hold, ?_⟩
  rw [halias]
  exact hputs.knows (Usage.Within.refl u)

/-- Joining a relation again adds the usage to its join. -/
theorem join_again_spec (hs : s.Safe) (hp : p.Rooted s) (hat : p.At s u path tableAlias table)
    (hr : table.relation? r.name = some r) (ht : s.catalog.target? r = some target) {place : Nat}
    (hindex : p.index? (extendPath path r.name) = some place) :
    (p.join path tableAlias r target u).2.Rooted s ∧ p.Grows (p.join path tableAlias r target u).2 ∧
      (p.join path tableAlias r target u).2.Knows ((p.join path tableAlias r target u).2.Current u)
        (extendPath path r.name) (p.join path tableAlias r target u).1 := by
  obtain ⟨q, hq, hpath, halias, hputs⟩ := join_of_some hp.indexed tableAlias target u hindex
  have hold : ∀ q', p.joins[place]? = some q' → ({ q with usage := q.usage.union u } : Join) =
      { q' with usage := q.usage.union u } ∧ q'.usage.Within (q.usage.union u) := by
    intro q' hq'
    rw [hq] at hq'
    cases hq'
    exact ⟨rfl, Usage.within_union_left q.usage u⟩
  -- The join stands for the same relation, so its parent is the one that is current.
  obtain ⟨path', parent', r', target', hground⟩ := hp.grounded place q hq
  have hpath' : extendPath path' r'.name = extendPath path r.name := by
    rw [← hpath, hground.join]
    rfl
  obtain ⟨rfl, hname⟩ := hground.reaches.extendPath_inj hs hat.reaches hground.relation hr hpath'
  obtain rfl := hground.reaches.unique hs hat.reaches
  obtain rfl : r' = r := by
    have hrelation := hground.relation
    rw [hname, hr] at hrelation
    exact (Option.some.inj hrelation).symm
  obtain rfl : target' = target := Option.some.inj (hground.leads.symm.trans ht)
  have hparent := (hp.knows_and hs hground.parent hat.knows).2
  have hnew : ({ q with usage := q.usage.union u } : Join) =
      newJoin place (extendPath path' r'.name) q.parentAlias r' target' (q.usage.union u) := by
    conv => lhs; rw [hground.join]
    rfl
  have hindexed := hp.indexed.join path' tableAlias r' target' u
  have hnoted := hp.noted.join hp.indexed path' tableAlias r' target' u
  refine ⟨hp.puts hputs hold hindexed hnoted hat.reaches hr ht hnew ?_, hputs.grows hold, ?_⟩
  · refine hparent.mono rfl fun k q' hq' hk => ⟨q', hq', rfl, hk.1.1, ?_, hk.2.2⟩
    exact Usage.union_within hk.1.2.1 hk.2.1
  · have hplace : q.tableAlias = joinAlias place := congrArg Join.tableAlias hground.join
    rw [halias, hplace, ← hpath]
    exact hputs.knows (Usage.within_union_right q.usage u)

/-- Joining a relation of a known table keeps the tree, and makes its target known. -/
theorem join_spec (hs : s.Safe) (hp : p.Rooted s) (hat : p.At s u path tableAlias table)
    (hr : table.relation? r.name = some r) (ht : s.catalog.target? r = some target) :
    (p.join path tableAlias r target u).2.Rooted s ∧ p.Grows (p.join path tableAlias r target u).2 ∧
      (p.join path tableAlias r target u).2.At s u (extendPath path r.name) (p.join path tableAlias r target u).1
        target := by
  have hstep := hat.reaches.step hr ht
  cases hindex : p.index? (extendPath path r.name) with
  | none =>
    obtain ⟨hp', hgrows, hknows⟩ := join_new_spec hp hat hr ht hindex
    exact ⟨hp', hgrows, hstep, hknows⟩
  | some place =>
    obtain ⟨hp', hgrows, hknows⟩ := join_again_spec hs hp hat hr ht hindex
    exact ⟨hp', hgrows, hstep, hknows⟩

/-! ### Recording and scratches -/

theorem indexed_start (root : String) : (start root).Indexed := by
  intro path k
  simp [JoinPlan.index?, start]

theorem noted_start (root : String) : (start root).Noted :=
  fun _ h => nomatch h

theorem rooted_start (root : String) (s : Setting) : (start root).Rooted s :=
  ⟨indexed_start root, noted_start root, fun i j hj => by simp [start] at hj⟩

theorem Noted.of_joins (hp : p.Noted) (hjoins : p'.joins = p.joins)
    (hseen : ∀ seen ∈ p'.recording, seen ∈ p.recording ∨ seen = []) : p'.Noted := by
  intro seen hmem
  rw [hjoins]
  rcases hseen seen hmem with hmem | rfl
  · exact hp seen hmem
  · exact ⟨List.nodup_nil, fun k hk => absurd hk List.not_mem_nil⟩

/-- The tree does not depend on what a recording has reached so far, if it has reached all or nothing of it. -/
theorem Rooted.rerecord (hp : p.Rooted s) (hroot : p'.root = p.root) (hbyPath : p'.byPath = p.byPath)
    (hjoins : p'.joins = p.joins) (hseen : ∀ seen ∈ p'.recording, seen ∈ p.recording ∨ seen = []) : p'.Rooted s := by
  refine ⟨hp.indexed.of_paths hbyPath (by rw [hjoins]), hp.noted.of_joins hjoins hseen, fun i j hj => ?_⟩
  rw [hjoins] at hj
  obtain ⟨path, parent, r, target, hground⟩ := hp.grounded i j hj
  refine ⟨path, parent, r, target, hground.reaches, hground.relation, hground.leads, hground.join,
    hground.parent.mono hroot fun k q hq hk => ⟨q, hjoins ▸ hq, rfl, hk.1, hk.2.1, fun seen hmem hi => ?_⟩⟩
  rcases hseen seen hmem with hmem | rfl
  · exact hk.2.2 seen hmem hi
  · cases hi

theorem Rooted.record (hp : p.Rooted s) : p.record.Rooted s :=
  hp.rerecord rfl rfl rfl fun _ h => Or.inr (Option.some.inj h).symm

theorem Rooted.recorded (hp : p.Rooted s) : p.recorded.2.Rooted s :=
  hp.rerecord rfl rfl rfl fun _ h => nomatch h

theorem Rooted.scratch (hp : p.Rooted s) : p.scratch.2.Rooted s :=
  hp.rerecord rfl rfl rfl fun _ h => Or.inl h

theorem extends_record (p : JoinPlan) : p.Extends p.record :=
  .of_joins rfl rfl rfl

theorem extends_recorded (p : JoinPlan) : p.Extends p.recorded.2 :=
  .of_joins rfl rfl rfl

theorem grows_scratch (p : JoinPlan) : p.Grows p.scratch.2 :=
  ⟨.of_joins rfl rfl rfl, rfl, fun seen h => ⟨seen, h, fun _ hk => hk⟩⟩

/-! ### Chosen joins -/

/-- With every chosen join its parent is chosen. -/
def Closed (p : JoinPlan) (s : Setting) (K : Nat → Join → Prop) : Prop :=
  ∀ i j path parent r target, p.joins[i]? = some j → p.Grounded s i j path parent r target → K i j →
    p.Knows K path j.parentAlias

/-- The column is one of the root or of a chosen join. -/
def Serves (p : JoinPlan) (s : Setting) (K : Nat → Join → Prop) (c : Sql.ColumnRef) : Prop :=
  ∃ path table, s.Reaches path table ∧ p.Knows K path c.tableAlias ∧ (table.column? c.column).isSome = true

theorem At.serves (h : p.At s u path tableAlias table) {column : String} (hc : (table.column? column).isSome = true) :
    p.Serves s (p.Current u) ⟨tableAlias, column⟩ :=
  ⟨path, table, h.reaches, h.knows, hc⟩

theorem Serves.mono {K K' : Nat → Join → Prop} {c : Sql.ColumnRef} (h : p.Serves s K c) (hroot : p'.root = p.root)
    (hK : ∀ k q, p.joins[k]? = some q → K k q → ∃ q', p'.joins[k]? = some q' ∧ q'.path = q.path ∧ K' k q') :
    p'.Serves s K' c := by
  obtain ⟨path, table, hreaches, hknows, hc⟩ := h
  exact ⟨path, table, hreaches, hknows.mono hroot hK, hc⟩

theorem Serves.grows {c : Sql.ColumnRef} (h : p.Serves s (p.Current u) c) (hgrows : p.Grows p') :
    p'.Serves s (p'.Current u) c := by
  refine h.mono hgrows.root fun k q hq hk => ?_
  obtain ⟨u', hq', hu'⟩ := hgrows.joins k q hq
  exact ⟨_, hq', rfl, hgrows.current hk hu'⟩

/-- The joins that a usage needs. -/
def Needs (w : Usage) (_ : Nat) (q : Join) : Prop :=
  q.usage.meets w = true

theorem Serves.needs {c : Sql.ColumnRef} {w : Usage} (h : p.Serves s (p.Current u) c) (hw : u.meets w = true)
    (hext : p.Extends p') : p'.Serves s (Needs w) c := by
  refine h.mono hext.root fun k q hq hk => ?_
  obtain ⟨u', hq', hu'⟩ := hext.joins k q hq
  exact ⟨_, hq', rfl, hu' w (hk.1 w hw)⟩

theorem closed_needs (w : Usage) : p.Closed s (Needs w) := by
  intro i j path parent r target _ hground hj
  exact hground.parent.mono rfl fun k q hq hk => ⟨q, hq, rfl, hk.2.1 w hj⟩

theorem insertPlace_eq (k : Nat) (places : List Nat) : insertPlace k places = places.orderedInsert (· ≤ ·) k := by
  induction places with
  | nil => rfl
  | cons first rest ih => rw [insertPlace, List.orderedInsert, ih]

theorem sortPlaces_eq (places : List Nat) : sortPlaces places = places.insertionSort (· ≤ ·) := by
  rw [sortPlaces, List.insertionSort, funext fun k => funext (insertPlace_eq k)]

/-- What is told of a recording that runs is what it has noted. -/
theorem mem_recorded {k : Nat} (hrec : p.recording.isSome = true) :
    k ∈ p.recorded.1 ↔ ∀ seen ∈ p.recording, k ∈ seen := by
  obtain ⟨seen, hseen⟩ := Option.isSome_iff_exists.mp hrec
  simp [recorded, hseen, sortPlaces_eq]

/-- It is told in ascending order, each place once. -/
theorem Noted.pairwise_recorded (hp : p.Noted) : p.recorded.1.Pairwise (· < ·) := by
  have hnodup : (p.recording.getD []).Nodup := by
    cases hrec : p.recording with
    | none => exact List.nodup_nil
    | some seen => exact (hp seen hrec).1
  rw [JoinPlan.recorded, sortPlaces_eq]
  have hsorted := List.pairwise_insertionSort (· ≤ ·) (p.recording.getD [])
  exact hsorted.imp₂ (fun a b hle hne => Nat.lt_of_le_of_ne hle hne)
    ((List.perm_insertionSort (· ≤ ·) _).nodup_iff.mpr hnodup)

theorem Serves.recorded {c : Sql.ColumnRef} (h : p.Serves s (p.Current u) c) (hrec : p.recording.isSome = true)
    (hext : p.Extends p') : p'.Serves s (fun k _ => k ∈ p.recorded.1) c := by
  refine h.mono hext.root fun k q hq hk => ?_
  obtain ⟨u', hq', -⟩ := hext.joins k q hq
  exact ⟨_, hq', rfl, (mem_recorded hrec).mpr hk.2⟩

/-- What has been recorded stays closed while the plan grows. -/
theorem Rooted.closed_recorded (hs : s.Safe) (hp : p.Rooted s) (hrec : p.recording.isSome = true)
    (hext : p.Extends p') : p'.Closed s fun k _ => k ∈ p.recorded.1 := by
  intro i j path parent r target hj hground hi
  obtain ⟨q, hq⟩ : ∃ q, p.joins[i]? = some q := by
    obtain ⟨seen, hseen⟩ := Option.isSome_iff_exists.mp hrec
    have hlt := (hp.noted seen hseen).2 i ((mem_recorded hrec).mp hi seen hseen)
    exact ⟨_, List.getElem?_eq_getElem hlt⟩
  obtain ⟨u', hq', -⟩ := hext.joins i q hq
  rw [hj] at hq'
  cases hq'
  obtain ⟨path', parent', r', target', hground'⟩ := hp.grounded i q hq
  -- a join keeps its path, and with it its parent
  have hpath : extendPath path' r'.name = extendPath path r.name := by
    have h' := congrArg Join.path hground'.join
    have h := congrArg Join.path hground.join
    exact h'.symm.trans h
  obtain ⟨rfl, -⟩ := hground'.reaches.extendPath_inj hs hground.reaches hground'.relation hground.relation hpath
  refine hground'.parent.mono hext.root fun k q' hk' hk => ?_
  obtain ⟨u'', hq'', -⟩ := hext.joins k q' hk'
  refine ⟨_, hq'', rfl, (mem_recorded hrec).mpr fun seen hseen => hk.2.2 seen hseen ?_⟩
  exact (mem_recorded hrec).mp hi seen hseen

theorem Closed.union {K K' : Nat → Join → Prop} (h : p.Closed s K) (h' : p.Closed s K') :
    p.Closed s fun k q => K k q ∨ K' k q := by
  intro i j path parent r target hj hground hi
  rcases hi with hi | hi
  · exact (h i j path parent r target hj hground hi).mono rfl fun k q hq hk => ⟨q, hq, rfl, Or.inl hk⟩
  · exact (h' i j path parent r target hj hground hi).mono rfl fun k q hq hk => ⟨q, hq, rfl, Or.inr hk⟩

end JoinPlan
end RecordService
