import RecordService.Proofs.Plan.Agreement

/-! # Recorded joins

A recording that runs while relations are joined ends with the places of their joins and no others
(`JoinPlan.Marks.places`), whether these joins are new or were planned for another part of the request. The joins at
these places are those that share a path with one of the relations (`JoinPlan.Places.joinsAt`). Where names are legible,
they are of relations of the same cardinality (`JoinPlan.Traced.toOne`), and where names are distinct as well, of the
relations themselves (`JoinPlan.Traced.of_names`). -/

namespace RecordService

/-! ### Legible names -/

/-- All relations have names that dotted paths tell apart. -/
def Catalog.Legible (catalog : Catalog) : Prop :=
  ∀ t ∈ catalog.tables, RecordService.Legible (t.relations.map (·.name))

theorem Catalog.legible_of_tableAt? {catalog : Catalog} (hnames : catalog.Legible) : ∀ {chain : List String}
    {table t : Table}, table ∈ catalog.tables → catalog.tableAt? table chain = some t → RecordService.Legible chain
  | [], _, _, _, _ => fun n hn => absurd hn List.not_mem_nil
  | name :: rest, table, t, htable, h => by
    obtain ⟨next, hnext, hrest⟩ := Option.bind_eq_some_iff.mp h
    obtain ⟨r, hr, htarget⟩ := Option.bind_eq_some_iff.mp hnext
    have hname := hnames table htable r.name (List.mem_map_of_mem (mem_of_relation? hr))
    rw [name_of_relation? hr] at hname
    exact List.forall_mem_cons.mpr ⟨hname, legible_of_tableAt? hnames (mem_of_target? htarget) hrest⟩

/-- The path of a relation is that of one chain of names. -/
theorem Setting.legible_concat {s : Setting} (hnames : s.catalog.Legible) (hroot : s.root ∈ s.catalog.tables)
    {chain : List String} {t : Table} {r : Relation} (ht : s.tableAt? chain = some t) (hr : r ∈ t.relations) :
    RecordService.Legible (chain ++ [r.name]) := by
  have hname := hnames t (s.mem_of_tableAt? hroot ht) r.name (List.mem_map_of_mem hr)
  have hchain : RecordService.Legible chain := Catalog.legible_of_tableAt? hnames hroot ht
  exact List.forall_mem_append.mpr ⟨hchain, List.forall_mem_singleton.mpr hname⟩

theorem Catalog.PathSafe.legible {catalog : Catalog} (h : catalog.PathSafe) : catalog.Legible := by
  intro t ht name hname
  obtain ⟨r, hr, rfl⟩ := List.mem_map.mp hname
  exact ⟨h.nonempty t ht r hr, h.dotless t ht r hr⟩

/-- Relations of one path are of one table and have one name there. -/
theorem Setting.Joinable.same_table {s : Setting} {x y : Crossing} (hy : s.Joinable y) (hnames : s.catalog.Legible)
    (hroot : s.root ∈ s.catalog.tables) (hx : s.Names x) (hpath : y.path = x.path) :
    ∃ t ∈ s.catalog.tables, t.relation? y.relation.name = some x.relation ∧ y.relation ∈ t.relations ∧
      (y.relation.isMany = true → t.relation? y.relation.name = some y.relation) := by
  obtain ⟨-, chain, t, ht, hmem, hmany, hypath⟩ := hy
  obtain ⟨-, chain', t', ht', hr, hxpath⟩ := hx
  -- a legible path is that of one chain, which leads to one table
  have hsame := dotted_inj (legible_concat hnames hroot ht hmem)
    (legible_concat hnames hroot ht' (Catalog.mem_of_relation? hr)) (hypath.symm.trans (hpath.trans hxpath))
  obtain ⟨rfl, hname⟩ := List.append_inj' hsame rfl
  rw [ht] at ht'
  cases ht'
  refine ⟨t, s.mem_of_tableAt? hroot ht, ?_, hmem, hmany⟩
  rw [List.singleton_inj.mp hname]
  exact hr

/-! ### Recordings -/

/-- Items that are picked by their places. -/
theorem map_filter_zipIdx {α : Type} (at? : Nat → Bool) (keep : α → Bool) : ∀ (items : List α) (n : Nat),
    (∀ k a, items[k]? = some a → at? (n + k) = keep a) →
      ((items.zipIdx n).filter fun x => at? x.2).map (·.1) = items.filter keep
  | [], _, _ => rfl
  | a :: rest, n, h => by
    -- places count on from the first one, whatever it is
    have hrest := map_filter_zipIdx at? keep rest (n + 1) fun k b hb => by
      rw [Nat.add_right_comm]
      exact h (k + 1) b hb
    have hfirst := h 0 a rfl
    rw [List.zipIdx_cons, List.filter_cons, List.filter_cons]
    simp only [Nat.add_zero] at hfirst
    rw [hfirst]
    split
    · rw [List.map_cons, hrest]
    · exact hrest

namespace JoinPlan

variable {p p' p'' : JoinPlan} {u : Usage} {xs : List Crossing} {path tableAlias : String} {r : Relation}
  {target : Table} {k : Nat}

/-- Each of the relations has a join. -/
def JoinsAll (p : JoinPlan) (xs : List Crossing) : Prop :=
  ∀ x ∈ xs, ∃ k, p.index? x.path = some k

theorem JoinsAll.mono (h : p.JoinsAll xs) (hext : p.Extends p') : p'.JoinsAll xs := by
  intro x hx
  obtain ⟨k, hk⟩ := h x hx
  exact ⟨k, hext.index? hk⟩

theorem JoinsAll.append {ys : List Crossing} (h : p.JoinsAll xs) (h' : p.JoinsAll ys) : p.JoinsAll (xs ++ ys) :=
  fun x hx => (List.mem_append.mp hx).elim (h x) (h' x)

/-- The places of joined relations do not change any more. -/
theorem JoinsAll.place_iff (h : p.JoinsAll xs) (hext : p.Extends p') (k : Nat) :
    (∃ x ∈ xs, p.index? x.path = some k) ↔ ∃ x ∈ xs, p'.index? x.path = some k := by
  refine exists_congr fun x => and_congr_right fun hx => ?_
  obtain ⟨k', hk'⟩ := h x hx
  rw [hk', hext.index? hk']

/-- The relations are joined, and the recording, if one runs, goes on to their places and to no others. -/
structure Marks (p p' : JoinPlan) (xs : List Crossing) : Prop where
  joined : p'.JoinsAll xs
  recorded : ∀ seen ∈ p.recording, ∃ seen' ∈ p'.recording,
    ∀ k, k ∈ seen' ↔ k ∈ seen ∨ ∃ x ∈ xs, p'.index? x.path = some k

theorem Marks.of_recording (h : p'.recording = p.recording) : p.Marks p' [] :=
  ⟨fun x hx => absurd hx List.not_mem_nil, fun seen hseen => ⟨seen, h ▸ hseen, fun k => by simp⟩⟩

theorem Marks.append {ys : List Crossing} (h : p.Marks p' xs) (hext : p'.Extends p'') (h' : p'.Marks p'' ys) :
    p.Marks p'' (xs ++ ys) := by
  refine ⟨(h.joined.mono hext).append h'.joined, fun seen hseen => ?_⟩
  obtain ⟨seen', hseen', hmem⟩ := h.recorded seen hseen
  obtain ⟨seen'', hseen'', hmem'⟩ := h'.recorded seen' hseen'
  refine ⟨seen'', hseen'', fun k => ?_⟩
  rw [hmem', hmem, h.joined.place_iff hext, or_assoc]
  simp only [List.mem_append, or_and_right, exists_or]

theorem marks_of_place {place : Nat} (hindex : p'.index? path = some place)
    (hrecording : p'.recording = (p.touch place).recording) (r : Relation) (target : Table) :
    p.Marks p' [⟨path, r, target⟩] := by
  refine ⟨fun x hx => ⟨place, by rw [List.mem_singleton.mp hx, hindex]⟩, fun seen hseen => ?_⟩
  have htouch : (p.touch place).recording.isSome = true := by
    rw [isSome_touch, Option.mem_def.mp hseen]
    rfl
  obtain ⟨seen', hseen'⟩ := Option.isSome_iff_exists.mp htouch
  obtain ⟨seen₀, hseen₀, hmem⟩ := mem_touch hseen'
  obtain rfl : seen₀ = seen := Option.some.inj (hseen₀.symm.trans hseen)
  refine ⟨seen', hrecording ▸ hseen', fun k => ?_⟩
  rw [hmem]
  simp [hindex, eq_comm]

/-- A relation that is joined for the first time has the next place. -/
theorem index?_join_of_none (tableAlias : String) (target : Table) (u : Usage)
    (h : p.index? (extendPath path r.name) = none) :
    (p.join path tableAlias r target u).2.index? (extendPath path r.name) = some p.joins.length := by
  simp only [join, h]
  exact List.lookup_cons_self

/-- Joining marks the place of the path, whether the path was planned before or not. -/
theorem recording_join (tableAlias : String) (target : Table) (u : Usage) {place : Nat}
    (h : p.index? (extendPath path r.name) = some place) :
    (p.join path tableAlias r target u).2.recording = (p.touch place).recording := by
  simp only [join, h]

theorem marks_join (p : JoinPlan) (path tableAlias : String) (r : Relation) (target : Table) (u : Usage) :
    p.Marks (p.join path tableAlias r target u).2 [⟨extendPath path r.name, r, target⟩] := by
  have hext := (p.gains_join path tableAlias r target u).toExtends
  cases h : p.index? (extendPath path r.name) with
  | some place => exact marks_of_place (hext.index? h) (recording_join tableAlias target u h) r target
  | none =>
    obtain ⟨-, -, hputs⟩ := join_of_none tableAlias target u h
    exact marks_of_place (index?_join_of_none tableAlias target u h) hputs.recording r target

/-- What is joined is what is recorded. -/
theorem Crosses.marks (h : p.Crosses u xs p') : p.Marks p' xs := by
  induction h with
  | refl p => exact .of_recording rfl
  | scratch p => exact .of_recording rfl
  | join p path tableAlias r target _ => exact p.marks_join path tableAlias r target u
  | append _ h' ih ih' => exact ih.append h'.gains.toExtends ih'

/-- The relations are joined, and these are the places of their joins. -/
structure Places (p : JoinPlan) (places : List Nat) (xs : List Crossing) : Prop where
  joined : p.JoinsAll xs
  mem_iff : ∀ k, k ∈ places ↔ ∃ x ∈ xs, p.index? x.path = some k

theorem Places.mono {places : List Nat} (h : p.Places places xs) (hext : p.Extends p') : p'.Places places xs :=
  ⟨h.joined.mono hext, fun k => (h.mem_iff k).trans (h.joined.place_iff hext k)⟩

theorem Places.append {places places' : List Nat} {ys : List Crossing} (h : p.Places places xs)
    (h' : p.Places places' ys) : p.Places (places ++ places') (xs ++ ys) := by
  refine ⟨h.joined.append h'.joined, fun k => ?_⟩
  simp only [List.mem_append, h.mem_iff, h'.mem_iff, or_and_right, exists_or]

/-- A recording that begins before the joins and ends after them finds their places. -/
theorem Marks.places (h : p.record.Marks p' xs) : p'.recorded.2.Places p'.recorded.1 xs := by
  -- nothing has been seen when the recording begins
  obtain ⟨seen', hseen', hmem⟩ := h.recorded [] rfl
  refine ⟨h.joined, fun k => ?_⟩
  rw [mem_recorded (Option.isSome_iff_exists.mpr ⟨seen', hseen'⟩)]
  simp only [Option.mem_def.mp hseen', Option.mem_some_iff, forall_eq', hmem, List.not_mem_nil, false_or]
  rfl

theorem Crosses.places (h : p.record.Crosses u xs p') : p'.recorded.2.Places p'.recorded.1 xs :=
  h.marks.places

/-- The joins of the relations, in the order of the plan. -/
def joinsOf (p : JoinPlan) (xs : List Crossing) : List Join :=
  p.joins.filter fun j => xs.any (·.path == j.path)

theorem mem_joinsOf {j : Join} : j ∈ p.joinsOf xs ↔ j ∈ p.joins ∧ ∃ x ∈ xs, x.path = j.path := by
  simp [joinsOf, List.mem_filter, List.any_eq_true]

theorem Places.joinsAt {places : List Nat} (h : p.Places places xs) (hp : p.Regular) :
    p.joinsAt places = p.joinsOf xs := by
  refine map_filter_zipIdx places.contains (fun j => xs.any (·.path == j.path)) p.joins 0 fun k j hj => ?_
  rw [Nat.zero_add, Bool.eq_iff_iff, List.contains_iff_mem, h.mem_iff, List.any_eq_true]
  refine exists_congr fun x => and_congr_right fun _ => ?_
  rw [beq_iff_eq, hp.indexed.index?_iff, hj]
  simp [eq_comm]

theorem Places.anyMany_iff {places : List Nat} (h : p.Places places xs) (hp : p.Regular) :
    p.anyMany places = true ↔ ∃ j ∈ p.joinsOf xs, j.many = true := by
  simp only [anyMany, List.any_eq_true, h.mem_iff, mem_joinsOf, Option.any_eq_true]
  constructor
  · rintro ⟨k, ⟨x, hx, hk⟩, j, hj, hmany⟩
    obtain ⟨j', hj', hpath⟩ := hp.indexed.index?_iff.mp hk
    rw [hj] at hj'
    cases hj'
    exact ⟨j, ⟨List.mem_of_getElem? hj, x, hx, hpath.symm⟩, hmany⟩
  · rintro ⟨j, ⟨hj, x, hx, hpath⟩, hmany⟩
    obtain ⟨k, hk⟩ := List.mem_iff_getElem?.mp hj
    exact ⟨k, ⟨x, hx, hpath ▸ hp.indexed.index?_path hk⟩, j, hk, hmany⟩

/-! ### Where joins come from -/

/-- Joining changes the usage of joins, and plans one of the relation. -/
theorem mem_join {j : Join} (h : j ∈ (p.join path tableAlias r target u).2.joins) :
    (∃ j' ∈ p.joins, ∃ u', j = { j' with usage := u' }) ∨
      ∃ place, j = newJoin place (extendPath path r.name) tableAlias r target u := by
  obtain ⟨k, hk⟩ := List.mem_iff_getElem?.mp h
  rcases join_getElem? hk with ⟨q, v, hq, hj⟩ | ⟨-, hj⟩
  · exact Or.inl ⟨q, List.mem_of_getElem? hq, v, hj⟩
  · exact Or.inr ⟨k, hj⟩

variable {s : Setting}

/-- Each join is of a relation of a table that a chain leads to, and the alias of its junction is made of its own. -/
structure Traced (p : JoinPlan) (s : Setting) : Prop where
  of : ∀ j ∈ p.joins, ∃ x, s.Joinable x ∧ j.Of x
  linked : ∀ j ∈ p.joins, ∀ link ∈ j.link, link.tableAlias = linkAlias j.tableAlias

theorem traced_start (root : String) (s : Setting) : (start root).Traced s :=
  ⟨fun _ hj => absurd hj List.not_mem_nil, fun _ hj => absurd hj List.not_mem_nil⟩

theorem Traced.of_joins (h : p.Traced s) (hjoins : p'.joins = p.joins) : p'.Traced s :=
  ⟨hjoins ▸ h.of, hjoins ▸ h.linked⟩

theorem Traced.crosses (hp : p.Traced s) (h : p.Crosses u xs p') (hxs : ∀ x ∈ xs, s.Joinable x) : p'.Traced s := by
  induction h with
  | refl => exact hp
  | scratch => exact hp.of_joins rfl
  | join p path tableAlias r target _ =>
    refine ⟨fun j hj => ?_, fun j hj link hlink => ?_⟩
    · rcases mem_join hj with ⟨j', hj', u', rfl⟩ | ⟨place, rfl⟩
      · obtain ⟨x, hx, hof⟩ := hp.of j' hj'
        exact ⟨x, hx, hof.widen u'⟩
      · exact ⟨_, hxs _ (List.mem_singleton.mpr rfl), rfl, rfl, rfl, rfl⟩
    · rcases mem_join hj with ⟨j', hj', u', rfl⟩ | ⟨place, rfl⟩
      · exact hp.linked j' hj' link hlink
      · obtain ⟨junction, -, rfl⟩ := Option.map_eq_some_iff.mp hlink
        rfl
  | append _ _ ih ih' =>
    exact ih' (ih hp fun x hx => hxs x (List.mem_append_left _ hx)) fun x hx => hxs x (List.mem_append_right _ hx)

/-- Where names are legible, a join that shares its path with a to-one relation leads to one record. -/
theorem Traced.toOne (h : p.Traced s) (hnames : s.catalog.Legible) (hroot : s.root ∈ s.catalog.tables) {j : Join}
    (hj : j ∈ p.joins) {x : Crossing} (hx : s.Names x) (hone : x.relation.isMany = false) (hpath : j.path = x.path) :
    j.many = false := by
  obtain ⟨y, hy, hof⟩ := h.of j hj
  obtain ⟨t, -, hr, -, hmany⟩ := hy.same_table hnames hroot hx (hof.path.symm.trans hpath)
  rw [hof.many]
  by_contra htrue
  rw [hmany (by simpa using htrue)] at hr
  rw [Option.some.inj hr, hone] at htrue
  exact htrue rfl

/-- Where names are distinct as well, such a join is that of the relation. -/
theorem Traced.of_names (h : p.Traced s) (hnames : s.catalog.PathSafe) (hroot : s.root ∈ s.catalog.tables) {j : Join}
    (hj : j ∈ p.joins) {x : Crossing} (hx : s.Names x) (hpath : j.path = x.path) : j.Of x := by
  obtain ⟨y, hy, hof⟩ := h.of j hj
  obtain ⟨t, ht, hr, hmem, -⟩ := hy.same_table hnames.legible hroot hx (hof.path.symm.trans hpath)
  rw [Table.relation?, Catalog.find?_name (hnames.distinct t ht) hmem] at hr
  have hrelation : y.relation = x.relation := Option.some.inj hr
  have htarget := hy.1
  rw [hrelation, hx.1] at htarget
  refine ⟨hpath, ?_, ?_, ?_⟩
  · rw [hof.relation, hrelation]
  · rw [hof.many, hrelation]
  · rw [hof.table, Option.some.inj htarget]

end JoinPlan

end RecordService
