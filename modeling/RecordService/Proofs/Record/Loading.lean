import RecordService.Proofs.Plan.Agreement
import RecordService.Proofs.Record.Nesting
import RecordService.Proofs.Sql.Identities
import RecordService.Proofs.Store.Events
import RecordService.Record.Deferred

/-! # Loading links

Deferred links are loaded one after the other (`Projection.loadDeferred_loads`). For each, every key of a parent is
asked for once, in batches of a bounded length, and every parent, however deep in the records, gets the related records
of its own key, in the order of the store; nothing else changes. Where the batches are cut does not matter. A later link
could write over an earlier one, or over the key of its parents: those of one projection do not, because their places
and keys are those of different relations and columns of the tables (`Projection.Charted.apart`). -/

namespace RecordService

/-! ### Keys -/

namespace Operand

theorem distinct_sublist : ∀ (seen : List String) (cells : List Cell), (distinct seen cells).Sublist cells
  | _, [] => .slnil
  | seen, c :: rest => by
    rw [distinct]
    split
    · exact (distinct_sublist seen rest).cons c
    · exact (distinct_sublist _ rest).cons_cons c

/-- The identities of distinct cells are those that have not been seen. -/
theorem mem_identity_distinct {id : String} : ∀ (seen : List String) (cells : List Cell),
    id ∈ (distinct seen cells).map (·.identity) ↔ id ∈ cells.map (·.identity) ∧ id ∉ seen
  | _, [] => by simp [distinct]
  | seen, c :: rest => by
    rw [distinct]
    split
    · rename_i hseen
      rw [List.contains_iff_mem] at hseen
      rw [mem_identity_distinct seen rest, List.map_cons, List.mem_cons]
      grind
    · rename_i hnew
      rw [List.contains_iff_mem] at hnew
      rw [List.map_cons, List.mem_cons, mem_identity_distinct _ rest, List.map_cons, List.mem_cons]
      grind

/-- Each identity is there once. -/
theorem nodup_distinct : ∀ (seen : List String) (cells : List Cell), ((distinct seen cells).map (·.identity)).Nodup
  | _, [] => .nil
  | seen, c :: rest => by
    rw [distinct]
    split
    · exact nodup_distinct seen rest
    · rw [List.map_cons, List.nodup_cons]
      exact ⟨fun hmem => ((mem_identity_distinct _ rest).mp hmem).2 List.mem_cons_self, nodup_distinct _ rest⟩

end Operand

/-! ### Batches -/

theorem flatten_chunks {α : Type} (size : Nat) (items : List α) : (chunks size items).flatten = items := by
  fun_induction chunks size items with
  | case1 => rfl
  | case2 x rest ih => rw [List.flatten_cons, ih, List.cons_append, List.take_append_drop]

theorem length_le_of_mem_chunks {α : Type} {size : Nat} (hsize : 0 < size) (items : List α) :
    ∀ batch ∈ chunks size items, batch.length ≤ size := by
  fun_induction chunks size items with
  | case1 => exact fun batch hbatch => absurd hbatch List.not_mem_nil
  | case2 x rest ih =>
    intro batch hbatch
    rcases List.mem_cons.mp hbatch with rfl | hbatch
    · rw [List.length_cons, List.length_take]
      omega
    · exact ih batch hbatch

/-- What there is for a key is there once, in the batch that has the key. -/
theorem flatMap_batches {α : Type} {id : String} (found : List α) : ∀ {batches : List (List Cell)},
    (batches.flatten.map (·.identity)).Nodup →
      (batches.flatMap fun keys => if id ∈ keys.map (·.identity) then found else []) =
        if id ∈ batches.flatten.map (·.identity) then found else []
  | [], _ => by simp
  | keys :: rest, h => by
    rw [List.flatten_cons, List.map_append] at h ⊢
    obtain ⟨-, hrest, hdisjoint⟩ := List.nodup_append.mp h
    rw [List.flatMap_cons, flatMap_batches found hrest]
    by_cases hid : id ∈ keys.map (·.identity)
    · have hnot : id ∉ rest.flatten.map (·.identity) := fun hmem => hdisjoint id hid id hmem rfl
      rw [if_pos hid, if_neg hnot, if_pos (List.mem_append_left _ hid), List.append_nil]
    · rw [if_neg hid, List.nil_append]
      simp only [List.mem_append, hid, false_or]

/-! ### Link rows -/

/-- The rows of each link, a parent's key and a target's, in the order of the store. -/
abbrev LinkRows := DeferredLink → List (Cell × Cell)

namespace LinkRows

variable {σ : Type}

/-- The rows that have one of the keys, by identity. -/
def ofKeys (store : LinkRows) (l : DeferredLink) (keys : List Cell) : List (List Cell) :=
  ((store l).filter fun row => (keys.map (·.identity)).contains row.1.identity).map fun row => [row.1, row.2]

/-- A query for links is answered with the rows of its keys; all else may be answered in any way. -/
def Answers (store : LinkRows) (answer : (step : Step) → σ → step.Answer × σ) : Prop :=
  ∀ l keys state, ∃ columns, (answer (.query (.deferred l keys)) state).1 = .ok ⟨columns, store.ofKeys l keys⟩

/-- A session in which queries for links are answered from the rows. -/
def answer (store : LinkRows) : (step : Step) → Session → step.Answer × Session
  | .query (.deferred l keys), s => (.ok ⟨[l.links.parentKey, l.links.targetKey], store.ofKeys l keys⟩, s)
  | step, s => Session.answer step s

theorem answers_answer (store : LinkRows) : store.Answers store.answer :=
  fun _ _ _ => ⟨_, rfl⟩

end LinkRows

namespace DeferredLink

variable {σ : Type} {answer : (step : Step) → σ → step.Answer × σ} {store : LinkRows} {l l' : DeferredLink}
  {rows : List (Cell × Cell)} {records : List Entries}

/-- The objects in records that the link gives related records to. -/
def parents (l : DeferredLink) (records : List Entries) : List Entries :=
  records.flatMap fun r => Json.objectsAt l.parentChain (.obj r)

/-- The related records of the link rows with an identity that have a target, in the order of the rows. -/
def targets (l : DeferredLink) (rows : List (Cell × Cell)) (id : String) : List Json :=
  (rows.filter fun row => row.1.identity == id && !row.2.isNull).map fun row =>
    .obj [(l.targetKey, row.2.toJson (some l.targetType))]

/-- The related records of a parent: those of its own key, and none if it has no key. -/
def linked (l : DeferredLink) (rows : List (Cell × Cell)) (parent : Entries) : List Json :=
  if (l.parentKey parent).isNull then [] else l.targets rows (l.parentKey parent).identity

/-- The parent with its related records. -/
def fill (l : DeferredLink) (rows : List (Cell × Cell)) (parent : Entries) : Entries :=
  parent.put l.name (.arr (l.linked rows parent))

/-- The records with the related records of all parents. -/
def loaded (l : DeferredLink) (rows : List (Cell × Cell)) (records : List Entries) : List Entries :=
  records.map (Json.within (l.fill rows) l.parentChain)

/-- A record without what the link gives to the parents in it. -/
def bare (l : DeferredLink) : Entries → Entries :=
  Json.within (·.without l.name) l.parentChain

/-- Every key of a parent is asked for, null excepted. -/
theorem mem_identity_parentKeys {parents : List Entries} {id : String} :
    id ∈ (l.parentKeys parents).map (·.identity) ↔
      ∃ parent ∈ parents, (l.parentKey parent).isNull = false ∧ (l.parentKey parent).identity = id := by
  simp [parentKeys, Operand.mem_identity_distinct, and_assoc]

/-- The related records of one identity are found in the answer to each batch that has it. -/
theorem related_ofKeys (keys : List Cell) (id : String) :
    (((store.ofKeys l keys).filterMap l.related?).filter (·.1 == id)).map (·.2) =
      if id ∈ keys.map (·.identity) then l.targets (store l) id else [] := by
  unfold LinkRows.ofKeys targets
  -- row by row: one counts if it is asked for, leads to a record and has this identity
  induction store l with
  | nil => simp
  | cons row rest ih =>
    obtain ⟨parent, target⟩ := row
    simp only [List.filter_cons]
    by_cases hid : parent.identity = id
    · subst hid
      by_cases hkey : parent.identity ∈ keys.map (·.identity)
      · rw [if_pos hkey] at ih
        rw [if_pos (List.contains_iff_mem.mpr hkey), if_pos hkey]
        by_cases hnull : target.isNull = true
        · simpa [related?, hnull] using ih
        · simpa [related?, hnull] using ih
      · rw [if_neg hkey] at ih
        rw [if_neg (fun h => hkey (List.contains_iff_mem.mp h)), if_neg hkey]
        exact ih
    · have hother : (parent.identity == id && !target.isNull) = false := by simp [hid]
      rw [hother]
      simp only [Bool.false_eq_true, if_false]
      rw [← ih]
      by_cases hkey : (keys.map (·.identity)).contains parent.identity = true
      · rw [if_pos hkey]
        by_cases hnull : target.isNull = true
        · simp [related?, hnull]
        · simp [related?, hnull, hid]
      · rw [if_neg hkey]

/-- Where the keys of all parents are in one batch each, a parent is given its own related records. -/
theorem attach_eq {batches : List (List Cell)} (hbatches : batches.flatten = l.parentKeys (l.parents records))
    {parent : Entries} (hparent : parent ∈ l.parents records) :
    l.attach (batches.flatMap fun keys => (store.ofKeys l keys).filterMap l.related?) parent =
      l.fill (store l) parent := by
  have hdistinct : (batches.flatten.map (·.identity)).Nodup := hbatches ▸ Operand.nodup_distinct _ _
  have hrelated : ((batches.flatMap fun keys => (store.ofKeys l keys).filterMap l.related?).filter
      (·.1 == (l.parentKey parent).identity)).map (·.2) = l.linked (store l) parent := by
    rw [List.filter_flatMap, List.map_flatMap]
    simp only [related_ofKeys]
    rw [flatMap_batches _ hdistinct, hbatches, linked]
    by_cases hnull : (l.parentKey parent).isNull = true
    · rw [if_pos hnull, if_neg]
      intro hmem
      obtain ⟨other, -, hother, hid⟩ := mem_identity_parentKeys.mp hmem
      rw [Cell.identity_eq_null.mpr hnull, Cell.identity_eq_null, hother] at hid
      cases hid
    · rw [if_neg hnull, if_pos]
      exact mem_identity_parentKeys.mpr ⟨parent, hparent, by simpa using hnull, rfl⟩
  exact congrArg (fun items => parent.put l.name (.arr items)) hrelated

/-- The loading of a link, with the keys cut into batches in some way. -/
def loadIn (cut : List Cell → List (List Cell)) (l : DeferredLink) (records : List Entries) :
    Operation (List Entries) := do
  let related ← l.loadAll (cut (l.parentKeys (l.parents records)))
  return records.map fun r =>
    match Json.modifyAt (l.attach related) l.parentChain (.obj r) with
    | .obj entries => entries
    | _ => r

theorem loadIn_chunks (l : DeferredLink) (records : List Entries) :
    l.loadIn (chunks linkChunk) records = l.load records :=
  rfl

variable {events : List Event}

theorem loadAll_runs (hstore : store.Answers answer) : ∀ {batches : List (List Cell)} {events : List Event}
    {result : Except Error (List (String × Json))}, (l.loadAll batches).Runs events result →
      (∀ e ∈ events, e.Follows answer) →
        result = .ok (batches.flatMap fun keys => (store.ofKeys l keys).filterMap l.related?) ∧
          events.map (·.step) = batches.map fun keys => .query (.deferred l keys)
  | [], _, _, hruns, _ => by
    obtain ⟨rfl, rfl⟩ := Operation.runs_pure.mp hruns
    exact ⟨rfl, rfl⟩
  | keys :: rest, events, result, hruns, hfollows => by
    -- each query is answered with the links of its batch
    have hquery : ∀ {before : List Event} {reply : Except Error Rows},
        (Operation.query (.deferred l keys)).Runs before reply → (∀ e ∈ before, e ∈ events) →
          before = [⟨.query (.deferred l keys), reply⟩] ∧ ∃ columns, reply = .ok ⟨columns, store.ofKeys l keys⟩ := by
      intro before reply hfirst hsub
      obtain rfl := Operation.runs_query.mp hfirst
      obtain ⟨state, hreply⟩ := hfollows _ (hsub _ (List.mem_singleton.mpr rfl))
      obtain ⟨columns, hanswer⟩ := hstore l keys state
      exact ⟨rfl, columns, hreply.trans hanswer⟩
    rcases Operation.runs_bind.mp hruns with ⟨e, hfirst, -⟩ | ⟨before, reply, after, hfirst, hafter, rfl⟩
    · obtain ⟨-, columns, heq⟩ := hquery hfirst fun _ he => he
      cases heq
    · obtain ⟨rfl, columns, heq⟩ := hquery hfirst fun _ he => List.mem_append_left _ he
      cases heq
      have hmore : ∀ e ∈ after, e.Follows answer := fun e he => hfollows e (List.mem_append_right _ he)
      rcases Operation.runs_bind.mp hafter with ⟨e, hrest, -⟩ | ⟨middle, more, last, hrest, hdone, rfl⟩
      · cases (loadAll_runs hstore hrest hmore).1
      · obtain ⟨rfl, rfl⟩ := Operation.runs_pure.mp hdone
        rw [List.append_nil] at hmore ⊢
        obtain ⟨hvalue, hsteps⟩ := loadAll_runs hstore hrest hmore
        cases hvalue
        exact ⟨rfl, by rw [List.map_append, hsteps]; rfl⟩

/-- However the keys are cut, the records are given what the store has for them. -/
theorem loadIn_runs (hstore : store.Answers answer) {cut : List Cell → List (List Cell)}
    (hcut : ∀ keys, (cut keys).flatten = keys) {result : Except Error (List Entries)}
    (hruns : (l.loadIn cut records).Runs events result) (hfollows : ∀ e ∈ events, e.Follows answer) :
    result = .ok (l.loaded (store l) records) ∧
      events.map (·.step) = (cut (l.parentKeys (l.parents records))).map fun keys => .query (.deferred l keys) := by
  rcases Operation.runs_bind.mp hruns with ⟨e, hfirst, -⟩ | ⟨before, related, after, hfirst, hdone, rfl⟩
  · cases (loadAll_runs hstore hfirst hfollows).1
  · obtain ⟨rfl, rfl⟩ := Operation.runs_pure.mp hdone
    rw [List.append_nil] at hfollows ⊢
    obtain ⟨hvalue, hsteps⟩ := loadAll_runs hstore hfirst hfollows
    cases hvalue
    refine ⟨congrArg Except.ok (List.map_congr_left fun r hr => ?_), hsteps⟩
    have hattach : ∀ parent ∈ Json.objectsAt l.parentChain (.obj r), _ = l.fill (store l) parent :=
      fun parent hparent => attach_eq (hcut _) (List.mem_flatMap.mpr ⟨r, hr, hparent⟩)
    rw [Json.modifyAt_congr hattach, Json.modifyAt_obj]

/-! ### What is loaded -/

theorem parents_loaded (l : DeferredLink) (rows : List (Cell × Cell)) (records : List Entries) :
    l.parents (l.loaded rows records) = (l.parents records).map (l.fill rows) := by
  rw [parents, loaded, List.flatMap_map, parents, List.map_flatMap]
  refine List.flatMap_congr fun r _ => ?_
  rw [← Json.modifyAt_obj, Json.objectsAt_modifyAt]

theorem bare_loaded (l : DeferredLink) (rows : List (Cell × Cell)) (records : List Entries) :
    (l.loaded rows records).map l.bare = records.map l.bare := by
  rw [loaded, List.map_map]
  refine List.map_congr_left fun r _ => ?_
  have hsame := Json.modifyAt_modifyAt (l.fill rows) (fun es => es.without l.name) l.parentChain (.obj r)
  have hkept : (fun es => es.without l.name) ∘ l.fill rows = fun es => es.without l.name :=
    funext fun es => Entries.without_put es l.name _
  rw [hkept, Json.modifyAt_obj, Json.modifyAt_obj, Json.modifyAt_obj] at hsame
  exact Json.obj.inj hsame

/-- How the records change, and what is asked for, when one link is loaded: the keys of the parents are asked for in
batches of a bounded length, each key in one of them, every parent gets its related records, and all else stays. -/
structure Loads (l : DeferredLink) (rows : List (Cell × Cell)) (before : List Entries) (steps : List Step)
    (after : List Entries) : Prop where
  parents : l.parents after = (l.parents before).map (l.fill rows)
  rest : after.map l.bare = before.map l.bare
  steps : ∃ batches : List (List Cell), steps = batches.map (fun keys => .query (.deferred l keys)) ∧
    (∀ keys ∈ batches, (l.statement keys).params = keys ∧ keys.length ≤ linkChunk) ∧
    (batches.flatten.map (·.identity)).Nodup ∧
    (∀ key ∈ batches.flatten, key.isNull = false ∧ key ∈ (l.parents before).map l.parentKey) ∧
    ∀ parent ∈ l.parents before, (l.parentKey parent).isNull = false →
      (l.parentKey parent).identity ∈ batches.flatten.map (·.identity)

theorem loads_loaded (l : DeferredLink) (rows : List (Cell × Cell)) (records : List Entries) :
    l.Loads rows records
      ((chunks linkChunk (l.parentKeys (l.parents records))).map fun keys => .query (.deferred l keys))
      (l.loaded rows records) := by
  refine ⟨parents_loaded l rows records, bare_loaded l rows records, _, rfl, fun keys hkeys => ⟨rfl, ?_⟩, ?_⟩
  · exact length_le_of_mem_chunks (by decide) _ keys hkeys
  · rw [flatten_chunks]
    refine ⟨Operand.nodup_distinct _ _, fun key hkey => ?_, fun parent hparent hnull => ?_⟩
    · obtain ⟨hmem, hnull⟩ := List.mem_filter.mp ((Operand.distinct_sublist _ _).subset hkey)
      exact ⟨by simpa using hnull, hmem⟩
    · exact mem_identity_parentKeys.mpr ⟨parent, hparent, hnull, rfl⟩

/-! ### Links that do not meet -/

/-- The other link changes nothing that this one reads or writes, and keeps its parents in place. -/
structure Apart (l l' : DeferredLink) : Prop where
  above : ¬l'.chain <+: l.parentChain
  name : ¬l.chain <+: l'.chain
  field : ¬l.parentChain ++ [l.parentField] <+: l'.chain

theorem parentKey_congr {es es' : Entries} (h : es.get? l.parentField = es'.get? l.parentField) :
    l.parentKey es = l.parentKey es' := by
  rw [parentKey, parentKey, h]

/-- The parents of a link when another one is loaded. -/
theorem Apart.parents_loaded (h : l.Apart l') (rows : List (Cell × Cell)) (records : List Entries) :
    ∃ carried : Entries → Entries, l.parents (l'.loaded rows records) = (l.parents records).map carried ∧
      ∀ es, l.parentKey (carried es) = l.parentKey es ∧ (carried es).get? l.name = es.get? l.name := by
  have hfill : ∀ (es : Entries) key, key ≠ l'.name → (l'.fill rows es).get? key = es.get? key := by
    intro es key hkey
    rw [fill, Entries.get?_put, if_neg hkey]
  obtain ⟨carried, hobjects, hkeys⟩ := Json.objectsAt_modifyAt_other hfill h.above
  refine ⟨carried, ?_, fun es => ⟨parentKey_congr (hkeys es _ h.field), hkeys es _ h.name⟩⟩
  rw [parents, loaded, List.flatMap_map, parents, List.map_flatMap]
  refine List.flatMap_congr fun r _ => ?_
  rw [← Json.modifyAt_obj, hobjects]

/-- The parents have these keys, and each holds its related records. -/
structure Settled (l : DeferredLink) (rows : List (Cell × Cell)) (keys : List Cell) (records : List Entries) :
    Prop where
  keys : (l.parents records).map l.parentKey = keys
  holds : ∀ parent ∈ l.parents records, parent.get? l.name = some (.arr (l.linked rows parent))

theorem settled_loaded (hname : l.parentField ≠ l.name) (rows : List (Cell × Cell)) (records : List Entries) :
    l.Settled rows ((l.parents records).map l.parentKey) (l.loaded rows records) := by
  have hkey : ∀ parent, l.parentKey (l.fill rows parent) = l.parentKey parent := fun parent =>
    parentKey_congr (by rw [fill, Entries.get?_put, if_neg hname])
  refine ⟨?_, fun parent hparent => ?_⟩
  · rw [DeferredLink.parents_loaded, List.map_map]
    exact List.map_congr_left fun parent _ => hkey parent
  · rw [DeferredLink.parents_loaded] at hparent
    obtain ⟨parent, -, rfl⟩ := List.mem_map.mp hparent
    rw [linked, hkey, fill, Entries.get?_put, if_pos rfl]
    rfl

theorem Apart.keys_loaded (h : l.Apart l') (rows : List (Cell × Cell)) (records : List Entries) :
    (l.parents (l'.loaded rows records)).map l.parentKey = (l.parents records).map l.parentKey := by
  obtain ⟨carried, hparents, hcarried⟩ := h.parents_loaded rows records
  rw [hparents, List.map_map]
  exact List.map_congr_left fun es _ => (hcarried es).1

theorem Settled.loaded {keys : List Cell} (h : l.Settled rows keys records) (hapart : l.Apart l')
    (rows' : List (Cell × Cell)) : l.Settled rows keys (l'.loaded rows' records) := by
  refine ⟨(hapart.keys_loaded rows' records).trans h.keys, fun parent hparent => ?_⟩
  obtain ⟨carried, hparents, hcarried⟩ := hapart.parents_loaded rows' records
  rw [hparents] at hparent
  obtain ⟨before, hbefore, rfl⟩ := List.mem_map.mp hparent
  rw [(hcarried before).2, h.holds before hbefore, linked, linked, (hcarried before).1]

end DeferredLink

/-! ### All links -/

namespace Projection
open DeferredLink (Apart Settled)

variable {σ : Type} {answer : (step : Step) → σ → step.Answer × σ} {store : LinkRows}

/-- The records with the related records of all links, loaded in their order. -/
def loadedAll (store : LinkRows) (links : List DeferredLink) (records : List Entries) : List Entries :=
  links.foldl (fun records l => l.loaded (store l) records) records

theorem loadedAll_cons (store : LinkRows) (l : DeferredLink) (rest : List DeferredLink) (records : List Entries) :
    loadedAll store (l :: rest) records = loadedAll store rest (l.loaded (store l) records) :=
  rfl

theorem loadedAll_append (store : LinkRows) (before later : List DeferredLink) (records : List Entries) :
    loadedAll store (before ++ later) records = loadedAll store later (loadedAll store before records) :=
  List.foldl_append

/-- The loading of links in their order, with the keys cut into batches in some way. -/
def loadDeferredIn (cut : List Cell → List (List Cell)) : List DeferredLink → List Entries → Operation (List Entries)
  | [], records => return records
  | l :: rest, records => do
    let records ← l.loadIn cut records
    loadDeferredIn cut rest records

theorem loadDeferredIn_chunks : ∀ (links : List DeferredLink) (records : List Entries),
    loadDeferredIn (chunks linkChunk) links records = loadDeferred links records
  | [], _ => rfl
  | l :: rest, records => by
    rw [loadDeferredIn, loadDeferred, DeferredLink.loadIn_chunks]
    exact congrArg _ (funext (loadDeferredIn_chunks rest))

/-- The queries of all links in their order, with the keys cut into batches in some way. -/
def linkSteps (store : LinkRows) (cut : List Cell → List (List Cell)) : List DeferredLink → List Entries → List Step
  | [], _ => []
  | l :: rest, records =>
    (cut (l.parentKeys (l.parents records))).map (fun keys => .query (.deferred l keys)) ++
      linkSteps store cut rest (l.loaded (store l) records)

theorem loadDeferredIn_runs (hstore : store.Answers answer) {cut : List Cell → List (List Cell)}
    (hcut : ∀ keys, (cut keys).flatten = keys) : ∀ {links : List DeferredLink} {records : List Entries}
      {events : List Event} {result : Except Error (List Entries)},
      (loadDeferredIn cut links records).Runs events result → (∀ e ∈ events, e.Follows answer) →
        result = .ok (loadedAll store links records) ∧ events.map (·.step) = linkSteps store cut links records
  | [], _, _, _, hruns, _ => by
    obtain ⟨rfl, rfl⟩ := Operation.runs_pure.mp hruns
    exact ⟨rfl, rfl⟩
  | l :: rest, records, events, result, hruns, hfollows => by
    rcases Operation.runs_bind.mp hruns with ⟨e, hfirst, -⟩ | ⟨before, now, after, hfirst, hrest, rfl⟩
    · cases (DeferredLink.loadIn_runs hstore hcut hfirst hfollows).1
    · obtain ⟨hvalue, hsteps⟩ :=
        DeferredLink.loadIn_runs hstore hcut hfirst fun e he => hfollows e (List.mem_append_left _ he)
      cases hvalue
      obtain ⟨hresult, hmore⟩ :=
        loadDeferredIn_runs hstore hcut hrest fun e he => hfollows e (List.mem_append_right _ he)
      exact ⟨hresult, by rw [List.map_append, hsteps, hmore]; rfl⟩

/-- How the records change, and what is asked for, when links are loaded in their order. -/
inductive LoadsAll (store : LinkRows) : List DeferredLink → List Entries → List Step → List Entries → Prop
  | nil (records : List Entries) : LoadsAll store [] records [] records
  | cons {l : DeferredLink} {rest : List DeferredLink} {before now after : List Entries} {steps more : List Step} :
      l.Loads (store l) before steps now → LoadsAll store rest now more after →
        LoadsAll store (l :: rest) before (steps ++ more) after

theorem loadsAll_loadedAll (store : LinkRows) : ∀ (links : List DeferredLink) (records : List Entries),
    LoadsAll store links records (linkSteps store (chunks linkChunk) links records) (loadedAll store links records)
  | [], records => .nil records
  | l :: rest, records => .cons (DeferredLink.loads_loaded l (store l) records) (loadsAll_loadedAll store rest _)

variable {l : DeferredLink} {links : List DeferredLink}

theorem keys_loadedAll : ∀ {links : List DeferredLink}, (∀ l' ∈ links, l.Apart l') → ∀ (records : List Entries),
    (l.parents (loadedAll store links records)).map l.parentKey = (l.parents records).map l.parentKey
  | [], _, _ => rfl
  | l' :: rest, h, records => by
    have hfirst := (h l' List.mem_cons_self).keys_loaded (store l') records
    exact (keys_loadedAll (fun other hother => h other (List.mem_cons_of_mem l' hother)) _).trans hfirst

theorem settled_loadedAll {keys : List Cell} : ∀ {links : List DeferredLink} {records : List Entries},
    (∀ l' ∈ links, l.Apart l') → l.Settled (store l) keys records →
      l.Settled (store l) keys (loadedAll store links records)
  | [], _, _, h => h
  | l' :: rest, records, hapart, h => by
    rw [loadedAll_cons]
    exact settled_loadedAll (fun other hother => hapart other (List.mem_cons_of_mem l' hother))
      (h.loaded (hapart l' List.mem_cons_self) (store l'))

/-- Loading all links gives the parents of each the related records of the keys that they had at first. -/
theorem settled_of_apart (hdistinct : (links.map (·.chain)).Nodup)
    (hapart : ∀ l ∈ links, l.parentField ≠ l.name ∧ ∀ l' ∈ links, l'.chain ≠ l.chain → l.Apart l') (hl : l ∈ links)
    (records : List Entries) :
    l.Settled (store l) ((l.parents records).map l.parentKey) (loadedAll store links records) := by
  obtain ⟨before, later, rfl⟩ := List.append_of_mem hl
  obtain ⟨hname, hothers⟩ := hapart l hl
  rw [List.map_append, List.map_cons, List.nodup_middle, List.nodup_cons, List.mem_append, not_or] at hdistinct
  have hbefore : ∀ l' ∈ before, l.Apart l' := fun l' hl' =>
    hothers l' (List.mem_append_left _ hl') fun heq => hdistinct.1.1 (heq ▸ List.mem_map_of_mem hl')
  have hlater : ∀ l' ∈ later, l.Apart l' := fun l' hl' =>
    hothers l' (List.mem_append_right _ (List.mem_cons_of_mem l hl')) fun heq =>
      hdistinct.1.2 (heq ▸ List.mem_map_of_mem hl')
  have hsettled := DeferredLink.settled_loaded hname (store l) (loadedAll store before records)
  rw [keys_loadedAll hbefore] at hsettled
  rw [loadedAll_append, loadedAll_cons]
  exact settled_loadedAll hlater hsettled

/-! ### Links of a projection -/

variable {s : Setting} {q : Projection}

/-- The relations on the way to records of a shape are joined. -/
theorem branch?_above {sh node : Shape} {before chain : List String} {name : String} (h : sh.at? chain = some node)
    (hway : before ++ [name] <+: chain) :
    ∃ parent b, sh.at? before = some parent ∧ parent.branch? name = some b := by
  obtain ⟨more, rfl⟩ := hway
  rw [Shape.at?_append] at h
  obtain ⟨reached, hreached, -⟩ := Option.bind_eq_some_iff.mp h
  exact Shape.branch?_of_at? hreached

theorem isJoined_above {sh node : Shape} {before chain : List String} {name : String} (h : sh.at? chain = some node)
    (hway : before ++ [name] <+: chain) : sh.isJoined before name = true := by
  obtain ⟨parent, b, hparent, hb⟩ := branch?_above h hway
  rw [Shape.isJoined, hparent, Option.bind_some, Shape.below?]
  rw [Shape.branch?] at hb
  rw [hb]
  rfl

/-- The links of a projection that joins none of them do not meet. -/
theorem Charted.apart (h : q.Charted s) (hroot : s.root ∈ s.catalog.tables)
    (hjoined : ∀ l ∈ q.deferred, q.shape.isJoined l.parentChain l.name = false) :
    ∀ l ∈ q.deferred, l.parentField ≠ l.name ∧ ∀ l' ∈ q.deferred, l'.chain ≠ l.chain → l.Apart l' := by
  -- a link is above another's parents only if it is joined
  have habove : ∀ l ∈ q.deferred, ∀ l' ∈ q.deferred, ¬l'.chain <+: l.parentChain := by
    intro l hl l' hl' hway
    obtain ⟨-, -, -, -, -, -, -, -, node, hnode, -⟩ := h.deferred l hl
    have htrue := isJoined_above hnode hway
    rw [hjoined l' hl'] at htrue
    cases htrue
  intro l hl
  obtain ⟨t, r, target, ht, hr, -, -, hlink, node, hnode, -⟩ := h.deferred l hl
  have hmem : t ∈ s.catalog.tables := Setting.mem_of_tableAt? hroot ht
  have hfield : l.parentField = r.joinKey := congrArg DeferredLink.parentField hlink
  -- the key is a column of the parents' table, which has no relation of that name
  have hcolumn : ∀ r' ∈ t.relations, r'.name ≠ l.parentField := by
    intro r' hr' heq
    have hnone := Catalog.column?_relation hmem hr'
    have hsome := Catalog.joinKey_declared hmem hr
    rw [heq, hfield] at hnone
    rw [hnone] at hsome
    cases hsome
  refine ⟨?_, fun l' hl' hne => ⟨habove l hl l' hl', fun hway => ?_, fun hway => ?_⟩⟩
  · rw [congrArg DeferredLink.name hlink]
    exact (hcolumn r hr).symm
  · rcases List.prefix_concat_iff.mp hway with heq | hway
    · exact hne heq.symm
    · exact habove l' hl' l hl hway
  · rcases List.prefix_concat_iff.mp hway with heq | hway
    · obtain ⟨t', r', target', ht', hr', -, -, hlink', -⟩ := h.deferred l' hl'
      obtain ⟨hchain, hname⟩ := List.append_inj' heq rfl
      rw [← hchain, ht] at ht'
      cases ht'
      have hname' : l'.name = r'.name := congrArg DeferredLink.name hlink'
      exact hcolumn r' hr' (hname'.symm.trans (List.singleton_inj.mp hname).symm)
    · obtain ⟨-, -, -, -, -, -, -, -, node', hnode', -⟩ := h.deferred l' hl'
      obtain ⟨parent, b, hparent, hb⟩ := branch?_above hnode' hway
      obtain ⟨t', r', ht', hr', hname⟩ := h.relations _ _ _ _ hparent hb
      rw [ht] at ht'
      cases ht'
      exact hcolumn r' hr' hname

/-- The deferred links of a field list's projection do not meet. -/
theorem ofFields_apart {catalog : Catalog} {table : String} {options : CompileOptions} {fields : List Path} {d : Draft}
    (hsetting : FindPlan.setting catalog table options = .ok s)
    (h : ofFields s fields ⟨.start options.rootAlias, []⟩ = .ok (q, d)) :
    (q.deferred.map (·.chain)).Nodup ∧
      ∀ l ∈ q.deferred, l.parentField ≠ l.name ∧ ∀ l' ∈ q.deferred, l'.chain ≠ l.chain → l.Apart l' := by
  obtain ⟨-, root, htable, rfl⟩ := FindPlan.setting_eq_ok.mp hsetting
  have hroot : root ∈ catalog.tables := Catalog.mem_of_table? htable
  have hany : ∀ field ∈ fieldPaths fields, ∀ name ∈ field.segments, True := fun _ _ _ _ => trivial
  obtain ⟨q₁, -, hbuilds, rfl⟩ := ofFields_builds hroot (JoinPlan.regular_start options.rootAlias) hany h
  have hcharted := hbuilds.charted (charted_start _ _)
  obtain ⟨hdistinct, hjoined⟩ := keepDeferred_distinct q₁.shape [] q₁.deferred List.nodup_nil fun l hl =>
    absurd hl List.not_mem_nil
  have hkept : Charted { q₁ with deferred := keepDeferred q₁.shape [] q₁.deferred } ⟨catalog, root, options⟩ :=
    ⟨hcharted.relations, fun l hl => hcharted.deferred l ((subset_keepDeferred q₁.shape [] q₁.deferred).2 hl)⟩
  exact ⟨hdistinct, hkept.apart hroot hjoined⟩

/-- Whatever the links and the records, loading succeeds with a store that answers queries for links: link by link, each
key of a parent is asked for once, in batches of at most `linkChunk`, each parent gets an object for every link row of
its own key that has a target, in the order of the store, and nothing else changes. Cut in any other way, the keys lead
to the same records. For the projection of a field list, all links hold at the end: the parents of each have the keys
that they had at first, and the related records of these. -/
theorem loadDeferred_loads (hstore : store.Answers answer) (links : List DeferredLink) (records : List Entries)
    (state : σ) : ∃ after,
      (loadDeferred links records).result answer state = .ok after ∧
      LoadsAll store links records (((loadDeferred links records).events answer state).map (·.step)) after ∧
      (∀ cut, (∀ keys, (cut keys).flatten = keys) →
        (loadDeferredIn cut links records).result answer state = .ok after) ∧
      ∀ {catalog : Catalog} {table : String} {options : CompileOptions} {s : Setting} {fields : List Path}
        {q : Projection} {d : Draft}, FindPlan.setting catalog table options = .ok s →
        ofFields s fields ⟨.start options.rootAlias, []⟩ = .ok (q, d) → links = q.deferred →
          ∀ l ∈ links, (l.parents after).map l.parentKey = (l.parents records).map l.parentKey ∧
            ∀ parent ∈ l.parents after, parent.get? l.name = some (.arr (l.linked (store l) parent)) := by
  have hloads {cut : List Cell → List (List Cell)} (hcut : ∀ keys, (cut keys).flatten = keys) :=
    loadDeferredIn_runs hstore hcut (Operation.runs_result answer (loadDeferredIn cut links records) state)
      (Operation.follows_of_mem_events answer _ state)
  obtain ⟨hresult, hsteps⟩ := hloads (flatten_chunks linkChunk)
  rw [loadDeferredIn_chunks] at hresult hsteps
  refine ⟨loadedAll store links records, hresult, ?_, fun cut hcut => (hloads hcut).1, ?_⟩
  · rw [hsteps]
    exact loadsAll_loadedAll store links records
  · intro catalog table options s fields q d hsetting hfields hlinks l hl
    subst hlinks
    obtain ⟨hdistinct, hapart⟩ := ofFields_apart hsetting hfields
    have hsettled : l.Settled (store l) ((l.parents records).map l.parentKey) (loadedAll store q.deferred records) :=
      settled_of_apart hdistinct hapart hl records
    exact ⟨hsettled.keys, hsettled.holds⟩

end Projection

/-- Two posts of one author, the first with two tags and a link row without a tag. -/
def LinkRows.blog : LinkRows := fun l =>
  match l.name with
  | "tags" => [(.int 1, .int 4), (.int 1, .null), (.int 1, .int 5), (.int 3, .int 4)]
  | "posts" => [(.int 7, .int 1), (.int 7, .int 2), (.int 8, .int 3)]
  | _ => []

/-- The records of the two posts, and one of a post without an author. -/
def blogRecords : List Entries :=
  let author : Json := .obj [("id", .int 7), ("name", .str "Ann")]
  [[("id", .int 1), ("author", author)], [("id", .int 2), ("author", author)], [("id", .int 3), ("author", .null)]]

theorem loadDeferred_loads_blog : ∃ q d after,
    Projection.ofFields .blog (Path.listOf ["*, author.*"]) ⟨.start CompileOptions.standard.rootAlias, []⟩ =
        .ok (q, d) ∧
      (q.deferred.map fun l => (l.path, (l.parents blogRecords).length)) = [("tags", 3), ("author.posts", 2)] ∧
      (Projection.loadDeferred q.deferred blogRecords).result LinkRows.blog.answer (.start .blog .standard []) =
        .ok after ∧
      ∀ l ∈ q.deferred, ∀ parent ∈ l.parents after,
        parent.get? l.name = some (.arr (l.linked (LinkRows.blog l) parent)) := by
  obtain ⟨⟨q, d⟩, h⟩ := exists_eq_ok (x := Projection.ofFields .blog (Path.listOf ["*, author.*"])
    ⟨.start CompileOptions.standard.rootAlias, []⟩) (by decide +kernel)
  have hpaths : (Projection.ofFields .blog (Path.listOf ["*, author.*"])
      ⟨.start CompileOptions.standard.rootAlias, []⟩).toOption.map (fun found =>
        found.1.deferred.map fun l => (l.path, (l.parents blogRecords).length)) =
          some [("tags", 3), ("author.posts", 2)] := by
    decide +kernel
  rw [h] at hpaths
  obtain ⟨after, hresult, -, -, hlinks⟩ := Projection.loadDeferred_loads (LinkRows.answers_answer .blog) q.deferred
    blogRecords (.start .blog .standard [])
  exact ⟨q, d, after, h, Option.some.inj hpaths, hresult, fun l hl => (hlinks FindPlan.setting_blog h rfl l hl).2⟩

end RecordService
