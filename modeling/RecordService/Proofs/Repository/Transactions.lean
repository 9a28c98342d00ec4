import RecordService.Proofs.Request.Leaves
import RecordService.Proofs.Store.Events
import RecordService.Repository.Basic

/-! # Mutations are transactions

Creating, changing and deleting a record have one form (`Repository.mutate`): the table is looked up, the request is
checked without the store, the work is done in one transaction, the scope of the table is made stale, and the record is
read again. So whatever the store answers, all that is written is written between one begin and its commit or rollback
(`Repository.Mutates`), and finds write nothing. A begin or a commit may fail as well. -/

namespace RecordService

namespace Step

/-- What may be asked of the store in a transaction. -/
def isWork : Step → Bool
  | query _ | change _ => true
  | catalog | begin | commit | rollback | invalidate _ | ended _ => false

/-- What a plan may ask for. -/
def isFetch : Step → Bool
  | query _ | ended _ => true
  | catalog | change _ | begin | commit | rollback | invalidate _ => false

/-- What changes neither the store nor the cache. -/
def isRead : Step → Bool
  | query _ | catalog | ended _ => true
  | change _ | begin | commit | rollback | invalidate _ => false

theorem isRead_of_isFetch {step : Step} (h : step.isFetch) : step.isRead := by
  cases step with
  | query | ended => rfl
  | catalog | change | begin | commit | rollback | invalidate => cases h

end Step

open Operation (OnlyAsks)

/-! ### The work of a transaction

What may be asked is any query, and the changes that are said to be allowed. -/

section Work

variable {P : Step → Prop} (hquery : ∀ q, P (.query q))
include hquery

theorem Table.checkLinks_asks (t : Table) (column relation : String) (action : LinkAction) (ids : List Cell) :
    (t.checkLinks column relation action ids).OnlyAsks P := by
  unfold checkLinks
  split
  · exact .pure _
  · split
    · exact .pure _
    · refine .bind (.query (hquery _)) fun rows => ?_
      split
      · exact .pure _
      · exact .throw _

omit hquery in
theorem LinkSet.perform_asks : ∀ {changes : List Change}, (∀ c ∈ changes, P (.change c)) → (perform changes).OnlyAsks P
  | [], _ => .pure _
  | _ :: _, h =>
    .bind (.change (h _ List.mem_cons_self)) fun _ => perform_asks fun c hc => h c (List.mem_cons_of_mem _ hc)

theorem LinkSet.apply_asks {l : LinkSet} (owner : Table) (row : Row)
    (hchange : ∀ parent detached attached, ∀ c ∈ l.changes parent detached attached, P (.change c)) :
    (l.apply owner row).OnlyAsks P := by
  have checks (detached attached : List Cell) : OnlyAsks (do
      l.target.checkLinks l.checkedColumn l.relation.name .detach detached
      l.target.checkLinks l.checkedColumn l.relation.name .attach attached
      perform (l.changes (row.cell l.relation.joinKey) detached attached)) P :=
    .bind (Table.checkLinks_asks hquery ..) fun _ => .bind (Table.checkLinks_asks hquery ..) fun _ =>
      perform_asks (hchange _ detached attached)
  have compared : OnlyAsks (do
      let current ← l.current (row.cell l.relation.joinKey)
      let attached := Cell.without l.ids current
      let detached := Cell.without current l.ids
      if attached.isEmpty && detached.isEmpty then return ()
      if owner.isSystem row && !owner.isExempt l.relation.name then
        throw (.protection (.field owner.name (row.cell owner.primaryKey).keyText l.relation.name))
      l.target.checkLinks l.checkedColumn l.relation.name .detach detached
      l.target.checkLinks l.checkedColumn l.relation.name .attach attached
      perform (l.changes (row.cell l.relation.joinKey) detached attached)) P :=
    .bind (.bind (.query (hquery _)) fun _ => .pure _) fun current =>
      .ite (.pure _) (.ite (.bind (.throw _) fun _ => checks _ _) (checks _ _))
  exact .ite (.bind (.throw _) fun _ => compared) compared

theorem LinkSet.applyAll_asks (owner : Table) (row : Row) : ∀ {links : List LinkSet},
    (∀ l ∈ links, ∀ parent detached attached, ∀ c ∈ l.changes parent detached attached, P (.change c)) →
    (applyAll owner row links).OnlyAsks P
  | [], _ => .pure _
  | _ :: _, h =>
    .bind (apply_asks hquery owner row (h _ List.mem_cons_self)) fun _ =>
      applyAll_asks owner row fun l hl => h l (List.mem_cons_of_mem _ hl)

namespace Repository

theorem loadRow_asks (table : Table) (key : Cell) : (loadRow table key).OnlyAsks P := by
  refine .bind (.bind (.query (hquery _)) fun _ => .pure _) fun row => ?_
  cases row with
  | some row => exact .pure _
  | none => exact .throw _

theorem checkAttached_asks : ∀ keys : List ForeignKey, (checkAttached keys).OnlyAsks P
  | [] => .pure _
  | _ :: rest => .bind (Table.checkLinks_asks hquery ..) fun _ => checkAttached_asks rest

theorem checkReplaced_asks (stored : Row) : ∀ keys : List ForeignKey, (checkReplaced stored keys).OnlyAsks P
  | [] => .pure _
  | _ :: rest =>
    .ite (.bind (Table.checkLinks_asks hquery ..) fun _ => .bind (Table.checkLinks_asks hquery ..) fun _ =>
      checkReplaced_asks stored rest) (checkReplaced_asks stored rest)

omit hquery in
theorem newKey_asks (table : Table) (row : Row) (outcome : Outcome) : (newKey table row outcome).OnlyAsks P := by
  unfold newKey
  split
  · exact .pure _
  · exact .pure _
  · exact .throw _

theorem insert_asks {table : Table} {changes : Changes}
    (hinsert : P (.change (.insert table.name changes.assignments)))
    (hlinks : ∀ l ∈ changes.links, ∀ parent detached attached, ∀ c ∈ l.changes parent detached attached,
      P (.change c)) : (insert table changes).OnlyAsks P :=
  .bind (checkAttached_asks hquery _) fun _ => .bind (.change hinsert) fun _ => .bind (newKey_asks ..) fun _ =>
    .ite (.bind (loadRow_asks hquery ..) fun _ => .bind (LinkSet.applyAll_asks hquery _ _ hlinks) fun _ => .pure _)
      (.pure _)

theorem amend_asks {table : Table} {changes : Changes} {key : Cell}
    (hupdate : changes.assignments ≠ [] →
      P (.change (.update table.name changes.assignments table.primaryKey key)))
    (hlinks : ∀ l ∈ changes.links, ∀ parent detached attached, ∀ c ∈ l.changes parent detached attached,
      P (.change c)) : (amend table changes key).OnlyAsks P := by
  have writes : OnlyAsks (do
      if !changes.assignments.isEmpty then
        let _ ← Operation.change (.update table.name changes.assignments table.primaryKey key)) P := by
    split
    case isTrue hsome => exact .bind (.change (hupdate (by simpa using hsome))) fun _ => .pure _
    case isFalse => exact .pure _
  exact .bind (loadRow_asks hquery ..) fun _ => .bind (.ofExcept _) fun _ => .bind (checkReplaced_asks hquery ..) fun _ =>
    .bind (LinkSet.applyAll_asks hquery _ _ hlinks) fun _ => writes

end Repository

end Work

namespace Repository

theorem insert_works (table : Table) (changes : Changes) : (insert table changes).OnlyAsks (·.isWork) :=
  insert_asks (fun _ => rfl) rfl fun _ _ _ _ _ _ _ => rfl

theorem amend_works (table : Table) (changes : Changes) (key : Cell) :
    (amend table changes key).OnlyAsks (·.isWork) :=
  amend_asks (fun _ => rfl) (fun _ => rfl) fun _ _ _ _ _ _ _ => rfl

theorem deleteLinks_asks {P : Step → Prop} (hchange : ∀ c, P (.change c)) (stored : Row) :
    ∀ relations : List Relation, (deleteLinks stored relations).OnlyAsks P
  | [] => .pure _
  | r :: rest => by
    have later := deleteLinks_asks hchange stored rest
    rw [deleteLinks]
    cases r.junction with
    | some j => exact .bind (.change (hchange _)) fun _ => later
    | none => exact later

theorem remove_works (table : Table) (key : Cell) : (remove table key).OnlyAsks (·.isWork) := by
  have deletes (stored : Row) : OnlyAsks (do
      deleteLinks stored table.relations
      let _ ← Operation.change (.delete table.name table.primaryKey key)) (·.isWork) :=
    .bind (deleteLinks_asks (fun _ => rfl) ..) fun _ => .bind (.change rfl) fun _ => .pure _
  exact .bind (loadRow_asks (fun _ => rfl) ..) fun stored =>
    .ite (.bind (.throw _) fun _ => deletes stored) (deletes stored)

end Repository

/-! ### Finds -/

namespace FindPlan

section
variable {P : Step → Prop}

theorem runCount_asks (hcount : ∀ q, P (.query (.count q))) (q : Option CountQuery) : (runCount q).OnlyAsks P := by
  cases q with
  | none => exact .pure _
  | some q => exact .bind (.query (hcount q)) fun _ => .pure _

theorem runAggregates_asks (haggregate : ∀ q, P (.query (.aggregate q))) (q : Option AggregateQuery) :
    (runAggregates q).OnlyAsks P := by
  cases q with
  | none => exact .pure _
  | some q => exact .bind (.query (haggregate q)) fun _ => .pure _

theorem loadAll_asks (hlink : ∀ l keys, P (.query (.deferred l keys))) (l : DeferredLink) :
    ∀ parts : List (List Cell), (l.loadAll parts).OnlyAsks P
  | [] => .pure _
  | _ :: rest => .bind (.query (hlink _ _)) fun _ => .bind (loadAll_asks hlink l rest) fun _ => .pure _

theorem loadDeferred_asks (hlink : ∀ l keys, P (.query (.deferred l keys))) :
    ∀ (links : List DeferredLink) (records : List Entries), (Projection.loadDeferred links records).OnlyAsks P
  | [], _ => .pure _
  | l :: rest, _ => .bind (.bind (loadAll_asks hlink l _) fun _ => .pure _) fun _ => loadDeferred_asks hlink rest _

/-- A find asks for its rows, links, counts and aggregates, and notes its phases. -/
theorem run_asks (p : FindPlan) (hrows : P (.query (.rows p.data))) (hlink : ∀ l keys, P (.query (.deferred l keys)))
    (hcount : ∀ q, P (.query (.count q))) (haggregate : ∀ q, P (.query (.aggregate q)))
    (hended : ∀ phase, P (.ended phase)) : p.run.OnlyAsks P :=
  .bind (.query hrows) fun _ => .bind (.ask (hended _)) fun _ => .bind (loadDeferred_asks hlink _ _) fun _ =>
    .bind (.ask (hended _)) fun _ => .bind (runCount_asks hcount _) fun _ => .bind (runCount_asks hcount _) fun _ =>
      .bind (runAggregates_asks haggregate _) fun _ => .ite (.bind (.ask (hended _)) fun _ => .pure _) (.pure _)

end

theorem run_fetches (p : FindPlan) : p.run.OnlyAsks (·.isFetch) :=
  p.run_asks rfl (fun _ _ => rfl) (fun _ => rfl) (fun _ => rfl) fun _ => rfl

theorem run_reads (p : FindPlan) : p.run.OnlyAsks (·.isRead) :=
  p.run_fetches.mono fun _ => Step.isRead_of_isFetch

end FindPlan

namespace Repository

variable (r : Repository)

theorem lookUp_reads : r.lookUp.OnlyAsks (·.isRead) := by
  refine .bind (.ask rfl) fun catalog => ?_
  split
  · exact .pure _
  · exact .throw _

theorem findOne_reads (id : Json) : (r.findOne id).OnlyAsks (·.isRead) :=
  .bind r.lookUp_reads fun _ => .bind (.ofExcept _) fun plan => .bind plan.run_reads fun _ => .pure _

/-! ### The form of a mutation -/

variable {β γ σ : Type}

/-- What a mutation checks and prepares without the store: the work of its transaction. -/
abbrev Preparation (β : Type) := Catalog → Table → Except Error (Operation β)

/-- A mutation of prepared work, followed by a read. -/
def mutate (prepare : Preparation β) (reread : Table → β → Operation γ) : Operation γ := do
  let (catalog, table) ← r.lookUp
  let work ← Operation.ofExcept (prepare catalog table)
  let value ← Operation.transaction work
  r.invalidate table
  reread table value

/-- The insertion of a record from a payload, with its key given or made up by the store. -/
def insertion (payload : Json) : Preparation Cell := fun catalog table => do
  let changes ← Changes.ofPayload catalog table r.options.pathPolicy true payload
  table.checkCreate changes.columns
  if (givenKey? table changes.columns).isNone && table.primaryType != .int then
    throw (.argument (.keyNeeded table.name table.primaryKey))
  return insert table changes

/-- The changes of a record from a payload. -/
def amendment (id payload : Json) : Preparation Unit := fun catalog table => do
  let changes ← Changes.ofPayload catalog table r.options.pathPolicy false payload
  return amend table changes (Cell.coerce id table.primaryType)

/-- The removal of a record. -/
def removal (id : Json) : Preparation Unit := fun _ table =>
  return remove table (Cell.coerce id table.primaryType)

/-- Reads the record with an id, which has to be there. -/
def reread (table : Table) (id : Json) (text : String) : Operation Json := do
  match ← r.findOne id with
  | some record => return record
  | none => throw (.notFound table.name text)

/-- Reads a record back that was inserted with a key. -/
def rereadNew (table : Table) (key : Cell) : Operation Json :=
  let id := key.toJson (some table.primaryType)
  r.reread table id id.compact

/-- Reads a record back that was changed. -/
def rereadOld (id : Json) (table : Table) (_ : Unit) : Operation Json :=
  r.reread table id (Cell.coerce id table.primaryType).keyText

theorem create_mutates (payload : Json) :
    r.create payload = r.mutate (r.insertion payload) r.rereadNew := by
  unfold create mutate insertion
  refine congrArg (r.lookUp >>= ·) (funext fun (catalog, table) => ?_)
  dsimp only
  cases Changes.ofPayload catalog table r.options.pathPolicy true payload with
  | error e => rfl
  | ok changes =>
    have passed (f : Changes → Except Error (Operation Cell)) : (Except.ok changes >>= f) = f changes := rfl
    simp only [Operation.ofExcept_bind, passed]
    cases table.checkCreate changes.columns with
    | error e => rfl
    | ok _ =>
      cases (givenKey? table changes.columns).isNone && table.primaryType != .int with
      | true => rfl
      | false => rfl

theorem update_mutates (id payload : Json) :
    r.update id payload = r.mutate (r.amendment id payload) (r.rereadOld id) := by
  refine congrArg (r.lookUp >>= ·) (funext fun (catalog, table) => ?_)
  dsimp only [amendment]
  cases Changes.ofPayload catalog table r.options.pathPolicy false payload with
  | error e => rfl
  | ok changes => rfl

theorem delete_mutates (id : Json) : r.delete id = r.mutate (removal id) fun _ _ => pure () := by
  refine congrArg (r.lookUp >>= ·) (funext fun (_, table) => ?_)
  refine congrArg ((remove table (Cell.coerce id table.primaryType)).transaction >>= ·) (funext fun _ => ?_)
  unfold invalidate
  split
  · rfl
  · rfl

theorem insertion_eq_ok {payload : Json} {catalog : Catalog} {table : Table} {work : Operation Cell}
    (h : r.insertion payload catalog table = .ok work) :
    ∃ changes, Changes.ofPayload catalog table r.options.pathPolicy true payload = .ok changes ∧
      work = insert table changes := by
  obtain ⟨changes, hchanges, h⟩ := bind_eq_ok.mp h
  obtain ⟨_, -, h⟩ := bind_eq_ok.mp h
  split at h
  · cases h
  · exact ⟨changes, hchanges, (Except.ok.inj h).symm⟩

theorem amendment_eq_ok {id payload : Json} {catalog : Catalog} {table : Table} {work : Operation Unit}
    (h : r.amendment id payload catalog table = .ok work) :
    ∃ changes, Changes.ofPayload catalog table r.options.pathPolicy false payload = .ok changes ∧
      work = amend table changes (Cell.coerce id table.primaryType) := by
  obtain ⟨changes, hchanges, h⟩ := bind_eq_ok.mp h
  exact ⟨changes, hchanges, (Except.ok.inj h).symm⟩

theorem insertion_works (payload : Json) (catalog : Catalog) (table : Table) (work : Operation Cell)
    (h : r.insertion payload catalog table = .ok work) : work.OnlyAsks (·.isWork) := by
  obtain ⟨changes, -, rfl⟩ := r.insertion_eq_ok h
  exact insert_works table changes

theorem amendment_works (id payload : Json) (catalog : Catalog) (table : Table) (work : Operation Unit)
    (h : r.amendment id payload catalog table = .ok work) : work.OnlyAsks (·.isWork) := by
  obtain ⟨changes, -, rfl⟩ := r.amendment_eq_ok h
  exact amend_works ..

theorem removal_works (id : Json) (catalog : Catalog) (table : Table) (work : Operation Unit)
    (h : removal id catalog table = .ok work) : work.OnlyAsks (·.isWork) := by
  obtain rfl := Except.ok.inj h
  exact remove_works _ _

theorem reread_reads (table : Table) (id : Json) (text : String) : (r.reread table id text).OnlyAsks (·.isRead) := by
  refine .bind (r.findOne_reads id) fun record => ?_
  cases record with
  | some record => exact .pure _
  | none => exact .throw _

/-! ### What mutations do -/

/-- The events that make the scope of a table stale: one, if there are a cache and a scope. -/
def staleness (table : Table) : List Event :=
  (if r.cached then table.cacheScope.toList else []).map fun scope => ⟨.invalidate scope, ()⟩

/-- What a mutation of prepared work may go through, and to which result. -/
inductive Mutates (prepare : Preparation β) (reread : Table → β → Operation γ) :
    List Event → Except Error γ → Prop
  /-- Nothing is asked of the store. -/
  | refused (catalog : Catalog) (e : Error) :
      (catalog.table? r.table = none ∧ e = .compile (.unknownTable r.table) ∨
        ∃ table, catalog.table? r.table = some table ∧ prepare catalog table = .error e) →
      Mutates prepare reread [⟨.catalog, catalog⟩] (.error e)
  /-- No transaction can be begun, and nothing else is asked. -/
  | unopened {catalog : Catalog} {table : Table} {work : Operation β} (e : Error) :
      catalog.table? r.table = some table → prepare catalog table = .ok work →
      Mutates prepare reread [⟨.catalog, catalog⟩, ⟨.begin, .error e⟩] (.error e)
  /-- The work fails, which is the failure of the whole. -/
  | rolledBack {catalog : Catalog} {table : Table} {work : Operation β} {body : List Event} {e : Error} :
      catalog.table? r.table = some table → prepare catalog table = .ok work →
      work.Runs body (.error e) → (∀ event ∈ body, event.step.isWork) →
      Mutates prepare reread (⟨.catalog, catalog⟩ :: ⟨.begin, .ok ()⟩ :: body ++ [⟨.rollback, ()⟩]) (.error e)
  /-- The work is done and cannot be committed, and nothing else is asked. -/
  | uncommitted {catalog : Catalog} {table : Table} {work : Operation β} {body : List Event} {value : β} (e : Error) :
      catalog.table? r.table = some table → prepare catalog table = .ok work →
      work.Runs body (.ok value) → (∀ event ∈ body, event.step.isWork) →
      Mutates prepare reread (⟨.catalog, catalog⟩ :: ⟨.begin, .ok ()⟩ :: body ++ [⟨.commit, .error e⟩]) (.error e)
  /-- The work is done and the scope is made stale, whether the record can then be read or not. -/
  | committed {catalog : Catalog} {table : Table} {work : Operation β} {body : List Event} {value : β}
      {after : List Event} {result : Except Error γ} :
      catalog.table? r.table = some table → prepare catalog table = .ok work →
      work.Runs body (.ok value) → (∀ event ∈ body, event.step.isWork) →
      (reread table value).Runs after result → (∀ event ∈ after, event.step.isRead) →
      Mutates prepare reread
        (⟨.catalog, catalog⟩ :: ⟨.begin, .ok ()⟩ :: body ++ ⟨.commit, .ok ()⟩ :: r.staleness table ++ after) result

theorem lookUp_runs {events : List Event} {result : Except Error (Catalog × Table)} (h : r.lookUp.Runs events result) :
    ∃ catalog : Catalog, events = [⟨.catalog, catalog⟩] ∧
      (catalog.table? r.table = none ∧ result = .error (.compile (.unknownTable r.table)) ∨
        ∃ table, catalog.table? r.table = some table ∧ result = .ok (catalog, table)) := by
  obtain ⟨_, hask, -⟩ | ⟨_, catalog, _, hask, hfound, rfl⟩ := Operation.runs_bind.mp h
  · obtain ⟨_, -, habsurd⟩ := Operation.runs_ask.mp hask
    cases habsurd
  · obtain ⟨_, rfl, hanswer⟩ := Operation.runs_ask.mp hask
    obtain rfl := Except.ok.inj hanswer
    refine ⟨catalog, ?_⟩
    cases htable : catalog.table? r.table with
    | none =>
      rw [htable] at hfound
      obtain ⟨rfl, rfl⟩ := Operation.runs_throw.mp hfound
      exact ⟨rfl, Or.inl ⟨rfl, rfl⟩⟩
    | some table =>
      rw [htable] at hfound
      obtain ⟨rfl, rfl⟩ := Operation.runs_pure.mp hfound
      exact ⟨rfl, Or.inr ⟨table, rfl, rfl⟩⟩

theorem invalidate_runs {table : Table} {events : List Event} {result : Except Error Unit}
    (h : (r.invalidate table).Runs events result) : events = r.staleness table ∧ result = .ok () := by
  unfold invalidate at h
  unfold staleness
  cases hcached : r.cached <;> cases hscope : table.cacheScope <;> rw [hcached, hscope] at h
  case true.some scope =>
    obtain ⟨_, rfl, rfl⟩ := Operation.runs_ask.mp h
    exact ⟨rfl, rfl⟩
  all_goals exact Operation.runs_pure.mp h

theorem mutates_of_runs {prepare : Preparation β} {reread : Table → β → Operation γ} {events : List Event}
    {result : Except Error γ}
    (hworks : ∀ catalog table work, prepare catalog table = .ok work → work.OnlyAsks (·.isWork))
    (hreads : ∀ table value, (reread table value).OnlyAsks (·.isRead))
    (h : (r.mutate prepare reread).Runs events result) : r.Mutates prepare reread events result := by
  -- a mutation ends at the look-up, at the preparation, in the transaction, or after it
  obtain ⟨e, hlook, rfl⟩ | ⟨_, ⟨catalog, table⟩, rest, hlook, hgoes, rfl⟩ := Operation.runs_bind.mp h
  · obtain ⟨catalog, rfl, ⟨hnone, he⟩ | ⟨table, -, habsurd⟩⟩ := r.lookUp_runs hlook
    · exact .refused catalog e (Or.inl ⟨hnone, Except.error.inj he⟩)
    · cases habsurd
  obtain ⟨_, rfl, ⟨-, habsurd⟩ | ⟨_, htable, hfound⟩⟩ := r.lookUp_runs hlook
  · cases habsurd
  obtain ⟨rfl, rfl⟩ := Prod.mk.inj (Except.ok.inj hfound)
  dsimp only at hgoes
  rw [Operation.ofExcept_bind] at hgoes
  cases hwork : prepare catalog table with
  | error e =>
    rw [hwork] at hgoes
    obtain ⟨rfl, rfl⟩ := Operation.runs_throw.mp hgoes
    exact .refused catalog e (Or.inr ⟨table, htable, hwork⟩)
  | ok work =>
    rw [hwork] at hgoes
    have hasks := (hworks catalog table work hwork).steps
    obtain ⟨_, htransaction, rfl⟩ | ⟨_, value, _, htransaction, hend, rfl⟩ := Operation.runs_bind.mp hgoes
    · cases Operation.transacts_of_runs htransaction with
      | unopened => exact .unopened _ htable hwork
      | rolledBack hbody => exact .rolledBack htable hwork hbody (hasks _ _ hbody)
      | uncommitted _ hbody => exact .uncommitted _ htable hwork hbody (hasks _ _ hbody)
    · cases Operation.transacts_of_runs htransaction with
      | committed hbody =>
        obtain ⟨_, hinvalidate, -⟩ | ⟨_, _, after, hinvalidate, hafter, rfl⟩ := Operation.runs_bind.mp hend
        · cases (r.invalidate_runs hinvalidate).2
        · obtain ⟨rfl, -⟩ := r.invalidate_runs hinvalidate
          have hreread := (hreads table value).steps _ _ hafter
          simpa using Mutates.committed htable hwork hbody (hasks _ _ hbody) hafter hreread

end Repository
end RecordService
