import RecordService.Proofs.Repository.Payloads
import RecordService.Proofs.Repository.Work

/-! # Committed mutations

A run that commits has looked the table up, has done its work between begin and commit, and then has made the scope of
the table stale and only read (`Repository.Commits`). For each mutation this says what the work was. -/

namespace RecordService

theorem Event.staleScope?_eq_none (event : Event) (h : event.step.isWork = true ∨ event.step.isRead = true) :
    event.staleScope? = none := by
  obtain ⟨step, reply⟩ := event
  cases step with
  | invalidate scope => simp [Step.isWork, Step.isRead] at h
  | _ => rfl

namespace Repository

variable (r : Repository) {β γ : Type} {catalog : Catalog} {table : Table} {events body after : List Event}

/-- The events of a run that commits: those of the work, and those after the scope has been made stale. -/
structure Commits (catalog : Catalog) (table : Table) (body after events : List Event) : Prop where
  found : catalog.table? r.table = some table
  split : events = ⟨.catalog, catalog⟩ :: ⟨.begin, .ok ()⟩ :: body ++ ⟨.commit, .ok ()⟩ :: r.staleness table ++ after
  works : ∀ event ∈ body, event.step.isWork
  reads : ∀ event ∈ after, event.step.isRead

variable {r}

theorem Mutates.commits {prepare : Preparation β} {reread : Table → β → Operation γ} {result : Except Error γ}
    (h : r.Mutates prepare reread events result) (hcommit : ⟨.commit, .ok ()⟩ ∈ events) :
    ∃ catalog table work body value after, r.Commits catalog table body after events ∧
      prepare catalog table = .ok work ∧ work.Runs body (.ok value) ∧ (reread table value).Runs after result := by
  cases h with
  | refused catalog e =>
    rcases List.mem_cons.mp hcommit with habsurd | habsurd
    · cases habsurd
    · cases habsurd
  | unopened =>
    simp only [List.mem_cons, List.not_mem_nil, or_false] at hcommit
    rcases hcommit with habsurd | habsurd
    · cases habsurd
    · cases habsurd
  | rolledBack _ _ _ hworks | uncommitted _ _ _ _ hworks =>
    simp only [List.cons_append, List.mem_cons, List.mem_append, List.not_mem_nil, or_false] at hcommit
    rcases hcommit with habsurd | habsurd | hbody | habsurd
    · cases habsurd
    · cases habsurd
    · cases hworks _ hbody
    · cases habsurd
  | @committed catalog table work body value after result htable hprepare hwork hworks hreread hreads =>
    exact ⟨catalog, table, work, body, value, after, ⟨htable, rfl, hworks, hreads⟩, hprepare, hwork, hreread⟩

namespace Commits

variable (h : r.Commits catalog table body after events)
include h

theorem mem_catalog : ⟨.catalog, catalog⟩ ∈ events := by
  rw [h.split]
  exact List.mem_cons_self

theorem mem_of_mem_body {event : Event} (hevent : event ∈ body) : event ∈ events := by
  rw [h.split]
  simp [hevent]

theorem mem_filterMap {δ : Type} {f : Event → Option δ} {x : δ} (hx : x ∈ body.filterMap f) :
    x ∈ events.filterMap f := by
  obtain ⟨event, hevent, hf⟩ := List.mem_filterMap.mp hx
  exact List.mem_filterMap.mpr ⟨event, h.mem_of_mem_body hevent, hf⟩

theorem mem_of_mem_after {event : Event} (hevent : event ∈ after) : event ∈ events := by
  rw [h.split]
  simp [hevent]

/-- All changes are made by the work. -/
theorem mem_change {c : Change} {reply : Except Error Outcome} :
    (⟨.change c, reply⟩ : Event) ∈ events ↔ ⟨.change c, reply⟩ ∈ body := by
  constructor
  · rw [h.split]
    simp only [List.cons_append, List.append_assoc, List.mem_cons, List.mem_append]
    rintro (habsurd | habsurd | hbody | habsurd | hstale | hafter)
    · cases habsurd
    · cases habsurd
    · exact hbody
    · cases habsurd
    · obtain ⟨_, -, habsurd⟩ := List.mem_map.mp hstale
      cases habsurd
    · cases h.reads _ hafter
  · exact h.mem_of_mem_body

theorem filterMap_change? : events.filterMap Event.change? = body.filterMap Event.change? := by
  have hstale : (r.staleness table).filterMap Event.change? = [] := by
    refine List.filterMap_eq_nil_iff.mpr fun event hevent => ?_
    obtain ⟨_, -, rfl⟩ := List.mem_map.mp hevent
    rfl
  have hreads : after.filterMap Event.change? = [] := by
    refine List.filterMap_eq_nil_iff.mpr fun ⟨step, _⟩ hevent => ?_
    have hread := h.reads _ hevent
    cases step with
    | change => cases hread
    | _ => rfl
  rw [h.split]
  simp only [List.cons_append, List.append_assoc, List.filterMap_cons, List.filterMap_append, hstale, hreads,
    Event.change?, List.append_nil]

/-- Nothing is made stale but the scope of the table, and that once. -/
theorem stale : events.filterMap Event.staleScope? = if r.cached then table.cacheScope.toList else [] := by
  have hworks : body.filterMap Event.staleScope? = [] :=
    List.filterMap_eq_nil_iff.mpr fun event hevent => event.staleScope?_eq_none (Or.inl (h.works event hevent))
  have hreads : after.filterMap Event.staleScope? = [] :=
    List.filterMap_eq_nil_iff.mpr fun event hevent => event.staleScope?_eq_none (Or.inr (h.reads event hevent))
  have hscopes (scopes : List String) :
      (scopes.map fun scope => (⟨.invalidate scope, ()⟩ : Event)).filterMap Event.staleScope? = scopes := by
    rw [List.filterMap_map]
    exact List.filterMap_some
  rw [h.split]
  simp only [List.cons_append, List.append_assoc, List.filterMap_cons, List.filterMap_append, hworks, hreads,
    staleness, hscopes, Event.staleScope?, List.nil_append, List.append_nil]

end Commits

/-- Whether it commits or not, a mutation changes nothing but by its work. -/
theorem Mutates.work_of_change {prepare : Preparation β} {reread : Table → β → Operation γ} {result : Except Error γ}
    (h : r.Mutates prepare reread events result) {c : Change} {reply : Except Error Outcome}
    (hchange : ⟨.change c, reply⟩ ∈ events) :
    ∃ catalog table work body outcome, ⟨.catalog, catalog⟩ ∈ events ∧ catalog.table? r.table = some table ∧
      prepare catalog table = .ok work ∧ work.Runs body outcome ∧ ⟨.change c, reply⟩ ∈ body := by
  cases h with
  | refused catalog e => cases List.mem_singleton.mp hchange
  | unopened =>
    simp only [List.mem_cons, List.not_mem_nil, or_false] at hchange
    rcases hchange with habsurd | habsurd
    · cases habsurd
    · cases habsurd
  | rolledBack htable hprepare hwork _ | uncommitted _ htable hprepare hwork _ =>
    refine ⟨_, _, _, _, _, List.mem_cons_self, htable, hprepare, hwork, ?_⟩
    simp only [List.cons_append, List.mem_cons, List.mem_append, List.not_mem_nil, or_false] at hchange
    rcases hchange with habsurd | habsurd | hbody | habsurd
    · cases habsurd
    · cases habsurd
    · exact hbody
    · cases habsurd
  | committed htable hprepare hwork hworks _ hreads =>
    have hcommits : r.Commits _ _ _ _ _ := ⟨htable, rfl, hworks, hreads⟩
    exact ⟨_, _, _, _, _, hcommits.mem_catalog, htable, hprepare, hwork, hcommits.mem_change.mp hchange⟩

/-! ### Mutations of records -/

section Runs

variable (r) {payload id : Json}

theorem mutates_of_create {result : Except Error Json} (h : (r.create payload).Runs events result) :
    r.Mutates (r.insertion payload) r.rereadNew events result := by
  rw [r.create_mutates payload] at h
  exact r.mutates_of_runs (r.insertion_works payload) (fun _ _ => r.reread_reads ..) h

theorem mutates_of_update {result : Except Error Json} (h : (r.update id payload).Runs events result) :
    r.Mutates (r.amendment id payload) (r.rereadOld id) events result := by
  rw [r.update_mutates id payload] at h
  exact r.mutates_of_runs (r.amendment_works id payload) (fun _ _ => r.reread_reads ..) h

theorem mutates_of_delete {result : Except Error Unit} (h : (r.delete id).Runs events result) :
    r.Mutates (removal id) (fun _ _ => pure ()) events result := by
  rw [r.delete_mutates id] at h
  exact r.mutates_of_runs (removal_works id) (fun _ _ => .pure ()) h

end Runs

/-! ### The work that is committed -/

variable {payload id : Json} {result : Except Error Json}

theorem create_commits (h : (r.create payload).Runs events result) (hcommit : ⟨.commit, .ok ()⟩ ∈ events) :
    ∃ catalog table changes key body after, r.Commits catalog table body after events ∧
      Changes.ofPayload catalog table r.options.pathPolicy true payload = .ok changes ∧
      Inserts table changes key body ∧ (r.rereadNew table key).Runs after result := by
  obtain ⟨catalog, table, work, body, key, after, hcommits, hprepare, hwork, hreread⟩ :=
    (r.mutates_of_create h).commits hcommit
  obtain ⟨changes, hchanges, rfl⟩ := r.insertion_eq_ok hprepare
  exact ⟨catalog, table, changes, key, body, after, hcommits, hchanges, insert_runs_ok hwork, hreread⟩

theorem update_commits (h : (r.update id payload).Runs events result) (hcommit : ⟨.commit, .ok ()⟩ ∈ events) :
    ∃ catalog table changes row body after, r.Commits catalog table body after events ∧
      Changes.ofPayload catalog table r.options.pathPolicy false payload = .ok changes ∧
      Amends table changes (Cell.coerce id table.primaryType) row body ∧
      (r.rereadOld id table ()).Runs after result := by
  obtain ⟨catalog, table, work, body, _, after, hcommits, hprepare, hwork, hreread⟩ :=
    (r.mutates_of_update h).commits hcommit
  obtain ⟨changes, hchanges, rfl⟩ := r.amendment_eq_ok hprepare
  obtain ⟨row, hamends⟩ := amend_runs_ok hwork
  exact ⟨catalog, table, changes, row, body, after, hcommits, hchanges, hamends, hreread⟩

theorem delete_commits {result : Except Error Unit} (h : (r.delete id).Runs events result)
    (hcommit : ⟨.commit, .ok ()⟩ ∈ events) :
    ∃ catalog table row body after, r.Commits catalog table body after events ∧
      Removes table (Cell.coerce id table.primaryType) row body := by
  obtain ⟨catalog, table, work, body, _, after, hcommits, hprepare, hwork, -⟩ :=
    (r.mutates_of_delete h).commits hcommit
  obtain rfl := Except.ok.inj hprepare
  obtain ⟨row, hremoves⟩ := remove_runs_ok hwork
  exact ⟨catalog, table, row, body, after, hcommits, hremoves⟩

end Repository
end RecordService
