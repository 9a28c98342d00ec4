import RecordService.Proofs.Store.Events
import RecordService.Record.Find

/-! # Runs of finds

A find asks for its rows, for the links of its records, for its counts and for its aggregates, in this order
(`FindPlan.run_eq_ok`), and fails only where the store does (`FindPlan.run_relays`). -/

namespace RecordService
namespace FindPlan

variable {p : FindPlan} {events : List Event} {result : FindResult}

open Operation (Relays)

theorem runCount_relays (q : Option CountQuery) : (runCount q).Relays := by
  cases q with
  | none => exact .pure _
  | some q => exact .bind (.query _) fun _ => .pure _

theorem runAggregates_relays (q : Option AggregateQuery) : (runAggregates q).Relays := by
  cases q with
  | none => exact .pure _
  | some q => exact .bind (.query _) fun _ => .pure _

theorem loadAll_relays (l : DeferredLink) : ∀ parts : List (List Cell), (l.loadAll parts).Relays
  | [] => .pure _
  | _ :: rest => .bind (.query _) fun _ => .bind (loadAll_relays l rest) fun _ => .pure _

theorem loadDeferred_relays : ∀ (links : List DeferredLink) (records : List Entries),
    (Projection.loadDeferred links records).Relays
  | [], _ => .pure _
  | l :: rest, _ => .bind (.bind (loadAll_relays l _) fun _ => .pure _) fun _ => loadDeferred_relays rest _

/-- Once a plan is compiled, its run fails only where the store does. -/
theorem run_relays (p : FindPlan) : p.run.Relays :=
  .bind (.query _) fun _ => .bind (.ask _) fun _ => .bind (loadDeferred_relays _ _) fun _ =>
    .bind (.ask _) fun _ => .bind (runCount_relays _) fun _ => .bind (runCount_relays _) fun _ =>
      .bind (runAggregates_relays _) fun _ => .ite (.bind (.ask _) fun _ => .pure _) (.pure _)

theorem run_succeeds {outcome : Except Error FindResult} (h : p.run.Runs events outcome)
    (hstore : ∀ q e, ⟨.query q, .error e⟩ ∉ events) : ∃ result, outcome = .ok result := by
  cases outcome with
  | ok result => exact ⟨result, rfl⟩
  | error e =>
    obtain ⟨q, hmem⟩ := p.run_relays.failures _ _ h
    exact absurd hmem (hstore q e)

theorem runAggregates_eq_ok {q : Option AggregateQuery} {values : Option (List AggregateValue)}
    (h : (runAggregates q).Runs events (.ok values)) :
    (q = none ∧ values = none) ∨ ∃ query rows, q = some query ∧ ⟨.query (.aggregate query), .ok rows⟩ ∈ events ∧
      values = some (AggregateQuery.values query.parts (rows.cells.head?.getD [])) := by
  cases q with
  | none =>
    cases (Operation.runs_pure.mp h).2
    exact Or.inl ⟨rfl, rfl⟩
  | some query =>
    obtain ⟨_, rows, _, hquery, hpure, rfl⟩ := Operation.runs_bind_ok.mp h
    obtain rfl := Operation.runs_query.mp hquery
    cases (Operation.runs_pure.mp hpure).2
    exact Or.inr ⟨query, rows, rfl, List.mem_append_left _ (List.mem_singleton_self _), rfl⟩

/-- The parts of a run: the rows, the links, the counts and the aggregates. -/
theorem run_eq_ok (h : p.run.Runs events (.ok result)) :
    ∃ rows loading loaded total filtered aggregated last,
      events = ⟨.query (.rows p.data), .ok rows⟩ :: ⟨.ended .execute, ()⟩ ::
        (loading ++ ⟨.ended .hydrate, ()⟩ :: (total ++ (filtered ++ (aggregated ++ last)))) ∧
        (Projection.loadDeferred p.projection.deferred (p.projection.hydrate rows.cells)).Runs loading (.ok loaded) ∧
        result.data = loaded.map p.projection.collapse ∧
        (runCount p.totalCount).Runs total (.ok result.totalCount) ∧
        (runCount p.filterCount).Runs filtered (.ok result.filterCount) ∧
        (runAggregates p.aggregate).Runs aggregated (.ok result.aggregates) := by
  obtain ⟨_, rows, _, hrows, hended, rfl⟩ := Operation.runs_bind_ok.mp h
  obtain ⟨_, _, _, htold, hloads, rfl⟩ := Operation.runs_bind_ok.mp hended
  obtain ⟨loading, loaded, _, hloading, hloaded, rfl⟩ := Operation.runs_bind_ok.mp hloads
  obtain ⟨_, _, _, hhydrated, hcounts, rfl⟩ := Operation.runs_bind_ok.mp hloaded
  obtain ⟨total, totalCount, _, htotal, hfilters, rfl⟩ := Operation.runs_bind_ok.mp hcounts
  obtain ⟨filtered, filterCount, _, hfiltered, hvalues, rfl⟩ := Operation.runs_bind_ok.mp hfilters
  obtain ⟨aggregated, aggregates, last, haggregated, hdone, rfl⟩ := Operation.runs_bind_ok.mp hvalues
  obtain rfl := Operation.runs_query.mp hrows
  obtain ⟨_, rfl, -⟩ := Operation.runs_ask.mp htold
  obtain ⟨_, rfl, -⟩ := Operation.runs_ask.mp hhydrated
  -- a phase that counted nothing is not noted
  have hresult : result = ⟨loaded.map p.projection.collapse, totalCount, filterCount, aggregates⟩ := by
    split at hdone
    · obtain ⟨_, _, _, -, hpure, -⟩ := Operation.runs_bind_ok.mp hdone
      exact Except.ok.inj (Operation.runs_pure.mp hpure).2
    · exact Except.ok.inj (Operation.runs_pure.mp hdone).2
  subst hresult
  exact ⟨rows, loading, loaded, total, filtered, aggregated, last, rfl, hloading, rfl, htotal, hfiltered, haggregated⟩

/-- The records of a find are the collapsed ones of those that are put together from the rows and completed with
links. -/
theorem run_data (h : p.run.Runs events (.ok result)) :
    ∃ rows loading loaded rest,
      events = ⟨.query (.rows p.data), .ok rows⟩ :: ⟨.ended .execute, ()⟩ :: (loading ++ rest) ∧
        (Projection.loadDeferred p.projection.deferred (p.projection.hydrate rows.cells)).Runs loading (.ok loaded) ∧
        result.data = loaded.map p.projection.collapse := by
  obtain ⟨rows, loading, loaded, total, filtered, aggregated, last, hevents, hloading, hdata, -⟩ := run_eq_ok h
  exact ⟨rows, loading, loaded, _, hevents, hloading, hdata⟩

end FindPlan
end RecordService
