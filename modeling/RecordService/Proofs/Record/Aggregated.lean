import Mathlib.Data.List.Dedup
import RecordService.Proofs.Plan.Stages
import RecordService.Proofs.Record.Collapsing

/-! # Reported aggregates

A find answers its aggregates with one row of cells, and reports their values by function and label. What is found in
the answer under a function and a label is the value of the last aggregate that goes by them
(`FindResult.at?_aggregate`); so every value is reported if no two aggregates go by the same function and label, and
only then (`FindPlan.run_reports`). -/

namespace RecordService

/-! ### Two levels of keys -/

namespace Json

/-- The entries of an object. -/
def entries : Json → Entries
  | .obj es => es
  | _ => []

theorem entries_obj (es : Entries) : entries (.obj es) = es :=
  rfl

/-- What is found along a chain of keys. -/
def at? : List String → Json → Option Json
  | [], d => some d
  | key :: rest, d => (d.entries.get? key).bind (at? rest)

/-- The pairs of keys that lead to something. -/
def places (d : Json) : List (String × String) :=
  d.entries.flatMap fun e => e.2.entries.map fun inner => (e.1, inner.1)

/-- No object of the first two levels has a key twice. -/
structure Distinct (d : Json) : Prop where
  outer : (d.entries.map (·.1)).Nodup
  inner : ∀ e ∈ d.entries, (e.2.entries.map (·.1)).Nodup

namespace Distinct

variable {d : Json}

theorem nodup_places (h : d.Distinct) : d.places.Nodup := by
  refine List.nodup_flatMap.mpr ⟨fun e he => ?_, ?_⟩
  · have hpair := (h.inner e he).map (Prod.mk_right_injective e.1)
    rwa [List.map_map] at hpair
  · refine (List.pairwise_map.mp h.outer).imp fun hne => ?_
    rintro place hfirst hsecond
    obtain ⟨_, -, rfl⟩ := List.mem_map.mp hfirst
    obtain ⟨_, -, heq⟩ := List.mem_map.mp hsecond
    exact hne (Prod.mk.inj heq).1.symm

theorem mem_places (h : d.Distinct) {outer inner : String} :
    (outer, inner) ∈ d.places ↔ ∃ v, d.at? [outer, inner] = some v := by
  simp only [at?, Option.bind_eq_some_iff, Option.some.injEq]
  constructor
  · intro hmem
    obtain ⟨e, he, hinner⟩ := List.mem_flatMap.mp hmem
    obtain ⟨e', he', heq⟩ := List.mem_map.mp hinner
    obtain ⟨rfl, rfl⟩ := Prod.mk.inj heq
    exact ⟨e'.2, e.2, Entries.get?_of_mem h.outer he, e'.2, Entries.get?_of_mem (h.inner e he) he', rfl⟩
  · rintro ⟨v, below, hbelow, w, hw, -⟩
    exact List.mem_flatMap.mpr ⟨(outer, below), Entries.mem_of_get? hbelow,
      List.mem_map.mpr ⟨(inner, w), Entries.mem_of_get? hw, rfl⟩⟩

end Distinct
end Json

/-! ### Values by function and label -/

/-- The function and the label, under which the value is reported. -/
def AggregateValue.place (a : AggregateValue) : String × String :=
  (a.function.name, a.label)

namespace FindResult

/-- The values with one more. -/
def putValue (d : Json) (a : AggregateValue) : Json :=
  let labels := ((d.entries.get? a.function.name).map Json.entries).getD []
  .obj (d.entries.put a.function.name (.obj (labels.put a.label a.value)))

theorem aggregateJson_concat (values : List AggregateValue) (a : AggregateValue) :
    aggregateJson (values ++ [a]) = putValue (aggregateJson values) a := by
  unfold aggregateJson putValue
  rw [List.foldl_concat, Json.entries_obj]
  generalize values.foldl _ [] = es
  cases Entries.get? es a.function.name with
  | none => rfl
  | some labels => cases labels <;> rfl

theorem at?_putValue (d : Json) (a : AggregateValue) (outer inner : String) :
    (putValue d a).at? [outer, inner] = if (outer, inner) = a.place then some a.value else d.at? [outer, inner] := by
  simp only [putValue, Json.at?, Json.entries_obj, AggregateValue.place, Entries.get?_put, Prod.mk.injEq]
  by_cases houter : outer = a.function.name
  · subst houter
    by_cases hinner : inner = a.label
    · simp [hinner, Json.entries_obj, Entries.get?_put]
    · cases hlabels : d.entries.get? a.function.name with
      | none => simp [hinner, Json.entries_obj, Entries.get?_put, Entries.get?_nil]
      | some labels => simp [hinner, Json.entries_obj, Entries.get?_put]
  · simp [houter]

theorem distinct_putValue {d : Json} (h : d.Distinct) (a : AggregateValue) : (putValue d a).Distinct := by
  refine ⟨Entries.nodup_put h.outer _ _, fun e he => ?_⟩
  rcases Entries.mem_put he with he | rfl
  · exact h.inner e he
  · refine Entries.nodup_put ?_ _ _
    cases hlabels : d.entries.get? a.function.name with
    | none => exact List.nodup_nil
    | some labels => exact h.inner _ (Entries.mem_of_get? hlabels)

theorem distinct_aggregateJson (values : List AggregateValue) : (aggregateJson values).Distinct := by
  induction values using List.reverseRecOn with
  | nil => exact ⟨List.nodup_nil, fun e he => absurd he List.not_mem_nil⟩
  | append_singleton before a ih =>
    rw [aggregateJson_concat]
    exact distinct_putValue ih a

/-- The last value for a function and a label is the one that is found. -/
theorem at?_aggregateJson (values : List AggregateValue) (outer inner : String) :
    (aggregateJson values).at? [outer, inner] =
      (values.reverse.find? (·.place = (outer, inner))).map (·.value) := by
  induction values using List.reverseRecOn with
  | nil => rfl
  | append_singleton before a ih =>
    rw [aggregateJson_concat, at?_putValue, List.reverse_concat, List.find?_cons]
    by_cases hplace : (outer, inner) = a.place
    · simp [hplace]
    · simp [hplace, Ne.symm hplace, ih]

/-! ### The answer -/

/-- The values of the answer. -/
def reportedValues (r : FindResult) : List AggregateValue :=
  r.aggregates.getD []

/-- The functions and labels that the answer has values for. -/
def reported (r : FindResult) : List (String × String) :=
  ((r.toJson.at? ["meta", "aggregate"]).map Json.places).getD []

theorem at?_aggregates (r : FindResult) :
    r.toJson.at? ["meta", "aggregate"] = r.aggregates.map aggregateJson := by
  obtain ⟨data, totalCount, filterCount, aggregates⟩ := r
  cases totalCount <;> cases filterCount <;> cases aggregates <;> rfl

theorem at?_aggregate (r : FindResult) (outer inner : String) :
    r.toJson.at? ["meta", "aggregate", outer, inner] =
      (r.reportedValues.reverse.find? (·.place = (outer, inner))).map (·.value) := by
  have hchain : r.toJson.at? ["meta", "aggregate", outer, inner] =
      (r.toJson.at? ["meta", "aggregate"]).bind (Json.at? [outer, inner]) := by
    simp only [Json.at?, Option.bind_assoc, Option.bind_some]
  rw [hchain, at?_aggregates, reportedValues]
  cases r.aggregates with
  | none => rfl
  | some values => exact at?_aggregateJson values outer inner

/-- A value is found where no later one takes its place. -/
theorem at?_of_last {r : FindResult} {a : AggregateValue} {i : Nat} (h : r.reportedValues[i]? = some a)
    (hlater : ∀ b ∈ r.reportedValues.drop (i + 1), b.place ≠ a.place) :
    r.toJson.at? ["meta", "aggregate", a.function.name, a.label] = some a.value := by
  obtain ⟨hi, ha⟩ := List.getElem?_eq_some_iff.mp h
  have hsplit : r.reportedValues = r.reportedValues.take i ++ a :: r.reportedValues.drop (i + 1) := by
    rw [← ha, ← List.drop_eq_getElem_cons hi, List.take_append_drop]
  have hnone : (r.reportedValues.drop (i + 1)).reverse.find? (·.place = (a.function.name, a.label)) = none :=
    List.find?_eq_none.mpr fun b hb => by
      rw [decide_eq_true_eq]
      exact hlater b (List.mem_reverse.mp hb)
  rw [at?_aggregate, hsplit, List.reverse_append, List.reverse_cons, List.append_assoc, List.find?_append, hnone,
    Option.none_or, List.singleton_append, List.find?_cons_of_pos (by simp [AggregateValue.place]), Option.map_some]

theorem nodup_reported (r : FindResult) : r.reported.Nodup := by
  rw [reported, at?_aggregates]
  cases r.aggregates with
  | none => exact List.nodup_nil
  | some values => exact (distinct_aggregateJson values).nodup_places

theorem mem_reported {r : FindResult} {place : String × String} :
    place ∈ r.reported ↔ place ∈ r.reportedValues.map (·.place) := by
  rw [reported, at?_aggregates, reportedValues]
  cases r.aggregates with
  | none => rfl
  | some values =>
    simp only [Option.map_some, Option.getD_some]
    rw [(distinct_aggregateJson values).mem_places, at?_aggregateJson,
      ← Option.isSome_iff_exists, Option.isSome_map, List.find?_isSome]
    simp

/-- As many values are reported as there are different functions and labels. -/
theorem length_reported (r : FindResult) : r.reported.length = (r.reportedValues.map (·.place)).dedup.length := by
  refine List.Perm.length_eq ((List.perm_ext_iff_of_nodup r.nodup_reported (List.nodup_dedup _)).mpr fun place => ?_)
  rw [mem_reported, List.mem_dedup]

end FindResult

/-! ### Requests and their cells -/

/-- The value of a cell: no value is zero for a count. -/
def AggregateFunction.valueOf : AggregateFunction → Cell → Json
  | .count, .null => .int 0
  | _, cell => cell.toJson none

namespace AggregateRequest

def place (r : AggregateRequest) : String × String :=
  (r.function.name, r.label)

/-- What is reported for the request. -/
def valueOf (r : AggregateRequest) (cell : Cell) : AggregateValue :=
  ⟨r.function, r.label, r.function.valueOf cell⟩

theorem function_target {s : Setting} {r : AggregateRequest} {plan plan' : JoinPlan} {call : AggregateCall}
    (h : r.target s plan = .ok (call, plan')) : call.function = r.function := by
  rcases target_inv h with ⟨-, -, rfl, -⟩ | ⟨-, ⟨_, _, _, -, -, rfl⟩ | ⟨_, _, _, _, _, _, _, -, -, rfl, -⟩⟩ <;> rfl

theorem compileAll_functions {s : Setting} : ∀ {rs : List AggregateRequest} {d d' : Draft}
    {terms : List AggregateTerm}, compileAll s rs d = .ok (terms, d') →
      terms.map (fun t => (t.call.function, t.label)) = rs.map fun r => (r.function, r.label)
  | [], _, _, _, h => by
    cases h
    rfl
  | r :: rest, d, d', _, h => by
    obtain ⟨term, d₁, more, hterm, hrest, rfl⟩ := compileAll_cons_eq_ok.mp h
    obtain ⟨call, plan, condition, d₂, htarget, -, rfl, -⟩ := compile_eq_ok.mp hterm
    rw [List.map_cons, List.map_cons, compileAll_functions hrest, function_target htarget]

end AggregateRequest

theorem AggregateQuery.values_cons (a : AggregateSelect) (rest : List AggregateSelect) (c : Cell) (cells : List Cell) :
    values (a :: rest) (c :: cells) =
      ⟨a.call.function, a.label, a.call.function.valueOf c⟩ :: values rest cells := by
  rw [values]
  cases c <;> cases a.call.function <;> rfl

/-- With a cell for each request, the values are those of the requests, in order. -/
theorem AggregateQuery.values_eq {parts : List AggregateSelect} {rs : List AggregateRequest} {cells : List Cell}
    (h : parts.map (fun a => (a.call.function, a.label)) = rs.map fun r => (r.function, r.label))
    (hlength : cells.length = rs.length) :
    values parts cells = (rs.zip cells).map fun answered => answered.1.valueOf answered.2 := by
  induction parts generalizing rs cells with
  | nil =>
    obtain rfl := List.map_eq_nil_iff.mp h.symm
    rfl
  | cons a rest ih =>
    obtain ⟨r, rs, rfl, hr, hrs⟩ := List.map_eq_cons_iff.mp h.symm
    obtain ⟨c, cells, rfl⟩ := List.exists_cons_of_length_eq_add_one hlength
    obtain ⟨hfunction, hlabel⟩ := Prod.mk.inj hr
    rw [values_cons, List.zip_cons_cons, List.map_cons, ih hrs.symm (Nat.succ.inj hlength), AggregateRequest.valueOf,
      hfunction, hlabel]

namespace FindPlan

variable {catalog : Catalog} {table : String} {request : FindRequest} {options : CompileOptions} {p : FindPlan}
  {requests : List AggregateRequest} {cells : List Cell} {events : List Event}

/-- The parts of the aggregate query have the functions and the labels of the requests, in order. -/
theorem compile_aggregates (h : compile catalog table request options = .ok p)
    (hrequests : AggregateRequest.ofJson request.aggregate = .ok requests) :
    (p.aggregate = none ∧ requests = []) ∨ ∃ query, p.aggregate = some query ∧
      query.parts.map (fun a => (a.call.function, a.label)) = requests.map fun r => (r.function, r.label) := by
  obtain ⟨counts, aggregates, s, c, -, haggregates, -, hparts, rfl⟩ := compile_eq_ok.mp h
  obtain rfl := Except.ok.inj (hrequests.symm.trans haggregates)
  obtain ⟨d₁, d₂, d₃, -, -, -, hall⟩ := CompiledParts.compile_eq_ok.mp hparts
  have hfunctions := AggregateRequest.compileAll_functions hall
  by_cases hempty : c.aggregates.isEmpty = true
  · rw [List.isEmpty_iff.mp hempty] at hfunctions
    exact Or.inl ⟨if_pos hempty, List.map_eq_nil_iff.mp hfunctions.symm⟩
  · refine Or.inr ⟨_, if_neg hempty, ?_⟩
    rw [← hfunctions, List.map_map]
    refine List.map_congr_left fun t _ => ?_
    rcases c.aggregateSelect_eq s t with hselect | hselect
    · simp only [Function.comp, hselect]
    · simp only [Function.comp, hselect]

/-- A run has the values of the requests, in order. -/
theorem run_values {result : FindResult} (h : compile catalog table request options = .ok p)
    (hrequests : AggregateRequest.ofJson request.aggregate = .ok requests) (hlength : cells.length = requests.length)
    (hruns : p.run.Runs events (.ok result))
    (hrow : ∀ q rows, ⟨.query (.aggregate q), .ok rows⟩ ∈ events → rows.cells = [cells]) :
    result.reportedValues = (requests.zip cells).map fun answered => answered.1.valueOf answered.2 := by
  obtain ⟨_, _, _, _, _, aggregated, last, rfl, -, -, -, -, haggregated⟩ := run_eq_ok hruns
  rw [FindResult.reportedValues]
  rcases compile_aggregates h hrequests with ⟨hnone, rfl⟩ | ⟨query, hsome, hparts⟩
  · rcases runAggregates_eq_ok haggregated with ⟨-, hvalues⟩ | ⟨query, _, hquery, -⟩
    · rw [hvalues]
      rfl
    · rw [hnone] at hquery
      cases hquery
  · rcases runAggregates_eq_ok haggregated with ⟨habsurd, -⟩ | ⟨asked, rows, hasked, hreply, hvalues⟩
    · rw [hsome] at habsurd
      cases habsurd
    · obtain rfl := Option.some.inj (hsome.symm.trans hasked)
      have hcells := hrow query rows (by simp [hreply])
      rw [hvalues, hcells]
      exact AggregateQuery.values_eq hparts hlength

/-- Where the store answers with one row that has a cell for each request, a find succeeds. Under the function and the
label of a request there is the value of its cell, unless a later request goes by the same two; and nothing is reported
that was not requested. So there are as many values as requests exactly if no two requests go by the same. -/
theorem run_reports {outcome : Except Error FindResult} (h : compile catalog table request options = .ok p)
    (hrequests : AggregateRequest.ofJson request.aggregate = .ok requests) (hlength : cells.length = requests.length)
    (hruns : p.run.Runs events outcome) (hstore : ∀ q e, ⟨.query q, .error e⟩ ∉ events)
    (hrow : ∀ q rows, ⟨.query (.aggregate q), .ok rows⟩ ∈ events → rows.cells = [cells]) :
    ∃ result, outcome = .ok result ∧
      (∀ i r cell, requests[i]? = some r → cells[i]? = some cell →
        (∀ later ∈ requests.drop (i + 1), later.place ≠ r.place) →
          result.toJson.at? ["meta", "aggregate", r.function.name, r.label] = some (r.function.valueOf cell)) ∧
      (∀ place, place ∈ result.reported ↔ place ∈ requests.map (·.place)) ∧
      result.reported.length = (requests.map (·.place)).dedup.length ∧
      (result.reported.length = requests.length ↔ (requests.map (·.place)).Nodup) := by
  obtain ⟨result, rfl⟩ := run_succeeds hruns hstore
  have hvalues := run_values h hrequests hlength hruns hrow
  have hplaces : result.reportedValues.map (·.place) = requests.map (·.place) := by
    rw [hvalues, List.map_map]
    conv_rhs => rw [← List.map_fst_zip hlength.ge, List.map_map]
    rfl
  have hcount : result.reported.length = (requests.map (·.place)).dedup.length := by
    rw [result.length_reported, hplaces]
  refine ⟨result, rfl, fun i r cell hr hcell hlater => ?_, fun place => ?_, hcount, ?_⟩
  · refine FindResult.at?_of_last (a := r.valueOf cell) (i := i) ?_ fun b hb => ?_
    -- cells stand in the order of the requests
    · have hanswered : (requests.zip cells)[i]? = some (r, cell) := List.getElem?_zip_eq_some.mpr ⟨hr, hcell⟩
      rw [hvalues, List.getElem?_map, hanswered, Option.map_some]
    · have hmem : b.place ∈ (requests.drop (i + 1)).map (·.place) := by
        rw [List.map_drop, ← hplaces, ← List.map_drop]
        exact List.mem_map_of_mem hb
      obtain ⟨later, hdropped, hplace⟩ := List.mem_map.mp hmem
      exact hplace ▸ hlater later hdropped
  · rw [FindResult.mem_reported, hplaces]
  · rw [hcount]
    constructor
    · intro hall
      -- as long as the list, what is left of it without repetitions is all of it
      exact List.dedup_eq_self.mp ((List.dedup_sublist _).eq_of_length (hall.trans (List.length_map _).symm))
    · intro hnodup
      rw [hnodup.dedup, List.length_map]

/-- A store that answers aggregates with the cells, and has nothing else. -/
def answering (cells : List Cell) : (step : Step) → Session → step.Answer × Session
  | .query (.aggregate q), s => (.ok ⟨q.parts.map (·.label), [cells]⟩, s)
  | .query _, s => (.ok .empty, s)
  | step, s => Session.answer step s

theorem events_answering {α : Type} (cells : List Cell) (op : Operation α) (s : Session) :
    (∀ q e, ⟨.query q, .error e⟩ ∉ op.events (answering cells) s) ∧
      ∀ q rows, ⟨.query (.aggregate q), .ok rows⟩ ∈ op.events (answering cells) s → rows.cells = [cells] := by
  constructor
  · intro q e hmem
    obtain ⟨state, hreply⟩ := Operation.follows_of_mem_events _ op s _ hmem
    cases q <;> cases hreply
  · intro q rows hmem
    obtain ⟨state, hreply⟩ := Operation.follows_of_mem_events _ op s _ hmem
    cases hreply
    rfl

/-- Three aggregates with a name each, one of which has no value. -/
theorem run_reports_blog :
    let aggregate := .obj [("count", .arr [.str "*", .obj [("field", .str "*"), ("as", .str "open"),
      ("condition", .obj [("open?", .bool true)])]]), ("_max", .str "id")]
    let request := { FindRequest.all with aggregate }
    let cells : List Cell := [.int 5, .null, .int 9]
    ∃ p requests events result, compile .blog "posts" request .standard = .ok p ∧
      AggregateRequest.ofJson aggregate = .ok requests ∧ cells.length = requests.length ∧
      p.run.Runs events (.ok result) ∧ (∀ q e, ⟨.query q, .error e⟩ ∉ events) ∧
      (∀ q rows, ⟨.query (.aggregate q), .ok rows⟩ ∈ events → rows.cells = [cells]) ∧
      result.toJson.at? ["meta", "aggregate", "count", "*"] = some (.int 5) ∧
      result.toJson.at? ["meta", "aggregate", "count", "open"] = some (.int 0) ∧
      result.toJson.at? ["meta", "aggregate", "max", "id"] = some (.int 9) ∧ result.reported.length = 3 := by
  intro aggregate request cells
  let session : Session := .start .blog .standard []
  let condition := Json.obj [("open?", .bool true)]
  let requests : List AggregateRequest :=
    [⟨.count, .ofText "*", none, "*"⟩, ⟨.count, .ofText "*", some condition, "open"⟩,
      ⟨.max, .ofText "id", none, "id"⟩]
  have hrequests : AggregateRequest.ofJson aggregate = .ok requests := rfl
  obtain ⟨p, h⟩ := exists_eq_ok (x := compile .blog "posts" request .standard) (by decide +kernel)
  have hruns := Operation.runs_result (answering cells) p.run session
  obtain ⟨hstore, hrow⟩ := events_answering cells p.run session
  obtain ⟨result, hresult, hvalues, -, -, hcount⟩ := run_reports h hrequests rfl hruns hstore hrow
  rw [hresult] at hruns
  refine ⟨p, requests, _, result, h, hrequests, rfl, hruns, hstore, hrow, ?_, ?_, ?_, ?_⟩
  · exact hvalues 0 _ _ rfl rfl (by decide)
  · exact hvalues 1 _ _ rfl rfl (by decide)
  · exact hvalues 2 _ _ rfl rfl (by decide)
  · exact hcount.mpr (by decide)

/-- All posts and the open posts are counted, both by the name of what is counted: of the counts 5 and 2, which the
store answers, the answer has the second one only. -/
theorem value_lost_blog :
    let aggregate := .obj [("count", .arr [.str "*", .obj [("field", .str "*"),
      ("condition", .obj [("open?", .bool true)])]])]
    let request := { FindRequest.all with aggregate }
    let cells : List Cell := [.int 5, .int 2]
    ∃ (p : FindPlan) (requests : List AggregateRequest) (events : List Event) (result : FindResult),
      compile .blog "posts" request .standard = .ok p ∧
      AggregateRequest.ofJson aggregate = .ok requests ∧ cells.length = requests.length ∧
      p.run.Runs events (.ok result) ∧ (∀ q e, ⟨.query q, .error e⟩ ∉ events) ∧
      (∀ q rows, ⟨.query (.aggregate q), .ok rows⟩ ∈ events → rows.cells = [cells]) ∧
      ¬(∀ (i : Nat) (r : AggregateRequest) (cell : Cell), requests[i]? = some r → cells[i]? = some cell →
        result.toJson.at? ["meta", "aggregate", r.function.name, r.label] = some (r.function.valueOf cell)) ∧
      result.reported.length ≠ requests.length := by
  intro aggregate request cells
  let session : Session := .start .blog .standard []
  let condition := Json.obj [("open?", .bool true)]
  let requests : List AggregateRequest :=
    [⟨.count, .ofText "*", none, "*"⟩, ⟨.count, .ofText "*", some condition, "*"⟩]
  have hrequests : AggregateRequest.ofJson aggregate = .ok requests := rfl
  obtain ⟨p, h⟩ := exists_eq_ok (x := compile .blog "posts" request .standard) (by decide +kernel)
  have hruns := Operation.runs_result (answering cells) p.run session
  obtain ⟨hstore, hrow⟩ := events_answering cells p.run session
  obtain ⟨result, hresult⟩ := run_succeeds hruns hstore
  rw [hresult] at hruns
  have hvalues : result.reportedValues = [⟨.count, "*", .int 5⟩, ⟨.count, "*", .int 2⟩] :=
    run_values h hrequests rfl hruns hrow
  -- the label leaves out the condition, and the later count is put over the first one
  have hlast : result.toJson.at? ["meta", "aggregate", "count", "*"] = some (.int 2) := by
    refine FindResult.at?_of_last (a := ⟨.count, "*", .int 2⟩) (i := 1) ?_ ?_
    · rw [hvalues]
      rfl
    · rw [hvalues]
      exact fun b hb => absurd hb List.not_mem_nil
  refine ⟨p, requests, _, result, h, hrequests, rfl, hruns, hstore, hrow, fun hall => ?_, ?_⟩
  · have hfirst := hall 0 _ _ rfl rfl
    cases hlast.symm.trans hfirst
  · rw [result.length_reported, hvalues]
    decide

end FindPlan
end RecordService
