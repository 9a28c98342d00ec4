import RecordService.Plan.Find
import RecordService.Proofs.Sql.Written

/-! # Balanced statements

However a plan was made, each of its statements binds one cell for each placeholder: every part of a statement is
written with its own cells, and parts are only ever joined and wrapped. The cells of a condition are those of its tests
in order (`Condition.tests`). The statement for the rows has besides the clause of its window, at one place and behind
nothing that could be taken for it (`RowQuery.cuts_statement`). -/

namespace RecordService
open Sql

/-! ### Tests -/

theorem Test.written_linksOf (links : LinkTable) (scratch : String) (parent : ColumnRef) :
    Written (linksOf links scratch parent) 0 := by
  delta linksOf
  simp only [toString]
  repeat' with_reducible apply Written.append_plain
  all_goals with_reducible first | exact .quoteName _ | exact ColumnRef.written_text _ | exact .literal rfl rfl

theorem Comparison.written_sql (c : Comparison) : Written c.sql 0 := by
  cases c <;> exact .literal rfl rfl

theorem Test.render_count (links : LinkTable) (scratch : String) (parent : ColumnRef) (c : Comparison) (value : Cell) :
    (count links scratch parent c value).render =
      ⟨"(SELECT COUNT(*)" ++ linksOf links scratch parent ++ ") " ++ c.sql ++ " ?", [value]⟩ := rfl

theorem Test.render_setEq (links : LinkTable) (scratch : String) (parent : ColumnRef) (ids : List Cell) :
    (setEq links scratch parent ids).render =
      if ids.isEmpty then .raw ("NOT EXISTS (SELECT 1" ++ linksOf links scratch parent ++ ")")
      else
        ⟨"EXISTS (SELECT 1" ++ linksOf links scratch parent ++ " GROUP BY " ++ ColumnRef.text ⟨scratch, links.parentKey⟩ ++
            " HAVING COUNT(DISTINCT " ++ ColumnRef.text ⟨scratch, links.targetKey⟩ ++ ") = " ++ toString ids.length ++
          (" AND COUNT(DISTINCT CASE WHEN " ++ ColumnRef.text ⟨scratch, links.targetKey⟩ ++ " IN (" ++ placeholders ids ++
            ") THEN " ++ ColumnRef.text ⟨scratch, links.targetKey⟩ ++ " END) = " ++ toString ids.length ++ ")"),
          ids⟩ := rfl

theorem Test.balanced_render (t : Test) : t.render.Balanced := by
  have hq : Written " ?" 1 := .literal rfl rfl
  cases t with
  | isNull col negated =>
    exact Fragment.Balanced.raw (col.written_text.append_plain (by cases negated <;> exact .literal rfl rfl))
  | compare col c value =>
    exact ((col.written_text.append_plain (.literal rfl rfl)).append_plain c.written_sql).plain_append hq
  | member col negated values =>
    have hkeyword : Written (if negated then "NOT IN" else "IN") 0 := by cases negated <;> exact .literal rfl rfl
    have hhead : Written (col.text ++ " " ++ (if negated then "NOT IN" else "IN") ++ " (") 0 :=
      ((col.written_text.append_plain (.literal rfl rfl)).append_plain hkeyword).append_plain (.literal rfl rfl)
    exact (hhead.plain_append (written_placeholders values)).append_plain (.literal rfl rfl)
  | constant holds =>
    exact Fragment.Balanced.raw (by cases holds <;> exact .literal rfl rfl)
  | between col low high =>
    have h : Written " BETWEEN ? AND ?" 2 := .literal rfl rfl
    exact col.written_text.plain_append h
  | like col pattern =>
    have h : Written ") LIKE unaccent(?) ESCAPE '\\'" 1 := .literal rfl rfl
    exact (Written.plain_append (.literal rfl rfl) col.written_text).plain_append h
  | count links scratch parent c value =>
    rw [render_count]
    refine Written.plain_append ?_ hq
    repeat' with_reducible apply Written.append_plain
    all_goals with_reducible first | exact written_linksOf _ _ _ | exact Comparison.written_sql _ | exact .literal rfl rfl
  | setEq links scratch parent ids =>
    have hlinks := written_linksOf links scratch parent
    rw [render_setEq]
    split
    · exact Fragment.Balanced.raw ((Written.plain_append (.literal rfl rfl) hlinks).append_plain (.literal rfl rfl))
    · have hn := Written.nat ids.length
      have hkey := ColumnRef.written_text ⟨scratch, links.targetKey⟩
      -- Only the second text has placeholders.
      refine Written.plain_append ?_ ?_
      · repeat' with_reducible apply Written.append_plain
        all_goals with_reducible first | exact hn | exact hlinks | exact ColumnRef.written_text _ | exact .literal rfl rfl
      · have hbefore : Written (" AND COUNT(DISTINCT CASE WHEN " ++ ColumnRef.text ⟨scratch, links.targetKey⟩ ++ " IN (") 0 :=
          (Written.plain_append (.literal rfl rfl) hkey).append_plain (.literal rfl rfl)
        have hids := hbefore.plain_append (written_placeholders ids)
        exact ((((hids.append_plain (.literal rfl rfl)).append_plain hkey).append_plain (.literal rfl rfl)).append_plain
          hn).append_plain (.literal rfl rfl)

/-- The cells that a test binds. -/
def Test.cells : Test → List Cell
  | isNull .. | constant _ => []
  | compare _ _ value | count _ _ _ _ value => [value]
  | member _ _ values => values
  | between _ low high => [low, high]
  | like _ pattern => [.text pattern]
  | setEq _ _ _ ids => ids

theorem Test.params_render (t : Test) : t.render.params = t.cells := by
  cases t with
  | setEq links scratch parent ids =>
    rw [render_setEq]
    split
    · rename_i h
      exact (List.isEmpty_iff.mp h).symm
    · rfl
  | _ => rfl

/-! ### Conditions -/

namespace Condition

mutual

/-- The tests of a condition, in the order in which they are written. -/
def tests : Condition → List Test
  | test t => [t]
  | group _ parts => testsOfAll parts
  | not part => part.tests

/-- The tests of several conditions. -/
def testsOfAll : List Condition → List Test
  | [] => []
  | part :: rest => part.tests ++ testsOfAll rest

end

theorem testsOfAll_eq (parts : List Condition) : testsOfAll parts = parts.flatMap tests := by
  induction parts with
  | nil => rfl
  | cons part rest ih => simp [testsOfAll, ih]

theorem testsOfAll_append (a b : List Condition) : testsOfAll (a ++ b) = testsOfAll a ++ testsOfAll b := by
  simp [testsOfAll_eq]

theorem testsOfAll_groupOf (c : Connective) (parts : List Condition) :
    testsOfAll (Filter.groupOf c parts).toList = testsOfAll parts := by
  unfold Filter.groupOf
  split
  · rename_i hempty
    rw [List.isEmpty_iff.mp hempty]
    rfl
  · simp [testsOfAll, tests]

theorem testsOfAll_not (part : Option Condition) : testsOfAll (part.map not).toList = testsOfAll part.toList := by
  cases part <;> simp [testsOfAll, tests]

theorem testsOfAll_test (t : Option Test) : testsOfAll (t.map test).toList = t.toList := by
  cases t <;> simp [testsOfAll, tests]

theorem renderAll_eq (parts : List Condition) : renderAll parts = parts.map render := by
  induction parts with
  | nil => rfl
  | cons part rest ih => simp [renderAll, ih]

mutual

theorem balanced_render : ∀ c : Condition, c.render.Balanced
  | test t => by
    rw [render]
    exact t.balanced_render
  | group c parts => by
    rw [render]
    exact (Fragment.Balanced.join (c.written_text) (balanced_renderAll parts)).wrap (.literal rfl rfl)
      (.literal rfl rfl)
  | not part => by
    rw [render]
    exact part.balanced_render.wrap (.literal rfl rfl) (.literal rfl rfl)

theorem balanced_renderAll : ∀ parts : List Condition, ∀ f ∈ renderAll parts, f.Balanced
  | [], f, hf => by simp [renderAll] at hf
  | part :: rest, f, hf => by
    rw [renderAll, List.mem_cons] at hf
    rcases hf with rfl | hf
    · exact part.balanced_render
    · exact balanced_renderAll rest f hf

end

mutual

/-- A condition binds the cells of its tests, in order. -/
theorem params_render : ∀ c : Condition, c.render.params = c.tests.flatMap Test.cells
  | test t => by simp [render, tests, t.params_render]
  | group c parts => by
    simp only [render, tests, Fragment.params_wrap, Fragment.params_join]
    exact params_renderAll parts
  | not part => by
    simp only [render, tests, Fragment.params_wrap]
    exact part.params_render

theorem params_renderAll : ∀ parts : List Condition,
    (renderAll parts).flatMap (·.params) = (testsOfAll parts).flatMap Test.cells
  | [] => rfl
  | part :: rest => by
    simp only [renderAll, testsOfAll, List.flatMap_cons, List.flatMap_append]
    rw [part.params_render, params_renderAll rest]

end

/-- The cells that conditions bind when all of them have to hold. -/
def cellsOf (parts : List Condition) : List Cell :=
  (testsOfAll parts).flatMap Test.cells

theorem balanced_allOf (parts : List Condition) : ∀ f ∈ allOf parts, f.Balanced := by
  refine Fragment.Balanced.ofClauses fun c hc => ?_
  obtain ⟨part, -, rfl⟩ := List.mem_map.mp hc
  exact part.balanced_render

theorem params_allOf (parts : List Condition) : ((allOf parts).map (·.params)).getD [] = cellsOf parts := by
  rw [allOf, Fragment.params_ofClauses, cellsOf, ← params_renderAll, renderAll_eq]
  simp [List.flatMap_map]

theorem params_where_allOf (parts : List Condition) : (Fragment.whereClause (allOf parts)).params = cellsOf parts := by
  rw [Fragment.params_whereClause, params_allOf]

theorem balanced_where_allOf (parts : List Condition) : (Fragment.whereClause (allOf parts)).Balanced :=
  Fragment.Balanced.whereClause (balanced_allOf parts)

end Condition

/-! ### Sources -/

theorem written_joinClause (table tableAlias : String) (left right : ColumnRef) :
    Written (joinClause table tableAlias left right) 0 := by
  delta joinClause
  simp only [toString]
  repeat' with_reducible apply Written.append_plain
  all_goals with_reducible first | exact .quoteName _ | exact ColumnRef.written_text _ | exact .literal rfl rfl

theorem Join.written_text (j : Join) : Written j.text 0 := by
  simp only [text]
  split
  · exact (written_joinClause _ _ _ _).append_plain (written_joinClause _ _ _ _)
  · exact written_joinClause _ _ _ _

theorem written_joinsText (joins : List Join) : Written (joinsText joins) 0 := by
  unfold joinsText
  induction joins with
  | nil => exact Written.empty
  | cons j rest ih =>
    rw [List.map_cons, String.join_cons]
    exact j.written_text.append_plain ih

theorem Source.written_text (s : Source) : Written s.text 0 := by
  delta text
  simp only [toString]
  repeat' with_reducible apply Written.append_plain
  all_goals with_reducible first | exact .quoteName _ | exact written_joinsText _ | exact .literal rfl rfl

namespace SemiJoin

theorem balanced_render (j : SemiJoin) : j.render.Balanced := by
  refine (Condition.balanced_where_allOf j.conditions).wrap ?_ (.literal rfl rfl)
  simp only [toString]
  repeat' with_reducible apply Written.append_plain
  all_goals with_reducible first | exact ColumnRef.written_text _ | exact Source.written_text _ | exact .literal rfl rfl

theorem params_render (j : SemiJoin) : j.render.params = Condition.cellsOf j.conditions := by
  rw [render, Fragment.params_wrap, Condition.params_where_allOf]

end SemiJoin

/-! ### Rows -/

namespace Window

/-- The text has the clause of the window at one place, where no digit follows it, and is written around it with so many
placeholders. -/
def Cuts (w : Window) (sql : String) (n : Nat) : Prop :=
  ∃ before rest l m, sql = before ++ w.clause ++ rest ∧ Written before l ∧ Written rest m ∧ l + m = n ∧
    ∀ c ∈ rest.toList.head?, c.isDigit = false

theorem marked_clause (w : Window) : Marked w.clause 0 := by
  unfold clause
  split
  · rename_i n _
    have hlimit : Marked " LIMIT " 0 := .literal rfl
    have hoffset : Marked " OFFSET " 0 := .literal rfl
    exact ((hlimit.append (.nat n)).append hoffset).append (.nat w.skip)
  · exact Marked.empty

variable {w : Window} {a b : String} {m n : Nat}

theorem Cuts.marked (h : w.Cuts a n) : Marked a n := by
  obtain ⟨before, rest, l, m, rfl, hbefore, hrest, rfl, -⟩ := h
  exact (hbefore.marked.append w.marked_clause).append hrest.marked

theorem Cuts.after (ha : Written a m) (hb : w.Cuts b n) : w.Cuts (a ++ b) (m + n) := by
  obtain ⟨before, rest, l, k, rfl, hbefore, hrest, rfl, hend⟩ := hb
  exact ⟨a ++ before, rest, m + l, k, by simp only [String.append_assoc], ha.append hbefore, hrest,
    Nat.add_assoc m l k, hend⟩

theorem Cuts.before (ha : w.Cuts a n) (hb : Written b 0) (hend : ∀ c ∈ b.toList.head?, c.isDigit = false) :
    w.Cuts (a ++ b) n := by
  obtain ⟨before, rest, l, k, rfl, hbefore, hrest, rfl, hdigit⟩ := ha
  refine ⟨before, rest ++ b, l, k, by simp only [String.append_assoc], hbefore, hrest.append_plain hb, rfl, fun c hc => ?_⟩
  rw [String.toList_append, List.head?_append, Option.mem_def, Option.or_eq_some_iff] at hc
  exact hc.elim (hdigit c) fun h => hend c h.2

end Window

theorem written_orderTerm {expr : String} (h : Written expr 0) (descending : Bool) :
    Written (orderTerm expr descending) 0 :=
  h.append_plain (by cases descending <;> exact .literal rfl rfl)

namespace KeyPage

theorem written_values (p : KeyPage) : Written (String.intercalate ", "
    (p.sort.zipIdx.map fun (k, place) => k.column.text ++ " AS " ++ sortName place)) 0 :=
  Written.commas fun k _ =>
    (k.1.column.written_text.append_plain (.literal rfl rfl)).append_plain (.quoteName _)

theorem written_order (p : KeyPage) : Written (String.intercalate ", "
    (p.sort.zipIdx.map fun (k, place) => k.textAs (sortName place))) 0 :=
  Written.commas fun k _ => written_orderTerm (.quoteName _) k.1.descending

/-- The keys are cut where they are selected. -/
theorem cuts_render (p : KeyPage) : p.window.Cuts p.render.sql p.render.params.length := by
  have hkey := p.key.written_text
  have hselect {values : String} (hvalues : Written values 0) :
      Written ("SELECT DISTINCT " ++ p.key.text ++ " AS " ++ quoteName "k" ++ ", " ++ values ++ " FROM " ++
        p.source.text) 0 := by
    repeat' with_reducible apply Written.append_plain
    all_goals
      with_reducible
        first | exact hkey | exact hvalues | exact .quoteName _ | exact Source.written_text _ | exact .literal rfl rfl
  have hhead : Written (p.key.text ++ " IN (SELECT " ++ ColumnRef.text ⟨"w", "k"⟩ ++ " FROM (") 0 :=
    ((hkey.append_plain (.literal rfl rfl)).append_plain (ColumnRef.written_text _)).append_plain (.literal rfl rfl)
  have horder : Written (" ORDER BY " ++ _) 0 := Written.plain_append (.literal rfl rfl) p.written_order
  have hbefore := ((hhead.append_plain (hselect p.written_values)).plain_append
    (Condition.balanced_where_allOf p.filter)).append_plain horder
  refine ⟨_, ") AS " ++ quoteName "w" ++ ")", _, 0, ?_, hbefore, ?_, ?_, ?_⟩
  · simp only [render, Fragment.wrap, Fragment.sql_append, Fragment.raw, String.append_assoc]
    rfl
  · exact (Written.append_plain (.literal rfl rfl) (.quoteName _)).append_plain (.literal rfl rfl)
  · simp [render]
  · rintro c ⟨⟩
    rfl

theorem params_render (p : KeyPage) : p.render.params = Condition.cellsOf p.filter := by
  simp only [render, Fragment.params_wrap, Fragment.params_append, Fragment.params_raw, List.nil_append,
    List.append_nil, Condition.params_where_allOf]

end KeyPage

namespace RowQuery

/-- The cells of the filter once for the rows, and once more for a page of keys. -/
def cells (q : RowQuery) : List Cell :=
  match q.paging with
  | .rows _ => Condition.cellsOf q.filter
  | .keys page => Condition.cellsOf q.filter ++ Condition.cellsOf page.filter

theorem params_condition (q : RowQuery) : ((q.condition).map (·.params)).getD [] = q.cells := by
  have hfilter := Condition.params_allOf q.filter
  unfold condition cells
  cases q.paging with
  | rows window => exact hfilter
  | keys page =>
    cases hall : Condition.allOf q.filter with
    | none => simpa [page.params_render, hall] using hfilter
    | some f =>
      simp only [hall, Option.map_some, Option.getD_some] at hfilter
      simp [page.params_render, hfilter]

theorem written_orderClause (q : RowQuery) : Written q.orderClause 0 := by
  refine Written.plain_append (.literal rfl rfl) ?_
  rw [← List.map_id (q.sort.map (·.text) ++ _)]
  refine Written.commas fun text htext => ?_
  rcases List.mem_append.mp htext with htext | htext
  · obtain ⟨k, -, rfl⟩ := List.mem_map.mp htext
    exact written_orderTerm k.column.written_text _
  · obtain ⟨c, -, rfl⟩ := List.mem_map.mp htext
    exact written_orderTerm c.written_text _

/-- What a page of keys asks of a row is the last part of the condition. -/
theorem cuts_condition {q : RowQuery} {page : KeyPage} (h : q.paging = .keys page) :
    ∃ f, q.condition = some f ∧ page.window.Cuts f.sql f.params.length := by
  cases hall : Condition.allOf q.filter with
  | none => exact ⟨page.render, by simp [condition, h, hall], page.cuts_render⟩
  | some filter =>
    refine ⟨_, by simp [condition, h, hall]; rfl, ?_⟩
    have hfilter := (Condition.balanced_allOf q.filter filter hall).append
      (Fragment.Balanced.raw Connective.and.written_text)
    rw [Fragment.params_append, List.length_append]
    exact .after hfilter page.cuts_render

/-- The rows are cut by the last clause of the statement, or the keys within its condition. -/
theorem cuts_statement (q : RowQuery) : q.window.Cuts q.statement.sql q.statement.params.length := by
  have hcolumns : Written (String.intercalate ", " (q.columns.map (·.text))) 0 := .commas fun c _ => c.written_text
  have hselect : Written ("SELECT " ++ String.intercalate ", " (q.columns.map (·.text)) ++ " FROM " ++ q.source.text) 0 :=
    ((Written.plain_append (.literal rfl rfl) hcolumns).append_plain (.literal rfl rfl)).append_plain
      q.source.written_text
  have hsql : q.statement.sql = "SELECT " ++ String.intercalate ", " (q.columns.map (·.text)) ++ " FROM " ++
      q.source.text ++ (Fragment.whereClause q.condition).sql ++ (q.orderClause ++ q.windowClause) := rfl
  have hparams : q.statement.params = (Fragment.whereClause q.condition).params := by
    simp [statement, Fragment.statement]
  rw [hsql, hparams]
  cases hpaging : q.paging with
  | rows window =>
    have hwindow : q.window = window ∧ q.windowClause = window.clause := by
      simp [RowQuery.window, windowClause, hpaging]
    have hcondition : q.condition = Condition.allOf q.filter := by simp [condition, hpaging]
    rw [hwindow.1, hwindow.2, hcondition]
    exact ⟨_, "", _, 0, by simp only [String.append_assoc, String.append_empty],
      (hselect.plain_append (Condition.balanced_where_allOf q.filter)).append_plain q.written_orderClause, .empty,
      Nat.add_zero _, by simp⟩
  -- the rows of the page are cut where their keys are selected, and not a second time
  | keys page =>
    have hwindow : q.window = page.window ∧ q.windowClause = "" := by
      simp [RowQuery.window, windowClause, hpaging]
    obtain ⟨f, hf, hcuts⟩ := cuts_condition hpaging
    have hwhere : (Fragment.whereClause q.condition).sql = " WHERE " ++ f.sql ++ "" := by rw [hf]; rfl
    have hcells : (Fragment.whereClause q.condition).params = f.params := by rw [hf]; rfl
    rw [hwindow.1, hwindow.2, hwhere, hcells, String.append_empty, String.append_empty, String.append_assoc]
    have hkeyword : Written " WHERE " 0 := .literal rfl rfl
    have hend : ∀ c ∈ q.orderClause.toList.head?, c.isDigit = false := by
      intro c hc
      obtain rfl : ' ' = c := by simpa [orderClause] using hc
      rfl
    simpa using Window.Cuts.after hselect ((hcuts.after hkeyword).before q.written_orderClause hend)

theorem params_statement (q : RowQuery) : q.statement.params = q.cells := by
  simp only [statement, Fragment.statement, Fragment.params_append, Fragment.params_raw, List.nil_append,
    List.append_nil, Fragment.params_whereClause, params_condition]

end RowQuery

/-! ### Counts and aggregates -/

namespace CountQuery

theorem balanced_statement (q : CountQuery) : Written q.statement.sql q.statement.params.length := by
  cases q with
  | all table => exact Written.plain_append (.literal rfl rfl) (.quoteName table)
  | filtered key source filter =>
    have hhead : Written ("SELECT COUNT(DISTINCT " ++ key.text ++ ") FROM " ++ source.text) 0 :=
      ((Written.plain_append (.literal rfl rfl) key.written_text).append_plain (.literal rfl rfl)).append_plain source.written_text
    exact (Fragment.Balanced.raw hhead).append (Condition.balanced_where_allOf filter)

theorem params_filtered (key : ColumnRef) (source : Source) (filter : List Condition) :
    (filtered key source filter).statement.params = Condition.cellsOf filter :=
  (List.nil_append _).trans (Condition.params_where_allOf filter)

end CountQuery

theorem AggregateFunction.written_sql (f : AggregateFunction) : Written f.sql 0 := by
  cases f <;> exact .literal rfl rfl

namespace AggregateCall

theorem balanced_render (call : AggregateCall) {condition : Option Fragment} (h : ∀ f ∈ condition, f.Balanced) :
    (call.render condition).Balanced := by
  have hcol := call.column.written_text
  have hfn := call.function.written_sql
  cases condition with
  | none =>
    simp only [render]
    split
    · exact Fragment.Balanced.raw ((Written.plain_append (.literal rfl rfl) hcol).append_plain (.literal rfl rfl))
    · exact Fragment.Balanced.raw (((hfn.append_plain (.literal rfl rfl)).append_plain hcol).append_plain (.literal rfl rfl))
  | some f =>
    simp only [render]
    split
    · exact (h f rfl).wrap (.literal rfl rfl) (.literal rfl rfl)
    · exact (h f rfl).wrap (hfn.append_plain (.literal rfl rfl))
        ((Written.plain_append (.literal rfl rfl) hcol).append_plain (.literal rfl rfl))

theorem params_render (call : AggregateCall) (condition : Option Fragment) :
    (call.render condition).params = (condition.map (·.params)).getD [] := by
  cases condition with
  | none =>
    simp only [render]
    split <;> rfl
  | some f =>
    simp only [render]
    split <;> rfl

end AggregateCall

/-- The conditions of the rows that an aggregate takes in. -/
def RowChoice.conditions : RowChoice → List Condition
  | meeting conditions => conditions
  | within records => records.conditions

namespace AggregateSelect

/-- The cells of the rows' conditions, and then those of the records'. -/
def cells (a : AggregateSelect) : List Cell :=
  Condition.cellsOf a.rows.conditions ++ ((a.records.map fun r => Condition.cellsOf r.conditions).getD [])

theorem render_eq (a : AggregateSelect) :
    a.render = (a.call.render a.rows.render).wrap "SELECT " (" FROM " ++ a.source.text) ++
      Fragment.whereClause (a.records.map (·.render)) := rfl

theorem balanced_render (a : AggregateSelect) : a.render.Balanced := by
  have hrows : ∀ f ∈ a.rows.render, f.Balanced := by
    intro f hf
    cases hr : a.rows with
    | meeting conditions =>
      rw [hr] at hf
      exact Condition.balanced_allOf conditions f hf
    | within records =>
      rw [hr, RowChoice.render] at hf
      rw [← Option.some.inj hf]
      exact records.balanced_render
  have hrecords : ∀ f ∈ a.records.map SemiJoin.render, f.Balanced := by
    intro f hf
    obtain ⟨records, -, rfl⟩ := Option.map_eq_some_iff.mp hf
    exact records.balanced_render
  rw [render_eq]
  exact ((a.call.balanced_render hrows).wrap (.literal rfl rfl)
    (Written.plain_append (.literal rfl rfl) a.source.written_text)).append (Fragment.Balanced.whereClause hrecords)

theorem params_render (a : AggregateSelect) : a.render.params = a.cells := by
  have hrows : (a.rows.render.map (·.params)).getD [] = Condition.cellsOf a.rows.conditions := by
    cases a.rows with
    | meeting conditions => exact Condition.params_allOf conditions
    | within records => exact records.params_render
  simp only [render_eq, cells, Fragment.params_append, Fragment.params_wrap, AggregateCall.params_render, hrows,
    Fragment.params_whereClause, Option.map_map]
  cases a.records with
  | none => rfl
  | some records => simp [records.params_render]

end AggregateSelect

namespace AggregateQuery

theorem balanced_statement (q : AggregateQuery) : Written q.statement.sql q.statement.params.length := by
  refine (Fragment.Balanced.join (.literal rfl rfl) fun f hf => ?_).wrap (.literal rfl rfl) Written.empty
  obtain ⟨⟨a, place⟩, -, rfl⟩ := List.mem_map.mp hf
  exact a.balanced_render.wrap (.literal rfl rfl) (Written.plain_append (.literal rfl rfl) (.quoteName _))

theorem params_statement (q : AggregateQuery) : q.statement.params = q.parts.flatMap (·.cells) := by
  simp only [statement, Fragment.statement, Fragment.params_wrap, Fragment.params_join, List.flatMap_map]
  have h : ∀ (l : List AggregateSelect) (n : Nat),
      ((l.zipIdx n).flatMap fun x => x.1.render.params) = l.flatMap (·.cells) := by
    intro l
    induction l with
    | nil => exact fun _ => rfl
    | cons a rest ih =>
      intro n
      simp [List.zipIdx_cons, a.params_render, ih]
  exact h q.parts 0

end AggregateQuery

/-! ### Plans -/

theorem DeferredLink.statement_sql (l : DeferredLink) (keys : List Cell) :
    (l.statement keys).sql =
      "SELECT " ++ ColumnRef.text ⟨"l", l.links.parentKey⟩ ++ ", " ++ ColumnRef.text ⟨"l", l.links.targetKey⟩ ++
          " FROM " ++ quoteName l.links.table ++ " AS " ++ quoteName "l" ++
        (" WHERE " ++ ColumnRef.text ⟨"l", l.links.parentKey⟩ ++ " IN (" ++ placeholders keys ++ ") ORDER BY " ++
          ColumnRef.text ⟨"l", l.links.parentKey⟩ ++ " ASC, " ++ ColumnRef.text ⟨"l", l.links.targetKey⟩ ++ " ASC") :=
  rfl

theorem DeferredLink.balanced_statement (l : DeferredLink) (keys : List Cell) :
    Written (l.statement keys).sql keys.length := by
  have hparent := ColumnRef.written_text ⟨"l", l.links.parentKey⟩
  have htarget := ColumnRef.written_text ⟨"l", l.links.targetKey⟩
  have hhead : Written ("SELECT " ++ ColumnRef.text ⟨"l", l.links.parentKey⟩ ++ ", " ++
      ColumnRef.text ⟨"l", l.links.targetKey⟩ ++ " FROM " ++ quoteName l.links.table ++ " AS " ++ quoteName "l") 0 := by
    repeat' with_reducible apply Written.append_plain
    all_goals with_reducible first | exact hparent | exact htarget | exact .quoteName _ | exact .literal rfl rfl
  have hin : Written (" WHERE " ++ ColumnRef.text ⟨"l", l.links.parentKey⟩ ++ " IN (") 0 :=
    (Written.plain_append (.literal rfl rfl) hparent).append_plain (.literal rfl rfl)
  have hkeys := hin.plain_append (written_placeholders keys)
  rw [statement_sql]
  exact hhead.plain_append (((((hkeys.append_plain (.literal rfl rfl)).append_plain hparent).append_plain
    (.literal rfl rfl)).append_plain htarget).append_plain (.literal rfl rfl))

/-- Every statement of a plan binds one cell for each of its placeholders. -/
theorem FindPlan.marked_statements (p : FindPlan) : ∀ st ∈ p.statements, Marked st.2.sql st.2.params.length := by
  intro st hst
  simp only [statements, List.mem_append, List.mem_singleton, Option.mem_toList, Option.map_eq_some_iff] at hst
  rcases hst with ((rfl | ⟨q, -, rfl⟩) | ⟨q, -, rfl⟩) | ⟨q, -, rfl⟩
  · exact p.data.cuts_statement.marked
  · exact q.balanced_statement.marked
  · exact q.balanced_statement.marked
  · exact q.balanced_statement.marked

end RecordService
