import RecordService.Proofs.Plan.Parents
import RecordService.Proofs.Sql.Mentions

/-! # Orders of records

The keys that a sort list is compiled to are the columns that its terms stand for, each once and in the direction of its
first term, and the key of the root closes them (`SortKey.listOf_named`). Whatever else a request joins, each key is a
function of the record, so that pages follow from the records alone, and a page of keys is cut from the order in which
its rows are returned (`SortKey.listOf_ordered`). Names of relations that make paths ambiguous are an exception: a sort
may then go by a to-many relation (`not_listOf_ordered_illegible`). -/

namespace RecordService

/-! ### Keys -/

namespace SortKey

variable {keys named : List SortKey} {k : SortKey} {c : Sql.ColumnRef}

/-- The keys without those whose column an earlier one has. -/
def firsts (keys : List SortKey) : List SortKey :=
  keys.eraseDupsBy fun k k' => k.column == k'.column

theorem firsts_cons (k : SortKey) (rest : List SortKey) :
    firsts (k :: rest) = k :: firsts (rest.filter fun k' => !(k'.column == k.column)) := by
  have hrest : rest.filter (fun k' => decide ((k'.column == k.column) = false)) =
      rest.filter fun k' => !(k'.column == k.column) :=
    List.filter_congr fun k' _ => by cases k'.column == k.column <;> rfl
  rw [firsts, List.eraseDupsBy_cons, hrest, firsts]

theorem insert_of_mem (h : k.column ∈ keys.map (·.column)) : insert keys k = keys := by
  obtain ⟨k', hk', hcolumn⟩ := List.mem_map.mp h
  have hany : keys.any (·.column == k.column) = true := List.any_eq_true.mpr ⟨k', hk', beq_iff_eq.mpr hcolumn⟩
  exact if_pos hany

theorem insert_of_not_mem (h : k.column ∉ keys.map (·.column)) : insert keys k = keys ++ [k] := by
  refine if_neg fun hany => h ?_
  obtain ⟨k', hk', hcolumn⟩ := List.any_eq_true.mp hany
  exact List.mem_map.mpr ⟨k', hk', beq_iff_eq.mp hcolumn⟩

/-- Inserting keys one after the other adds the first of each new column. -/
theorem foldl_insert : ∀ (more keys : List SortKey),
    more.foldl insert keys = keys ++ firsts (more.filter fun k => !keys.any (·.column == k.column))
  | [], keys => (List.append_nil keys).symm
  | k :: rest, keys => by
    rw [List.foldl_cons, foldl_insert rest, List.filter_cons]
    by_cases hk : k.column ∈ keys.map (·.column)
    · have hany : keys.any (·.column == k.column) = true := by simpa using hk
      simp [insert_of_mem hk, hany]
    · have hany : keys.any (·.column == k.column) = false := by simpa using hk
      have hlater : rest.filter (fun k' => !(keys ++ [k]).any (·.column == k'.column)) =
          (rest.filter fun k' => !keys.any (·.column == k'.column)).filter fun k' => !(k'.column == k.column) := by
        rw [List.filter_filter]
        refine List.filter_congr fun k' _ => ?_
        have hsymm : (k.column == k'.column) = (k'.column == k.column) := Bool.beq_comm
        simp [Bool.and_comm, hsymm]
      rw [insert_of_not_mem hk, hlater, hany]
      simp [firsts_cons]

theorem nodup_insert (h : (keys.map (·.column)).Nodup) (k : SortKey) : ((insert keys k).map (·.column)).Nodup := by
  by_cases hk : k.column ∈ keys.map (·.column)
  · rwa [insert_of_mem hk]
  · rw [insert_of_not_mem hk, List.map_append]
    exact List.nodup_append.mpr ⟨h, List.nodup_singleton _, by simpa using hk⟩

theorem nodup_foldl_insert (more : List SortKey) (h : (keys.map (·.column)).Nodup) :
    ((more.foldl insert keys).map (·.column)).Nodup := by
  induction more generalizing keys with
  | nil => exact h
  | cons k rest ih => exact ih (nodup_insert h k)

theorem mem_foldl_insert : ∀ {more keys : List SortKey},
    c ∈ (more.foldl insert keys).map (·.column) ↔ c ∈ keys.map (·.column) ∨ c ∈ more.map (·.column)
  | [], keys => by simp
  | k :: rest, keys => by
    rw [List.foldl_cons, mem_foldl_insert]
    by_cases hk : k.column ∈ keys.map (·.column)
    · rw [insert_of_mem hk, List.map_cons, List.mem_cons]
      constructor
      · tauto
      · rintro (h | rfl | h)
        · exact Or.inl h
        · exact Or.inl hk
        · exact Or.inr h
    · simp [insert_of_not_mem hk, or_assoc]

end SortKey

variable {s : Setting} {d d' : Draft}

/-- The key is of the column that the term stands for, in the direction of the term. -/
structure SortTerm.Orders (t : SortTerm) (s : Setting) (p : JoinPlan) (k : SortKey) : Prop where
  column : p.Denotes s .forSort t.path k.column
  direction : k.descending = t.descending

theorem SortTerm.Orders.mono {t : SortTerm} {p p' : JoinPlan} {k : SortKey} (h : t.Orders s p k) (hext : p.Extends p') :
    t.Orders s p' k :=
  ⟨h.column.mono hext, h.direction⟩

/-- The terms that lead somewhere, and their keys. -/
def SortTerm.Named (s : Setting) (p : JoinPlan) (terms : List SortTerm) (named : List SortKey) : Prop :=
  List.Forall₂ (fun t k => t.Orders s p k) (terms.filter fun t => !s.loses t.path) named

theorem SortTerm.Named.mono {terms : List SortTerm} {named : List SortKey} {p p' : JoinPlan}
    (h : Named s p terms named) (hext : p.Extends p') : Named s p' terms named :=
  h.imp fun _ _ horders => horders.mono hext

theorem SortTerm.Named.denotes {terms : List SortTerm} {named : List SortKey} {p : JoinPlan} {k : SortKey}
    (h : Named s p terms named) (hk : k ∈ named) : ∃ path, p.Denotes s .forSort path k.column := by
  unfold Named at h
  generalize terms.filter (fun t => !s.loses t.path) = kept at h
  induction h with
  | nil => cases hk
  | @cons t first _ _ horders _ ih =>
    rcases List.mem_cons.mp hk with rfl | hk
    · exact ⟨t.path, horders.column⟩
    · exact ih hk

namespace SortKey

theorem compileAll_named : ∀ {terms : List SortTerm} {keys keys' : List SortKey} {d d' : Draft}, d.plan.Regular →
    compileAll s terms keys d = .ok (keys', d') →
      ∃ named, SortTerm.Named s d'.plan terms named ∧ keys' = named.foldl insert keys
  | [], keys, _, d, _, _, h => by
    cases h
    exact ⟨[], .nil, rfl⟩
  | t :: rest, keys, keys', d, d', hp, h => by
    obtain ⟨column, d₁, hterm, hrest⟩ := compileAll_cons_eq_ok.mp h
    have hp₁ := (SortTerm.compile_crosses hp hterm).gains.regular hp
    have hext := (compileAll_crosses hp₁ hrest).gains.toExtends
    obtain ⟨named, hnamed, rfl⟩ := compileAll_named hp₁ hrest
    rcases SortTerm.compile_denotes hp hterm with ⟨hlost, rfl⟩ | ⟨hkept, ref, rfl, hdenotes⟩
    · refine ⟨named, ?_, rfl⟩
      rw [SortTerm.Named, List.filter_cons, hlost]
      exact hnamed
    · refine ⟨⟨ref, t.descending⟩ :: named, ?_, rfl⟩
      rw [SortTerm.Named, List.filter_cons, hkept]
      exact .cons ⟨hdenotes.mono hext, rfl⟩ hnamed

/-- The keys are those of the terms in order, each column once, and the root's key at the end if no term stands for
it. -/
theorem listOf_named {terms : List SortTerm} {keys : List SortKey} (hp : d.plan.Regular)
    (h : listOf s terms d = .ok (keys, d')) :
    ∃ named, SortTerm.Named s d'.plan terms named ∧
      keys = (named ++ [SortKey.mk ⟨d'.plan.root, s.root.primaryKey⟩ false]).foldl insert [] := by
  obtain ⟨own, hown, rfl⟩ := listOf_eq_ok.mp h
  obtain ⟨named, hnamed, rfl⟩ := compileAll_named hp hown
  refine ⟨named, hnamed, ?_⟩
  rw [List.foldl_append, List.foldl_cons, List.foldl_nil]

/-- Inserted last, a key closes the others unless one of them has its column. -/
theorem foldl_insert_concat (named : List SortKey) (k : SortKey) : (named ++ [k]).foldl insert [] =
    if k.column ∈ named.map (·.column) then firsts named else firsts named ++ [k] := by
  have hfirsts : named.foldl insert [] = firsts named := by
    have hall : named.filter (fun k => !([] : List SortKey).any (·.column == k.column)) = named :=
      List.filter_eq_self.mpr fun _ _ => rfl
    rw [foldl_insert, List.nil_append, hall]
  have hmem : k.column ∈ (firsts named).map (·.column) ↔ k.column ∈ named.map (·.column) := by
    rw [← hfirsts, mem_foldl_insert]
    simp
  rw [List.foldl_append, hfirsts, List.foldl_cons, List.foldl_nil]
  split
  · rename_i hk
    exact insert_of_mem (hmem.mpr hk)
  · rename_i hk
    exact insert_of_not_mem (hmem.not.mpr hk)

end SortKey

/-! ### Values of keys -/

/-- The value of a column follows from the record, in the same way for all FROM clauses that have the joins of sorts. -/
def JoinPlan.Determines (p : JoinPlan) (db : Database) (ref : Sql.ColumnRef) : Prop :=
  ∃ value : TableRow → Cell, ∀ w, Usage.forSort.meets w = true → ∀ table : String,
    ∀ row ∈ (Source.mk table p.root (p.joinsFor w)).rows db, row ref.tableAlias ref.column = value (row p.root)

theorem JoinPlan.determines_root (p : JoinPlan) (db : Database) (column : String) : p.Determines db ⟨p.root, column⟩ :=
  ⟨fun row => row column, fun _ _ _ _ _ => rfl⟩

namespace JoinPlan.Orderly

variable {p : JoinPlan} {db : Database} (halias : CompileOptions.aliasFault? s.options.rootAlias = none)
  (hp : p.Orderly s) (hnames : s.catalog.Legible) (hroot : s.root ∈ s.catalog.tables)
  (hdb : ∀ j ∈ p.joins, j.many = false → j.Functional db)
include halias hp hnames hroot hdb

/-- Where to-one joins are functional, the columns of the table on the way of a sort term follow from the record. -/
theorem determines {segments : List String} {tableAlias : String} {table : Table}
    (h : p.Located s .forSort segments tableAlias table) (column : String) : p.Determines db ⟨tableAlias, column⟩ := by
  obtain ⟨hops, path, htrail, -⟩ := h
  obtain ⟨value, hvalue⟩ := hp.rows_trail halias hnames hroot hdb htrail
  exact ⟨fun row => value row column, fun w hw from' row hrow => congrFun (hvalue w hw from' row hrow) column⟩

theorem determines_denoted {path : Path} {ref : Sql.ColumnRef} (h : p.Denotes s .forSort path ref) :
    p.Determines db ref := by
  unfold Denotes at h
  split at h
  · obtain ⟨tableAlias, table, hlocated, rfl⟩ := h
    exact hp.determines halias hnames hroot hdb hlocated _
  · obtain ⟨tableAlias, hlocated, rfl⟩ := h
    exact hp.determines halias hnames hroot hdb hlocated _
  · cases h

theorem determines_key {terms : List SortTerm} {named : List SortKey} {k : SortKey}
    (hnamed : SortTerm.Named s p terms named) {column : String}
    (hk : k ∈ (named ++ [SortKey.mk ⟨p.root, column⟩ false]).foldl SortKey.insert []) : p.Determines db k.column := by
  rcases SortKey.mem_foldl_insert.mp (List.mem_map_of_mem hk) with hk | hk
  · cases hk
  · obtain ⟨k', hk', hcolumn⟩ := List.mem_map.mp hk
    rw [← hcolumn]
    rcases List.mem_append.mp hk' with hk' | hk'
    · obtain ⟨path, hdenotes⟩ := hnamed.denotes hk'
      exact hp.determines_denoted halias hnames hroot hdb hdenotes
    · rw [List.mem_singleton.mp hk']
      exact p.determines_root db column

end JoinPlan.Orderly

/-! ### Texts of orders -/

namespace KeyPage

theorem sortName_injective : Function.Injective sortName := by
  intro i k h
  have hlist := congrArg String.toList (Sql.quoteName_injective h)
  rw [String.toList_append, String.toList_append, toList_toString_nat, toList_toString_nat] at hlist
  exact toDigits_inj (List.append_cancel_left hlist)

/-- The names of the values of a page. -/
def labels (page : KeyPage) : List String :=
  (List.range page.sort.length).map sortName

theorem nodup_labels (page : KeyPage) : page.labels.Nodup :=
  List.Nodup.map sortName_injective List.nodup_range

theorem map_zipIdx_labels (page : KeyPage) (f : SortKey → String → String) :
    (page.sort.zipIdx.map fun x => f x.1 (sortName x.2)) = List.zipWith f page.sort page.labels := by
  rw [labels, List.zipIdx_eq_zip_range', ← List.range_eq_range', List.zip_eq_zipWith, List.map_zipWith,
    List.zipWith_map_right]

end KeyPage

namespace RowQuery

/-- The subquery of a page selects the value of each key of the query under a name of its own, and goes by these names
in the order and the directions of the keys. The query goes by the keys themselves first. -/
structure PagedBy (q : RowQuery) (page : KeyPage) : Prop where
  sort : page.sort = q.sort
  outer : ∃ before related, q.statement.sql = before ++ page.render.sql ++ " ORDER BY " ++
    String.intercalate ", " (q.sort.map (·.text) ++ related)
  inner : ∃ (labels : List String) (before between after : String),
    labels.Nodup ∧ labels.length = q.sort.length ∧
      page.render.sql = before ++ "SELECT DISTINCT " ++ page.key.text ++ " AS " ++ Sql.quoteName "k" ++ ", " ++
        String.intercalate ", " (List.zipWith (fun k label => k.column.text ++ " AS " ++ label) q.sort labels) ++
          " FROM " ++ between ++ " ORDER BY " ++
            String.intercalate ", " (List.zipWith SortKey.textAs q.sort labels) ++ page.window.clause ++ after

/-- The subquery of a page is the last part of the condition on the rows. -/
theorem whereClause_condition {q : RowQuery} {page : KeyPage} (h : q.paging = .keys page) :
    ∃ before, (Sql.Fragment.whereClause q.condition).sql = before ++ page.render.sql := by
  unfold condition
  rw [h]
  cases Condition.allOf q.filter with
  | none => exact ⟨" WHERE ", String.append_empty⟩
  | some filter =>
    refine ⟨" WHERE " ++ (filter.sql ++ Sql.Connective.and.text), ?_⟩
    show " WHERE " ++ (filter.sql ++ Sql.Connective.and.text ++ page.render.sql) ++ "" = _
    simp only [String.append_assoc, String.append_empty]

theorem pagedBy {q : RowQuery} {page : KeyPage} (hsort : page.sort = q.sort) (h : q.paging = .keys page) :
    q.PagedBy page where
  sort := hsort
  outer := by
    obtain ⟨before, hbefore⟩ := whereClause_condition h
    let columns := String.intercalate ", " (q.columns.map (·.text))
    let select := s!"SELECT {columns} FROM {q.source.text}"
    refine ⟨select ++ before, q.relatedKeys.map fun c => orderTerm c.text false, ?_⟩
    show select ++ (Sql.Fragment.whereClause q.condition).sql ++ (q.orderClause ++ q.windowClause) = _
    rw [hbefore, windowClause, h, orderClause]
    simp only [String.append_assoc, String.append_empty]
  inner := by
    let order := page.sort.zipIdx.map fun x => x.1.textAs (KeyPage.sortName x.2)
    let values := page.sort.zipIdx.map fun x => x.1.column.text ++ " AS " ++ KeyPage.sortName x.2
    have horder : order = List.zipWith SortKey.textAs q.sort page.labels :=
      (page.map_zipIdx_labels SortKey.textAs).trans (hsort ▸ rfl)
    have hvalues : values = List.zipWith (fun k label => k.column.text ++ " AS " ++ label) q.sort page.labels :=
      (page.map_zipIdx_labels fun k label => k.column.text ++ " AS " ++ label).trans (hsort ▸ rfl)
    let filter := (Sql.Fragment.whereClause (Condition.allOf page.filter)).sql
    refine ⟨page.labels, page.key.text ++ " IN (SELECT " ++ Sql.ColumnRef.text ⟨"w", "k"⟩ ++ " FROM (",
      page.source.text ++ filter, ") AS " ++ Sql.quoteName "w" ++ ")", page.nodup_labels, ?_, ?_⟩
    · rw [KeyPage.labels, List.length_map, List.length_range, hsort]
    · rw [← horder, ← hvalues]
      show page.key.text ++ " IN (SELECT " ++ Sql.ColumnRef.text ⟨"w", "k"⟩ ++ " FROM (" ++
        ("SELECT DISTINCT " ++ page.key.text ++ " AS " ++ Sql.quoteName "k" ++ ", " ++ String.intercalate ", " values ++
          " FROM " ++ page.source.text ++ filter ++ (" ORDER BY " ++ String.intercalate ", " order ++ page.window.clause)) ++
            (") AS " ++ Sql.quoteName "w" ++ ")") = _
      simp only [String.append_assoc]

end RowQuery

/-! ### Requests -/

/-- The statements that a query for rows has: its own, and that of its page. -/
def RowQuery.sources (q : RowQuery) : List Source :=
  match q.paging with
  | .rows _ => [q.source]
  | .keys page => [q.source, page.source]

/-- How the rows of a request are ordered that has the terms as its sort list. -/
structure CompiledParts.Ordered (c : CompiledParts) (s : Setting) (terms : List SortTerm) : Prop where
  /-- No expression is there twice. -/
  distinct : (c.sort.map (·.column.text)).Nodup
  /-- The key of the root is there once. -/
  root : (c.sort.map (·.column)).count (c.rootKey s) = 1
  /-- The columns of the terms come first, in order of first mention, and the root's key last if it is none of them. -/
  terms : ∃ named, SortTerm.Named s c.draft.plan terms named ∧ c.sort =
    if c.rootKey s ∈ named.map (·.column) then SortKey.firsts named
    else SortKey.firsts named ++ [⟨c.rootKey s, false⟩]
  /-- Sorts need no join that leads to many records. -/
  toOne : s.catalog.Legible → ∀ j ∈ c.draft.plan.joins, j.usage.sort = true → j.many = false
  /-- Each key is one function of the record in all rows, those of a page and those that are returned. -/
  values : s.catalog.Legible → ∀ db : Database, (∀ j ∈ c.draft.plan.joins, j.many = false → j.Functional db) →
    ∀ k ∈ c.sort, ∃ value : TableRow → Cell, ∀ window, ∀ source ∈ (c.rowQuery s window).sources, ∀ row ∈ source.rows db,
      row k.column.tableAlias k.column.column = value (row source.tableAlias)
  /-- The query has these keys, and its page is cut by them. -/
  paged : ∀ window, (c.rowQuery s window).sort = c.sort ∧
    ∀ page, (c.rowQuery s window).paging = .keys page → (c.rowQuery s window).PagedBy page

namespace CompiledParts

variable {c : CompiledParts}

/-- All FROM clauses of a query for rows have the joins of sorts. -/
theorem sources_rowQuery {window : Window} {source : Source} (h : source ∈ (c.rowQuery s window).sources) :
    ∃ w, Usage.forSort.meets w = true ∧ source = c.source s (c.draft.plan.joinsFor w) := by
  unfold RowQuery.sources rowQuery at h
  split at h
  · exact ⟨.forRows, rfl, List.mem_singleton.mp h⟩
  · rename_i page hpaging
    rcases List.mem_pair.mp h with rfl | rfl
    · exact ⟨.forRows, rfl, rfl⟩
    · simp only at hpaging
      split at hpaging
      · cases hpaging
        exact ⟨_, rfl, rfl⟩
      · cases hpaging

theorem paged_rowQuery (window : Window) : (c.rowQuery s window).sort = c.sort ∧
    ∀ page, (c.rowQuery s window).paging = .keys page → (c.rowQuery s window).PagedBy page := by
  refine ⟨rfl, fun page hpaging => RowQuery.pagedBy ?_ hpaging⟩
  unfold rowQuery at hpaging
  simp only at hpaging
  split at hpaging
  · cases hpaging
    rfl
  · cases hpaging

/-- The parts of a request are compiled in stages, one of which is the sort list. -/
theorem compile_stages {request : FindRequest} {requests : List AggregateRequest}
    (h : compile s request requests = .ok c) : ∃ d d₁, s.Stages ⟨.start s.options.rootAlias, []⟩ d ∧
      SortKey.listOf s (SortTerm.listOf request.sort) d = .ok (c.sort, d₁) ∧ s.Stages d₁ c.draft := by
  obtain ⟨d₁, d₂, d₃, hfields, hfilter, hsort, haggregates⟩ := compile_eq_ok.mp h
  exact ⟨d₂, d₃, .tail (.single (.fields hfields)) (.filter hfilter), hsort, .single (.aggregates haggregates)⟩

end CompiledParts

/-- Sort lists compile to orders of records, after any stages and whatever comes after. -/
theorem SortKey.listOf_ordered {catalog : Catalog} {table : String} {options : CompileOptions} {d₁ : Draft}
    {terms : List SortTerm} {keys : List SortKey} (hsetting : FindPlan.setting catalog table options = .ok s)
    (hbefore : s.Stages ⟨.start s.options.rootAlias, []⟩ d) (h : listOf s terms d = .ok (keys, d₁))
    (hafter : s.Stages d₁ d') (projection : Projection) (filter : List Condition) (aggregates : List AggregateTerm) :
    CompiledParts.Ordered ⟨projection, filter, keys, aggregates, d'⟩ s terms := by
  obtain ⟨hcheck, root, htable, rfl⟩ := FindPlan.setting_eq_ok.mp hsetting
  have hroot : root ∈ catalog.tables := Catalog.mem_of_table? htable
  have halias := CompileOptions.aliasFault?_of_check hcheck
  have hp := (hbefore.orderly hroot (JoinPlan.orderly_start _)).1
  have hp₁ := (listOf_orderly hp h).1
  obtain ⟨hp', hext⟩ := hafter.orderly hroot hp₁
  obtain ⟨named, hnamed, rfl⟩ := listOf_named hp.regular h
  have hrootAlias : d₁.plan.root = d'.plan.root := hp₁.root.trans hp'.root.symm
  rw [hrootAlias]
  have hcolumns : (((named ++ [SortKey.mk ⟨d'.plan.root, root.primaryKey⟩ false]).foldl insert []).map (·.column)).Nodup :=
    nodup_foldl_insert _ List.nodup_nil
  refine ⟨?distinct, ?root, ⟨named, hnamed.mono hext, foldl_insert_concat _ _⟩, fun hnames j hj hsort => ?toOne,
    fun hnames db hdb k hk => ?values, fun window => CompiledParts.paged_rowQuery window⟩
  case distinct =>
    have htexts := hcolumns.map Sql.ColumnRef.text_injective
    rwa [List.map_map] at htexts
  case root =>
    refine List.count_eq_one_of_mem hcolumns (mem_foldl_insert.mpr (Or.inr ?_))
    exact List.mem_map_of_mem (List.mem_append_right _ (List.mem_singleton.mpr rfl))
  case toOne =>
    exact hp'.toOne hnames hroot hj (by simpa [Usage.meets, Usage.forSort] using hsort)
  case values =>
    obtain ⟨value, hvalue⟩ := hp'.determines_key halias hnames hroot hdb (hnamed.mono hext) hk
    refine ⟨value, fun window source hsource => ?_⟩
    obtain ⟨w, hw, rfl⟩ := CompiledParts.sources_rowQuery hsource
    exact hvalue w hw root.name

/-- Posts with their tags by the name and then by the key of the author, with terms that are there again, or that lead
nowhere. -/
def FindRequest.ordered : FindRequest :=
  { FindRequest.all with
    fields := ["title", "tags.label"]
    sort := ["-author.name, author, nowhere", "author.name, -author.id"] }

theorem listOf_ordered_blog : ∃ c page, CompiledParts.compile .blog .ordered [] = .ok c ∧ Catalog.blog.Legible ∧
    c.Ordered .blog (SortTerm.listOf FindRequest.ordered.sort) ∧
    c.sort.map (·.text) = ["\"j1\".\"name\" DESC", "\"j1\".\"id\" ASC", "\"r\".\"id\" ASC"] ∧
    (c.draft.plan.joins.map fun j => (j.path, j.usage.sort, j.many)) =
      [("tags", false, true), ("author", true, false)] ∧
    (c.rowQuery .blog ⟨some 10, 0⟩).paging = .keys page ∧ (c.rowQuery .blog ⟨some 10, 0⟩).PagedBy page := by
  obtain ⟨c, hc⟩ := exists_eq_ok (x := CompiledParts.compile .blog .ordered []) (by decide +kernel)
  have hfound : (CompiledParts.compile .blog .ordered []).toOption.map (fun c =>
      (c.sort.map (·.text), c.draft.plan.joins.map fun j => (j.path, j.usage.sort, j.many),
        c.draft.plan.hasMany .forRows)) =
      some (["\"j1\".\"name\" DESC", "\"j1\".\"id\" ASC", "\"r\".\"id\" ASC"],
        [("tags", false, true), ("author", true, false)], true) := by
    decide +kernel
  rw [hc] at hfound
  simp only [Except.toOption, Option.map_some, Option.some.injEq, Prod.mk.injEq] at hfound
  obtain ⟨hsort, hjoins, hmany⟩ := hfound
  obtain ⟨d, d₁, hbefore, hlist, hafter⟩ := CompiledParts.compile_stages hc
  have hordered := SortKey.listOf_ordered FindPlan.setting_blog hbefore hlist hafter c.projection c.filter c.aggregates
  have hwindowed : ((some 10).isSome && c.draft.plan.hasMany .forRows) = true := by rw [hmany]; rfl
  exact ⟨c, _, hc, Catalog.pathSafe_blog.legible, hordered, hsort, hjoins, if_pos hwindowed,
    (hordered.paged _).2 _ (if_pos hwindowed)⟩

/-! ### Illegible names

A filter may have joined a to-many relation on the path of a to-one relation that a sort term crosses. -/

def FindRequest.misled : FindRequest :=
  { FindRequest.mistaken with
    sort := ["x.v, z.y.v"]
    aggregate := .null }

/-- The sort goes by columns of the to-many relations of the filter. -/
theorem not_listOf_ordered_illegible : ∃ p, FindPlan.compile .illegible "a" .misled .standard = .ok p ∧
    p.data.sort.map (·.text) = ["\"j1\".\"v\" ASC", "\"j2\".\"v\" ASC", "\"r\".\"id\" ASC"] ∧
    (p.data.source.joins.map fun j => (j.tableAlias, j.usage.sort, j.many)) =
      [("j0", false, false), ("j1", true, true), ("j2", true, true), ("j3", true, false)] ∧
    ¬∀ j ∈ p.data.source.joins, j.usage.sort = true → j.many = false := by
  obtain ⟨p, hp⟩ := exists_eq_ok (x := FindPlan.compile .illegible "a" .misled .standard) (by decide +kernel)
  have hfound : (FindPlan.compile .illegible "a" .misled .standard).toOption.map (fun p =>
      (p.data.sort.map (·.text), p.data.source.joins.map fun j => (j.tableAlias, j.usage.sort, j.many))) =
      some (["\"j1\".\"v\" ASC", "\"j2\".\"v\" ASC", "\"r\".\"id\" ASC"],
        [("j0", false, false), ("j1", true, true), ("j2", true, true), ("j3", true, false)]) := by
    decide +kernel
  rw [hp] at hfound
  obtain ⟨hsort, hjoins⟩ := Prod.mk.inj (Option.some.inj hfound)
  refine ⟨p, hp, hsort, hjoins, fun hone => ?_⟩
  have hmem : ("j1", true, true) ∈ p.data.source.joins.map fun j => (j.tableAlias, j.usage.sort, j.many) :=
    hjoins ▸ List.mem_cons_of_mem _ List.mem_cons_self
  obtain ⟨j, hj, heq⟩ := List.mem_map.mp hmem
  obtain ⟨-, husage, hmany⟩ : j.tableAlias = "j1" ∧ j.usage.sort = true ∧ j.many = true := by
    simpa using heq
  rw [hone j hj husage] at hmany
  cases hmany

end RecordService
