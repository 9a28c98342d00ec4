import Mathlib.Algebra.Group.Nat.Defs
import RecordService.Proofs.Plan.Balance
import RecordService.Proofs.Plan.Stages

/-! # Pages

With a limit, every record up to the largest count is on exactly one page (`Window.pages_tile`): a page that is too far
away begins at the largest count, so it holds no record below. A plan writes the limit and the offset of its page once,
behind the order of the rows or inside the subquery for the keys, and nothing else of the statement is read as either
(`RowQuery.numerals_statement`). They are as large as the request makes them, which may be more than a store can read
(`FindPlan.compile_numerals`). -/

namespace RecordService
open Sql

namespace Window

variable {limit : Option Nat} {defaultLimit size n : Nat}

theorem ofPage_of_zero (h : limit.getD defaultLimit = 0) (page : Option Nat) :
    ofPage page limit defaultLimit = ⟨none, 0⟩ := by
  simp [ofPage, h]

theorem ofPage_of_pos (h : limit.getD defaultLimit = size) (hpos : 1 ≤ size) (page : Option Nat) :
    ofPage page limit defaultLimit = ⟨some size, min ((max (page.getD 1) 1 - 1) * size) maxCount⟩ := by
  obtain ⟨k, rfl⟩ := Nat.exists_eq_add_of_le' hpos
  simp [ofPage, h]

/-- A record before the largest count is on the page that division by the page size gives, and on no other. -/
theorem on_page_iff (hpos : 1 ≤ size) (hn : n < maxCount) {page : Nat} (hpage : 1 ≤ page) :
    min ((page - 1) * size) maxCount ≤ n ∧ n < min ((page - 1) * size) maxCount + size ↔ page = n / size + 1 := by
  have hdiv : n / size = page - 1 ↔ (page - 1) * size ≤ n ∧ n ≤ (page - 1) * size + size - 1 := Nat.div_eq_iff hpos
  have hunique : page = n / size + 1 ↔ n / size = page - 1 := by
    generalize n / size = place
    omega
  -- A page that begins at the largest count begins behind the record.
  rw [hunique, hdiv]
  generalize (page - 1) * size = skip
  omega

/-- The pages of a size hold every record below the largest count exactly once, in their order; page zero and a page
that is not given are the first one; and a limit of zero leaves all records on every page. -/
theorem pages_tile (limit : Option Nat) (defaultLimit : Nat) :
    (∀ size, limit.getD defaultLimit = size → 1 ≤ size →
      (∀ page, 1 ≤ page →
        ofPage (some page) limit defaultLimit = ⟨some size, min ((page - 1) * size) maxCount⟩) ∧
      ∀ n < maxCount, ∃! page, (1 ≤ page ∧ page ≤ maxCount) ∧
        (ofPage (some page) limit defaultLimit).skip ≤ n ∧
          n < (ofPage (some page) limit defaultLimit).skip + size) ∧
    (∀ page page', page ≤ page' →
      (ofPage (some page) limit defaultLimit).skip ≤ (ofPage (some page') limit defaultLimit).skip) ∧
    (∀ page ∈ [some 0, none], ofPage page limit defaultLimit = ofPage (some 1) limit defaultLimit) ∧
    (limit.getD defaultLimit = 0 → ∀ page, ofPage page limit defaultLimit = ⟨none, 0⟩) := by
  refine ⟨fun size hsize hpos => ?_, fun page page' hle => ?_, by simp [ofPage], fun h page => ofPage_of_zero h page⟩
  · have hwindow : ∀ page, 1 ≤ page →
        ofPage (some page) limit defaultLimit = ⟨some size, min ((page - 1) * size) maxCount⟩ := by
      intro page hpage
      rw [ofPage_of_pos hsize hpos, Option.getD_some, Nat.max_eq_left hpage]
    -- the record is on the page its number divided by the size says, and on no other
    refine ⟨hwindow, fun n hn => ⟨n / size + 1, ?_, ?_⟩⟩
    · have hfirst : 1 ≤ n / size + 1 := Nat.le_add_left 1 _
      have hlast : n / size + 1 ≤ maxCount := Nat.lt_of_le_of_lt (Nat.div_le_self n size) hn
      refine ⟨⟨hfirst, hlast⟩, ?_⟩
      rw [hwindow _ hfirst]
      exact (on_page_iff hpos hn hfirst).mpr rfl
    · rintro page ⟨⟨hfirst, -⟩, hon⟩
      rw [hwindow _ hfirst] at hon
      exact (on_page_iff hpos hn hfirst).mp hon
  · rcases Nat.eq_zero_or_pos (limit.getD defaultLimit) with hzero | hpos
    · simp [ofPage_of_zero hzero]
    · rw [ofPage_of_pos rfl hpos, ofPage_of_pos rfl hpos]
      have hmul : (max page 1 - 1) * limit.getD defaultLimit ≤ (max page' 1 - 1) * limit.getD defaultLimit :=
        Nat.mul_le_mul_right _ (by omega)
      simp only [Option.getD_some]
      omega

/-- The record in place 25 is on the third page of ten. -/
theorem pages_tile_ten :
    (∀ page, 1 ≤ page → ofPage (some page) (some 10) 0 = ⟨some 10, min ((page - 1) * 10) maxCount⟩) ∧
      ∃! page, (1 ≤ page ∧ page ≤ maxCount) ∧
        (ofPage (some page) (some 10) 0).skip ≤ 25 ∧ 25 < (ofPage (some page) (some 10) 0).skip + 10 := by
  obtain ⟨hwindow, hpages⟩ := (pages_tile (some 10) 0).1 10 rfl (by decide)
  exact ⟨hwindow, hpages 25 (by decide)⟩

end Window

/-! ### The clause of a page in its statement -/

/-- The numerals of a page are the limit and the offset; without a limit there are none. -/
theorem RowQuery.numerals_statement (q : RowQuery) :
    Keyword.limit.numerals q.statement.sql = q.window.limit.toList ∧
      Keyword.offset.numerals q.statement.sql = q.window.limit.toList.map fun _ => q.window.skip := by
  obtain ⟨before, rest, l, m, hsql, hbefore, hrest, -, hend⟩ := q.cuts_statement
  rw [hsql]
  cases hlimit : q.window.limit with
  | none =>
    have hclause : q.window.clause = "" := by simp [Window.clause, hlimit]
    have hfree : Free (before ++ q.window.clause ++ rest) := by
      rw [hclause]
      exact (hbefore.free.append Free.empty).append hrest.free
    exact ⟨hfree.numerals .limit, hfree.numerals .offset⟩
  | some n =>
    have hclause : q.window.clause = " LIMIT " ++ toString n ++ " OFFSET " ++ toString q.window.skip := by
      simp [Window.clause, hlimit]; rfl
    rw [hclause]
    exact numerals_clause hbefore.free hrest.free hend n q.window.skip

theorem CompiledParts.window_rowQuery (c : CompiledParts) (s : Setting) (window : Window) :
    (c.rowQuery s window).window = window := by
  unfold RowQuery.window
  rcases c.rowQuery_paging s window with h | h <;> rw [h]

namespace FindPlan

variable {catalog : Catalog} {table : String} {request : FindRequest} {options : CompileOptions} {p : FindPlan}

theorem numerals_data (h : compile catalog table request options = .ok p) :
    let window := Window.ofPage request.page request.limit options.defaultLimit
    Keyword.limit.numerals p.data.statement.sql = window.limit.toList ∧
      Keyword.offset.numerals p.data.statement.sql = window.limit.toList.map fun _ => window.skip := by
  intro window
  obtain ⟨counts, aggregates, s, c, -, -, -, -, rfl⟩ := compile_eq_ok.mp h
  have hdata : (c.plan s counts window).data = c.rowQuery s window := rfl
  have hnumerals := (c.rowQuery s window).numerals_statement
  rwa [c.window_rowQuery] at hnumerals

/-- The statement for the rows has the limit and the offset of the page, each once, and neither for a limit of zero.
They are numbers that a store has exactly if the limit and the number of records before the page are. -/
theorem compile_numerals (h : compile catalog table request options = .ok p) :
    let size := request.limit.getD options.defaultLimit
    let skip := (max (request.page.getD 1) 1 - 1) * size
    Keyword.limit.numerals p.data.statement.sql = (if size = 0 then [] else [size]) ∧
      Keyword.offset.numerals p.data.statement.sql = (if size = 0 then [] else [min skip Window.maxCount]) ∧
      ((∀ k : Keyword, ∀ n ∈ k.numerals p.data.statement.sql, n ≤ 2 ^ 63 - 1) ↔
        size ≤ 2 ^ 63 - 1 ∧ skip ≤ 2 ^ 63 - 1) := by
  intro size skip
  obtain ⟨hlimit, hoffset⟩ := numerals_data h
  have hall {sql : String} : (∀ k : Keyword, ∀ n ∈ k.numerals sql, n ≤ 2 ^ 63 - 1) ↔
      (∀ n ∈ Keyword.limit.numerals sql, n ≤ 2 ^ 63 - 1) ∧ ∀ n ∈ Keyword.offset.numerals sql, n ≤ 2 ^ 63 - 1 :=
    ⟨fun h => ⟨h .limit, h .offset⟩, fun h k => by cases k; exacts [h.1, h.2]⟩
  rw [hall, hlimit, hoffset]
  rcases Nat.eq_zero_or_pos size with hzero | hpos
  · have hskip : skip = 0 := by simp [skip, hzero]
    rw [Window.ofPage_of_zero hzero, hskip]
    simp [hzero]
  · -- The largest count is larger than any number of the store, so it makes no difference there.
    have hmax : min skip Window.maxCount ≤ 2 ^ 63 - 1 ↔ skip ≤ 2 ^ 63 - 1 := by
      have hlarge : 2 ^ 63 - 1 < Window.maxCount := by decide
      omega
    rw [Window.ofPage_of_pos rfl hpos, if_neg hpos.ne', if_neg hpos.ne']
    exact ⟨rfl, rfl, and_congr List.forall_mem_singleton (List.forall_mem_singleton.trans hmax)⟩

end FindPlan

/-- The ids of posts, on a page of ten. -/
def FindRequest.tenPosts (page : Nat) : FindRequest :=
  { FindRequest.all with fields := ["id"], limit := some 10, page := some page }

/-- The keys of the third page of five are cut within the condition. -/
theorem compile_numerals_sample :
    ∃ p, FindPlan.compile .blog "posts" { FindRequest.sample with page := some 3 } .standard = .ok p ∧
      Keyword.limit.numerals p.data.statement.sql = [5] ∧ Keyword.offset.numerals p.data.statement.sql = [10] := by
  obtain ⟨p, hp⟩ := exists_eq_ok
    (x := FindPlan.compile .blog "posts" { FindRequest.sample with page := some 3 } .standard) (by decide +kernel)
  obtain ⟨hlimit, hoffset, -⟩ := FindPlan.compile_numerals hp
  exact ⟨p, hp, hlimit, hoffset⟩

/-- A page of ten that is far away begins at the largest count, which is no number of the store. -/
theorem not_compile_numerals_far :
    ∃ p n, FindPlan.compile .blog "posts" (.tenPosts (2 ^ 63)) .standard = .ok p ∧
      n ∈ Keyword.offset.numerals p.data.statement.sql ∧ ¬n ≤ 2 ^ 63 - 1 := by
  obtain ⟨p, hp⟩ := exists_eq_ok
    (x := FindPlan.compile .blog "posts" (.tenPosts (2 ^ 63)) .standard) (by decide +kernel)
  have hoffset : Keyword.offset.numerals p.data.statement.sql = [Window.maxCount] := (FindPlan.numerals_data hp).2
  exact ⟨p, Window.maxCount, hp, hoffset ▸ List.mem_singleton_self _, by decide⟩

end RecordService
