import RecordService.Store.KeyedTable

/-! # Transactions on a keyed table

Whatever is asked of a keyed table, its keys go on ascending (`KeyedTable.Ordered.after`), so that no key stands twice, and
there is always one for a row that comes without (`KeyedTable.Ordered.insert_null`). A request that succeeds sets or removes the value of its own key and no other (`KeyedTable.value?_step`), and one
that fails changes nothing. A transaction makes the changes of all of its requests or of none
(`KeyedTable.transaction_all_or_nothing`). -/

namespace RecordService

/-- The key that a request to the table is about. -/
def TableRequest.key? (t : KeyedTable) : TableRequest → Option Int
  | insert key _ => if key.isNull then some t.nextKey else key.keyValue?
  | update key _ | delete key => key.keyValue?
  | echo _ | like .. | fail _ | malformed => none

/-- The value that a request leaves at its key, in place of the one that was there. -/
def TableRequest.leaves (before : Option Cell) : TableRequest → Option Cell
  | insert _ value => some value.stored
  | update _ value => before.map fun _ => value.stored
  | delete _ => none
  | echo _ | like .. | fail _ | malformed => before

namespace KeyedTable

variable {t t' : KeyedTable} {o : Outcome} {key value : Cell} {k k' : Int} {v : Cell} {rows : List (Int × Cell)}
  {r : TableRequest} {a : TableAnswer} {e : Error}

/-- The keys ascend. -/
def Ordered (t : KeyedTable) : Prop :=
  t.rows.Pairwise fun a b => a.1 < b.1

/-- The value of a key. -/
def value? (t : KeyedTable) (k : Int) : Option Cell :=
  t.rows.lookup k

/-! ### Rows -/

theorem mem_insertRow {row : Int × Cell} : row ∈ insertRow k v rows ↔ row = (k, v) ∨ row ∈ rows := by
  fun_induction insertRow k v rows with
  | case1 => simp
  | case2 => simp
  | case3 first w rest hle ih => rw [List.mem_cons, List.mem_cons, ih, or_left_comm]

theorem pairwise_insertRow (h : rows.Pairwise fun a b => a.1 < b.1) (hnew : ∀ row ∈ rows, row.1 ≠ k) :
    (insertRow k v rows).Pairwise fun a b => a.1 < b.1 := by
  fun_induction insertRow k v rows with
  | case1 => exact List.pairwise_singleton _ _
  | case2 first w rest hlt =>
    refine List.pairwise_cons.mpr ⟨fun row hrow => ?_, h⟩
    rcases List.mem_cons.mp hrow with rfl | hrow
    · exact hlt
    · exact Int.lt_trans hlt ((List.pairwise_cons.mp h).1 row hrow)
  | case3 first w rest hle ih =>
    obtain ⟨hfirst, hrest⟩ := List.pairwise_cons.mp h
    have hne : first ≠ k := hnew (first, w) List.mem_cons_self
    refine List.pairwise_cons.mpr ⟨fun row hrow => ?_, ih hrest fun row hrow => hnew row (List.mem_cons_of_mem _ hrow)⟩
    rcases mem_insertRow.mp hrow with rfl | hrow
    · exact (Int.le_iff_lt_or_eq.mp (Int.not_lt.mp hle)).resolve_right hne
    · exact hfirst row hrow

theorem lookup_row (row : Int × Cell) (rows : List (Int × Cell)) :
    (row :: rows).lookup k' = if row.1 = k' then some row.2 else rows.lookup k' := by
  obtain ⟨k, w⟩ := row
  rw [List.lookup_cons]
  by_cases hk : k = k'
  · simp [hk]
  · have hne : (k' == k) = false := beq_false_of_ne (Ne.symm hk)
    simp [hk, hne]

theorem lookup_insertRow (hnew : ∀ row ∈ rows, row.1 ≠ k) :
    (insertRow k v rows).lookup k' = if k = k' then some v else rows.lookup k' := by
  fun_induction insertRow k v rows with
  | case1 | case2 => exact lookup_row _ _
  | case3 first w rest hle ih =>
    have hne : first ≠ k := hnew (first, w) List.mem_cons_self
    rw [lookup_row, lookup_row, ih fun row hrow => hnew row (List.mem_cons_of_mem _ hrow)]
    by_cases hk : first = k'
    · rw [if_pos hk, if_pos hk, if_neg (hk ▸ hne.symm)]
    · rw [if_neg hk, if_neg hk]

theorem insertRow_last (h : ∀ row ∈ rows, row.1 < k) : insertRow k v rows = rows ++ [(k, v)] := by
  fun_induction insertRow k v rows with
  | case1 => rfl
  | case2 first w rest hlt => exact absurd hlt (Int.lt_asymm (h (first, w) List.mem_cons_self))
  | case3 first w rest hle ih => rw [ih fun row hrow => h row (List.mem_cons_of_mem _ hrow), List.cons_append]

/-- Setting the value of a key changes no other. -/
theorem lookup_set (key : Option Int) (v : Cell) (rows : List (Int × Cell)) :
    (rows.map fun (k, w) => if some k == key then (k, v) else (k, w)).lookup k' =
      if key = some k' then (rows.lookup k').map fun _ => v else rows.lookup k' := by
  induction rows with
  | nil => simp
  | cons row rest ih =>
    obtain ⟨k, w⟩ := row
    rw [List.map_cons, lookup_row, lookup_row, ih]
    grind

theorem lookup_remove (key : Option Int) (rows : List (Int × Cell)) :
    (rows.filter fun row => some row.1 != key).lookup k' = if key = some k' then none else rows.lookup k' := by
  induction rows with
  | nil => simp
  | cons row rest ih =>
    rw [List.filter_cons, lookup_row]
    split <;> simp only [lookup_row, ih] <;> grind

/-! ### Requests -/

/-- An insert that succeeds makes a row of a key that is not there. -/
theorem insert_eq_ok (h : t.insert key value = .ok (o, t')) :
    ∃ k, (TableRequest.insert key value).key? t = some k ∧ (∀ row ∈ t.rows, row.1 ≠ k) ∧
      t'.rows = insertRow k value.stored t.rows := by
  unfold insert at h
  split at h
  · cases h
  · next k hkey =>
    split at h
    · cases h
    · next hnew =>
      cases h
      refine ⟨k, hkey, fun row hrow heq => hnew (List.any_eq_true.mpr ⟨row, hrow, ?_⟩), rfl⟩
      simp [heq]

theorem step_insert_ok (h : t.insert key value = .ok (o, t')) :
    t.step (.insert key value) = (.ok (.changed o), t') := by
  simp [step, h]

theorem step_insert_error (h : t.insert key value = .error e) : t.step (.insert key value) = (.error e, t) := by
  simp [step, h]

/-- A request that fails changes nothing. -/
theorem step_of_error (h : (t.step r).1 = .error e) : (t.step r).2 = t := by
  cases r with
  | insert key value =>
    cases hinsert : t.insert key value with
    | ok changed => simp [step_insert_ok hinsert] at h
    | error e => rw [step_insert_error hinsert]
  | fail | malformed => rfl
  | update | delete | echo | like => cases h

/-- A request that succeeds changes the value of its key, and no other value. -/
theorem value?_step (h : (t.step r).1 = .ok a) :
    (t.step r).2.value? k = if r.key? t = some k then r.leaves (t.value? k) else t.value? k := by
  cases r with
  | insert key value =>
    cases hinsert : t.insert key value with
    | ok changed =>
      obtain ⟨k', hkey, hnew, hrows⟩ := insert_eq_ok hinsert
      rw [step_insert_ok hinsert, hkey, value?, hrows, lookup_insertRow hnew]
      simp only [Option.some.injEq]
      rfl
    | error e => simp [step_insert_error hinsert] at h
  | update key value => exact lookup_set key.keyValue? value.stored t.rows
  | delete key => exact lookup_remove key.keyValue? t.rows
  | echo | like => rfl
  | fail | malformed => cases h

namespace Ordered

/-- Whatever is asked, the keys go on ascending. -/
theorem step (h : t.Ordered) (r : TableRequest) : (t.step r).2.Ordered := by
  cases r with
  | insert key value =>
    cases hinsert : t.insert key value with
    | ok changed =>
      obtain ⟨k, -, hnew, hrows⟩ := insert_eq_ok hinsert
      rw [step_insert_ok hinsert, Ordered, hrows]
      exact pairwise_insertRow h hnew
    | error e => rwa [step_insert_error hinsert]
  | update key value =>
    refine List.pairwise_map.mpr (h.imp fun {a b} hlt => ?_)
    dsimp only
    split <;> split <;> exact hlt
  | delete key => exact h.filter _
  | _ => exact h

theorem steps (h : t.Ordered) (requests : List TableRequest) : (t.steps requests).2.2.Ordered := by
  induction requests generalizing t with
  | nil => exact h
  | cons r rest ih =>
    have hstep := h.step r
    unfold KeyedTable.steps
    split <;> rename_i hr <;> rw [hr] at hstep
    · exact ih hstep
    · exact hstep

theorem transaction (h : t.Ordered) (requests : List TableRequest) : (t.transaction requests).2.2.Ordered := by
  unfold KeyedTable.transaction
  dsimp only
  split
  · exact h
  · exact h.steps requests

/-- So they do after any transactions on an empty table. -/
theorem after (batches : List (List TableRequest)) :
    (batches.foldl (fun t requests => (t.transaction requests).2.2) empty).Ordered :=
  List.foldlRecOn batches _ .nil fun _ h requests _ => h.transaction requests

theorem lt_nextKey (h : t.Ordered) : ∀ row ∈ t.rows, row.1 < t.nextKey := by
  intro row hrow
  unfold nextKey
  cases hlast : t.rows.getLast? with
  | none => simp [List.getLast?_eq_none_iff.mp hlast] at hrow
  | some last =>
    obtain ⟨front, hrows⟩ := List.getLast?_eq_some_iff.mp hlast
    rw [Ordered, hrows, List.pairwise_append] at h
    rw [hrows, List.mem_append, List.mem_singleton] at hrow
    rcases hrow with hfront | rfl
    · exact Int.lt_add_one_of_le (Int.le_of_lt (h.2.2 row hfront last (List.mem_singleton.mpr rfl)))
    · exact Int.lt_succ row.1

/-- An insert without a key never fails: its row comes last. -/
theorem insert_null (h : t.Ordered) (value : Cell) :
    ∃ o t', t.insert .null value = .ok (o, t') ∧ t'.rows = t.rows ++ [(t.nextKey, value.stored)] := by
  have hnew : ¬(t.rows.any (·.1 == t.nextKey) = true) := by
    rw [List.any_eq_true]
    rintro ⟨row, hrow, heq⟩
    exact absurd (beq_iff_eq.mp heq) (Int.ne_of_lt (h.lt_nextKey row hrow))
  have hinsert : t.insert .null value = .ok ((⟨insertRow t.nextKey value.stored t.rows, t.nextKey⟩ : KeyedTable).outcome 1,
      ⟨insertRow t.nextKey value.stored t.rows, t.nextKey⟩) := if_neg hnew
  exact ⟨_, _, hinsert, insertRow_last h.lt_nextKey⟩

end Ordered

/-! ### Transactions -/

/-- Requests either all succeed, or the first that fails is the last that is seen. -/
theorem steps_cases (t : KeyedTable) (requests : List TableRequest) :
    (∃ answers, t.steps requests = (answers, none, requests.foldl (fun t r => (t.step r).2) t) ∧
        answers.length = requests.length) ∨
      ∃ answers e before r after later, t.steps requests = (answers, some e, later) ∧
        requests = before ++ r :: after ∧ answers.length = before.length ∧
        ((before.foldl (fun t r => (t.step r).2) t).step r).1 = .error e := by
  induction requests generalizing t with
  | nil => exact .inl ⟨[], rfl, rfl⟩
  | cons r rest ih =>
    cases hr : t.step r with
    | mk result next =>
    cases result with
    | error e => exact .inr ⟨[], e, [], r, rest, next, by rw [steps, hr], rfl, rfl, congrArg Prod.fst hr⟩
    | ok a =>
      obtain ⟨answers, hall, hlength⟩ | ⟨answers, e, before, failed, after, later, hsome, rfl, hlength, hfailed⟩ := ih next
      · exact .inl ⟨a :: answers, by simp [steps, hr, hall], by simp [hlength]⟩
      · exact .inr ⟨a :: answers, e, r :: before, failed, after, later, by simp [steps, hr, hsome], rfl, by simp [hlength],
          by simpa [hr] using hfailed⟩

/-- A transaction makes the changes of all requests, or it fails with the first of them that does and leaves the rows as
they were. -/
theorem transaction_all_or_nothing (t : KeyedTable) (requests : List TableRequest) :
    match (t.transaction requests).2.1 with
    | none => (t.transaction requests).1.length = requests.length ∧
        (t.transaction requests).2.2 = requests.foldl (fun t r => (t.step r).2) t
    | some e => (t.transaction requests).2.2.rows = t.rows ∧ ∃ before r after, requests = before ++ r :: after ∧
        (t.transaction requests).1.length = before.length ∧
        ((before.foldl (fun t r => (t.step r).2) t).step r).1 = .error e := by
  obtain ⟨answers, hall, hlength⟩ | ⟨answers, e, before, r, after, later, hsome, hsplit, hlength, hfailed⟩ :=
    t.steps_cases requests
  · rw [transaction, hall]
    exact ⟨hlength, rfl⟩
  · rw [transaction, hsome]
    exact ⟨rfl, before, r, after, hsplit, hlength, hfailed⟩

/-- A failure in the second place takes the first insert back, but not the key that it was given. -/
example : (empty.transaction [.insert .null (.int 7), .fail "no", .delete (.int 1)]).2.2 = ⟨[], 1⟩ := by
  decide

end KeyedTable
end RecordService
