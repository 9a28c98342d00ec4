import RecordService.Sql.Fragment

/-! # Placeholders

A reader of SQL text goes from left to right and skips names in double quotes and literals in single quotes, inside
which a doubled quote stands for the quote itself. Every `?` that is left is a placeholder (`placeholders?`). A text is
`Marked` when it begins and ends outside of quotes; marked texts may be written one after the other. -/

namespace RecordService.Sql

/-- What a place in a text is part of. -/
inductive Region where
  | code
  /-- A name in double quotes. -/
  | name
  /-- A literal in single quotes. -/
  | literal
deriving DecidableEq, Repr

/-- The number of placeholders in the rest of a text. Nothing if a quoted part does not end. -/
def countFrom : Region → List Char → Option Nat
  | .code, [] => some 0
  | .code, '"' :: rest => countFrom .name rest
  | .code, '\x27' :: rest => countFrom .literal rest
  | .code, '?' :: rest => (countFrom .code rest).map (· + 1)
  | .code, _ :: rest => countFrom .code rest
  | .name, '"' :: '"' :: rest => countFrom .name rest
  | .name, '"' :: rest => countFrom .code rest
  | .name, _ :: rest => countFrom .name rest
  | .name, [] => none
  | .literal, '\x27' :: '\x27' :: rest => countFrom .literal rest
  | .literal, '\x27' :: rest => countFrom .code rest
  | .literal, _ :: rest => countFrom .literal rest
  | .literal, [] => none

/-- The number of placeholders of a text. -/
def placeholders? (sql : String) : Option Nat :=
  countFrom .code sql.toList

/-! ### One character at a time

A doubled quote ends a quoted part and begins it again at once, so it takes no second character to know the region. -/

/-- The region after a character. -/
def Region.next (r : Region) (c : Char) : Region :=
  match r with
  | .code => if c = '"' then .name else if c = '\x27' then .literal else .code
  | .name => if c = '"' then .code else .name
  | .literal => if c = '\x27' then .code else .literal

/-- The region at the end of a text, and the placeholders on the way. -/
def scan : Region → List Char → Region × Nat
  | r, [] => (r, 0)
  | r, c :: rest => ((scan (r.next c) rest).1, (scan (r.next c) rest).2 + if r = .code ∧ c = '?' then 1 else 0)

theorem countFrom_eq (r : Region) (cs : List Char) :
    countFrom r cs = if (scan r cs).1 = .code then some (scan r cs).2 else none := by
  fun_induction countFrom r cs with
  | case4 rest ih =>
    rw [ih]
    by_cases h : (scan .code rest).1 = .code <;> simp [scan, Region.next, h]
  | _ => simp_all [scan, Region.next]

theorem scan_append (r : Region) (a b : List Char) :
    scan r (a ++ b) = ((scan (scan r a).1 b).1, (scan r a).2 + (scan (scan r a).1 b).2) := by
  induction a generalizing r with
  | nil => simp [scan]
  | cons c rest ih =>
    simp only [List.cons_append, scan, ih, Prod.mk.injEq, true_and]
    omega

/-! ### Marked texts -/

/-- The text begins and ends outside of quotes and has so many placeholders. -/
def Marked (text : String) (n : Nat) : Prop :=
  scan .code text.toList = (.code, n)

instance (text : String) (n : Nat) : Decidable (Marked text n) :=
  inferInstanceAs (Decidable (_ = _))

theorem Marked.placeholders? {text : String} {n : Nat} (h : Marked text n) : placeholders? text = some n := by
  rw [Sql.placeholders?, countFrom_eq, h]
  simp

namespace Marked

variable {a b : String} {m n : Nat}

theorem append (ha : Marked a m) (hb : Marked b n) : Marked (a ++ b) (m + n) := by
  rw [Marked] at *
  rw [String.toList_append, scan_append, ha]
  simp [hb]

theorem empty : Marked "" 0 := by
  simp [Marked, scan]

/-- A text without quotes and without question marks. -/
theorem of_plain (h : ∀ c ∈ a.toList, c ≠ '"' ∧ c ≠ '\x27' ∧ c ≠ '?') : Marked a 0 := by
  unfold Marked
  revert h
  induction a.toList with
  | nil => intro _; rfl
  | cons c rest ih =>
    intro h
    obtain ⟨h₁, h₂, h₃⟩ := h c (by simp)
    simp [scan, Region.next, h₁, h₂, h₃, ih fun x hx => h x (by simp [hx])]

/-- A text given by its characters, which are read when this is checked. -/
theorem literal {cs : List Char} (h : scan .code cs = (.code, n)) : Marked (String.ofList cs) n := by
  rw [Marked, String.toList_ofList, h]

theorem nat (n : Nat) : Marked (toString n) 0 := by
  refine of_plain fun c hc => ?_
  have hd : c.isDigit = true := by
    rw [show (toString n : String) = n.repr from rfl, Nat.toList_repr] at hc
    exact Nat.isDigit_of_mem_toDigits (by decide) (by decide) hc
  refine ⟨?_, ?_, ?_⟩ <;> rintro rfl <;> exact absurd hd (by decide)

end Marked

/-- Within a name, doubled quotes are no end. -/
theorem scan_escaped (cs : List Char) :
    scan .name (cs.flatMap fun c => if c = '"' then ['"', '"'] else [c]) = (.name, 0) := by
  induction cs with
  | nil => rfl
  | cons c rest ih => by_cases h : c = '"' <;> simp [h, scan, Region.next, ih]

/-- Whatever a name consists of, there is no placeholder in it. -/
theorem marked_quoteName (name : String) : Marked (quoteName name) 0 := by
  simp [Marked, quoteName, scan, Region.next, scan_append, scan_escaped]

/-! ### Texts and cells in order -/

namespace Fragment

theorem sql_append (f g : Fragment) : (f ++ g).sql = f.sql ++ g.sql := rfl

theorem sql_join (separator : String) : ∀ fs : List Fragment,
    (join separator fs).sql = String.intercalate separator (fs.map (·.sql))
  | [] => rfl
  | [f] => String.intercalate_singleton.symm
  | f :: g :: rest => by
    rw [List.map_cons, String.intercalate_cons_of_ne_nil (by simp), ← sql_join separator (g :: rest)]
    rfl

@[simp] theorem params_raw (text : String) : (raw text).params = [] := rfl

@[simp] theorem params_append (f g : Fragment) : (f ++ g).params = f.params ++ g.params := rfl

@[simp] theorem params_wrap (f : Fragment) (before after : String) : (f.wrap before after).params = f.params := rfl

theorem params_join (separator : String) : ∀ fs : List Fragment, (join separator fs).params = fs.flatMap (·.params)
  | [] => rfl
  | [f] => by simp [join]
  | f :: g :: rest => by
    have ih := params_join separator (g :: rest)
    simp [join, ih]

/-- The cells of a condition that may be missing. -/
theorem params_whereClause (condition : Option Fragment) :
    (whereClause condition).params = (condition.map (·.params)).getD [] := by
  cases condition <;> rfl

theorem params_ofClauses (clauses : List (Connective × Fragment)) :
    ((ofClauses clauses).map (·.params)).getD [] = clauses.flatMap (·.2.params) := by
  cases clauses with
  | nil => rfl
  | cons first rest =>
    show (rest.foldl (fun out c => out ++ raw c.1.text ++ c.2) first.2).params = _
    rw [List.flatMap_cons]
    generalize first.2 = out
    induction rest generalizing out with
    | nil => simp
    | cons c more ih => simp [ih]

end Fragment
end RecordService.Sql
