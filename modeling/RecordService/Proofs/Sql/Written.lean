import RecordService.Proofs.Sql.Keywords

/-! # How statements are written

Statements are put together from literal texts, quoted names and numbers, one after the other (`Written`). Whatever
holds of these and of two texts in a row holds of all that is written: such a text begins and ends outside of quotes with
its number of placeholders (`Written.marked`), and is free of the keywords of a page (`Written.free`). A fragment is
`Balanced` when it is written with one placeholder for each of its cells. -/

namespace RecordService.Sql

/-- The text is written from parts, with so many placeholders. A literal text is given by its characters, which are read
when it is checked that it has the placeholders and no keyword of a page. -/
inductive Written : String → Nat → Prop
  | empty : Written "" 0
  | literal {cs : List Char} {n : Nat} : scan .code cs = (.code, n) →
      [Keyword.limit, .offset].all (fun k => k.clear .code cs && k.stopped cs) = true → Written (String.ofList cs) n
  | quoteName (name : String) : Written (quoteName name) 0
  | nat (n : Nat) : Written (toString n) 0
  | append {a b : String} {m n : Nat} : Written a m → Written b n → Written (a ++ b) (m + n)

namespace Written

variable {a b : String} {m n : Nat}

theorem marked (h : Written a n) : Marked a n := by
  induction h with
  | empty => exact .empty
  | literal hscan _ => exact .literal hscan
  | quoteName name => exact marked_quoteName name
  | nat n => exact .nat n
  | append _ _ ha hb => exact ha.append hb

theorem free (h : Written a n) : Free a := by
  induction h with
  | empty => exact .empty
  | literal _ hclear => exact .literal hclear
  | quoteName name => exact .quoteName name
  | nat n => exact .nat n
  | append _ _ ha hb => exact ha.append hb

theorem append_plain (ha : Written a n) (hb : Written b 0) : Written (a ++ b) n :=
  ha.append hb

theorem plain_append (ha : Written a 0) (hb : Written b n) : Written (a ++ b) n := by
  simpa using ha.append hb

/-- Texts with `n` placeholders each, and a separator between them that has none. -/
theorem intercalate {sep : String} (hsep : Written sep 0) {α : Type} {text : α → String} {l : List α}
    (h : ∀ x ∈ l, Written (text x) n) : Written (String.intercalate sep (l.map text)) (n * l.length) := by
  induction l with
  | nil => exact empty
  | cons x rest ih =>
    have hx := h x (by simp)
    have hrest := ih fun y hy => h y (by simp [hy])
    cases rest with
    | nil => simpa using hx
    | cons y more =>
      rw [List.map_cons, String.intercalate_cons_of_ne_nil (by simp), List.length_cons, Nat.mul_succ, Nat.add_comm]
      exact (hx.append_plain hsep).append hrest

/-- Texts of a list with commas between them. -/
theorem commas {α : Type} {text : α → String} {l : List α} (h : ∀ x ∈ l, Written (text x) 0) :
    Written (String.intercalate ", " (l.map text)) 0 := by
  have hsep : Written ", " 0 := .literal rfl rfl
  have hall := hsep.intercalate h
  rwa [Nat.zero_mul] at hall

end Written

theorem ColumnRef.written_text (c : ColumnRef) : Written c.text 0 :=
  ((Written.quoteName _).append_plain (.literal rfl rfl)).append_plain (.quoteName _)

theorem written_placeholders (cells : List Cell) : Written (placeholders cells) cells.length := by
  have hsep : Written ", " 0 := .literal rfl rfl
  have hmark : ∀ c ∈ cells, Written "?" 1 := fun _ _ => .literal rfl rfl
  have h := hsep.intercalate hmark
  rwa [Nat.one_mul] at h

theorem Connective.written_text (c : Connective) : Written c.text 0 := by
  cases c <;> exact .literal rfl rfl

/-! ### Fragments -/

/-- The fragment is written with one placeholder for each of its cells. -/
def Fragment.Balanced (f : Fragment) : Prop :=
  Written f.sql f.params.length

namespace Fragment.Balanced

variable {f g : Fragment}

theorem raw {text : String} (h : Written text 0) : (Fragment.raw text).Balanced :=
  h

theorem append (hf : f.Balanced) (hg : g.Balanced) : (f ++ g).Balanced := by
  show Written (f.sql ++ g.sql) (f.params ++ g.params).length
  rw [List.length_append]
  exact Written.append hf hg

theorem wrap (hf : f.Balanced) {before after : String} (hb : Written before 0) (ha : Written after 0) :
    (f.wrap before after).Balanced :=
  (hb.plain_append hf).append_plain ha

theorem join {separator : String} (hsep : Written separator 0) :
    ∀ {fs : List Fragment}, (∀ f ∈ fs, f.Balanced) → (Fragment.join separator fs).Balanced
  | [], _ => raw Written.empty
  | [f], h => h f (by simp)
  | f :: g :: rest, h =>
    ((h f (by simp)).append (raw hsep)).append (join hsep fun x hx => h x (List.mem_cons_of_mem _ hx))

theorem whereClause {condition : Option Fragment} (h : ∀ f ∈ condition, f.Balanced) :
    (Fragment.whereClause condition).Balanced := by
  cases condition with
  | none => exact raw Written.empty
  | some f => exact (h f rfl).wrap (.literal rfl rfl) Written.empty

theorem ofClauses {clauses : List (Connective × Fragment)} (h : ∀ c ∈ clauses, c.2.Balanced) :
    ∀ f ∈ Fragment.ofClauses clauses, f.Balanced := by
  cases clauses with
  | nil => rintro f ⟨⟩
  | cons first rest =>
    rintro f ⟨⟩
    have hfirst := h first (by simp)
    have hrest : ∀ c ∈ rest, c.2.Balanced := fun c hc => h c (by simp [hc])
    revert hfirst
    generalize first.2 = out
    induction rest generalizing out with
    | nil => exact id
    | cons c more ih =>
      intro hout
      exact ih (fun x hx => h x (by grind)) (fun x hx => hrest x (by simp [hx])) _
        ((hout.append (raw c.1.written_text)).append (hrest c (by simp)))

end Fragment.Balanced

end RecordService.Sql
