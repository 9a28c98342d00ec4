import Mathlib.Data.List.Infix
import RecordService.Proofs.Sql.Placeholders

/-! # The numerals of a page

A page is cut by two keywords, each with a numeral after it. A reader finds a keyword wherever it stands outside of
quotes (`after`), and takes the digits behind it for the numeral (`Keyword.numerals`). A text is `Free` of keywords
when none begins in it, unless with its last character: it may stand before and after anything that does not go on with
the second letter of a keyword, and free texts may be written one after the other. -/

namespace RecordService.Sql

/-- What follows each occurrence of a word outside of quotes. -/
def after (word : List Char) : Region → List Char → List (List Char)
  | _, [] => []
  | r, c :: rest =>
    if r = .code ∧ word.isPrefixOf (c :: rest) then
      (c :: rest).drop word.length :: after word (r.next c) rest
    else after word (r.next c) rest

/-- The keywords that a numeral follows. -/
inductive Keyword where
  | limit
  | offset

namespace Keyword

/-- The letters of the keyword and the blank behind them. -/
def letters : Keyword → List Char
  | limit => ['L', 'I', 'M', 'I', 'T', ' ']
  | offset => ['O', 'F', 'F', 'S', 'E', 'T', ' ']

/-- The numerals after the keyword. -/
def numerals (k : Keyword) (sql : String) : List Nat :=
  (after k.letters .code sql.toList).map fun cs => Nat.ofDigitChars 10 (cs.takeWhile Char.isDigit) 0

/-- The keyword does not begin in the text, unless with its last character. -/
def clear (k : Keyword) : Region → List Char → Bool
  | r, [] => r = .code
  | r, c :: rest =>
    (r ≠ .code ∨ rest = [] ∨ ¬k.letters.isPrefixOf (c :: rest) ∧ ¬(c :: rest).isPrefixOf k.letters) &&
      k.clear (r.next c) rest

/-- The text may follow the first letter of the keyword. -/
def stopped (k : Keyword) (cs : List Char) : Bool :=
  ¬k.letters.tail.isPrefixOf cs ∧ ¬cs.isPrefixOf k.letters.tail

variable {k : Keyword} {rest : List Char}

theorem after_cons {r : Region} {c : Char} (h : r = .code → c ∉ k.letters.head?) :
    after k.letters r (c :: rest) = after k.letters (r.next c) rest := by
  rw [after, if_neg]
  rintro ⟨rfl, hword⟩
  cases k <;> simp_all [letters]

theorem after_of_clear (hrest : ¬k.letters.tail <+: rest) :
    ∀ {r : Region} {cs : List Char}, k.clear r cs = true → after k.letters r (cs ++ rest) = after k.letters .code rest
  | r, [], h => by
    obtain rfl : r = .code := by simpa [clear] using h
    rfl
  | r, c :: cs, h => by
    simp only [clear, Bool.and_eq_true, decide_eq_true_eq] at h
    obtain ⟨hhere, hlater⟩ := h
    rw [List.cons_append, after, if_neg, after_of_clear hrest hlater]
    rintro ⟨hcode, hword⟩
    rw [List.isPrefixOf_iff_prefix, ← List.cons_append] at hword
    rcases hhere with hquoted | rfl | ⟨hlong, hshort⟩
    · exact hquoted hcode
    · -- The keyword would begin with the last character and go on in the rest.
      cases k <;> simp_all [letters]
    · rw [List.isPrefixOf_iff_prefix] at hlong hshort
      exact (List.prefix_or_prefix_of_prefix hword (List.prefix_append _ _)).elim hlong hshort

theorem not_prefix_of_stopped {cs : List Char} (h : k.stopped cs = true) : ¬k.letters.tail <+: cs ++ rest := by
  intro hword
  simp only [stopped, decide_eq_true_eq, List.isPrefixOf_iff_prefix] at h
  exact (List.prefix_or_prefix_of_prefix hword (List.prefix_append cs rest)).elim h.1 h.2

end Keyword

/-! ### Texts without keywords -/

/-- No keyword begins in the text or goes on in it with its second letter, whatever stands around. -/
def Free (text : String) : Prop :=
  ∀ (k : Keyword) (rest : List Char), ¬k.letters.tail <+: rest →
    after k.letters .code (text.toList ++ rest) = after k.letters .code rest ∧
      ¬k.letters.tail <+: text.toList ++ rest

namespace Free

variable {a b : String}

theorem append (ha : Free a) (hb : Free b) : Free (a ++ b) := by
  intro k rest hrest
  obtain ⟨hafter, hopen⟩ := hb k rest hrest
  rw [String.toList_append, List.append_assoc, (ha k _ hopen).1]
  exact ⟨hafter, (ha k _ hopen).2⟩

theorem empty : Free "" := by
  intro k rest hrest
  simpa using hrest

/-- A text given by its characters, which are read when this is checked. -/
theorem literal {cs : List Char}
    (h : [Keyword.limit, .offset].all (fun k => k.clear .code cs && k.stopped cs) = true) : Free (String.ofList cs) := by
  intro k rest hrest
  have hk : k.clear .code cs = true ∧ k.stopped cs = true := by
    cases k <;> simp_all
  rw [String.toList_ofList]
  exact ⟨Keyword.after_of_clear hrest hk.1, Keyword.not_prefix_of_stopped hk.2⟩

theorem after_quote (k : Keyword) (rest : List Char) :
    after k.letters .code ('"' :: rest) = after k.letters .name rest :=
  Keyword.after_cons fun _ => by cases k <;> simp [Keyword.letters]

theorem after_escaped (k : Keyword) (rest cs : List Char) :
    after k.letters .name (cs.flatMap (fun c => if c = '"' then ['"', '"'] else [c]) ++ '"' :: rest) =
      after k.letters .code rest := by
  have hend (rest : List Char) : after k.letters .name ('"' :: rest) = after k.letters .code rest :=
    Keyword.after_cons (by simp)
  induction cs with
  | nil => exact hend rest
  | cons c more ih =>
    by_cases hc : c = '"'
    · -- Between the two quotes the reader is outside of quotes.
      simpa [hc, hend, after_quote] using ih
    · have hnext : Region.name.next c = .name := if_neg hc
      simpa [hc, Keyword.after_cons, hnext] using ih

theorem quoteName (name : String) : Free (quoteName name) := by
  intro k rest _
  have hname : (Sql.quoteName name).toList ++ rest =
      '"' :: (name.toList.flatMap (fun c => if c = '"' then ['"', '"'] else [c]) ++ '"' :: rest) := by
    simp [Sql.quoteName]
  rw [hname, after_quote, after_escaped]
  cases k <;> simp [Keyword.letters]

/-- A digit is no part of a keyword. -/
theorem after_digit {k : Keyword} {c : Char} (hc : c.isDigit = true) (rest : List Char) :
    after k.letters .code (c :: rest) = after k.letters .code rest ∧ ¬k.letters.tail <+: c :: rest := by
  have hnext : Region.code.next c = .code := by
    simp only [Region.next]
    rw [if_neg, if_neg] <;> rintro rfl <;> exact absurd hc (by decide)
  have hletter : ∀ x, k.letters.head? = some x ∨ k.letters.tail.head? = some x → x ≠ c := by
    rintro x hx rfl
    cases k <;> rcases hx with ⟨⟨⟩⟩ | ⟨⟨⟩⟩ <;> exact absurd hc (by decide)
  constructor
  · rw [Keyword.after_cons fun _ hword => hletter c (.inl hword) rfl, hnext]
  · cases k <;> simp_all [Keyword.letters]

theorem nat (n : Nat) : Free (toString n) := by
  have hdigits : ∀ c ∈ (toString n).toList, c.isDigit = true := fun c hc =>
    Nat.isDigit_of_mem_toDigits (by decide) (by decide) (Nat.toList_repr (n := n) ▸ hc)
  intro k rest hrest
  revert hdigits
  induction (toString n).toList with
  | nil => exact fun _ => ⟨rfl, hrest⟩
  | cons c more ih =>
    intro hdigits
    obtain ⟨hafter, -⟩ := ih fun x hx => hdigits x (List.mem_cons_of_mem _ hx)
    obtain ⟨hpass, hstop⟩ := after_digit (hdigits c List.mem_cons_self) (more ++ rest)
    exact ⟨hpass.trans hafter, hstop⟩

theorem numerals (h : Free a) (k : Keyword) : k.numerals a = [] := by
  have hend : ¬k.letters.tail <+: [] := by cases k <;> simp [Keyword.letters]
  obtain ⟨hafter, -⟩ := h k [] hend
  rw [List.append_nil] at hafter
  rw [Keyword.numerals, hafter, after, List.map_nil]

end Free

/-- The digits of a number are its numeral, whatever follows them that is no digit. -/
theorem ofDigitChars_append (n : Nat) {rest : List Char} (hrest : ∀ c ∈ rest.head?, c.isDigit = false) :
    Nat.ofDigitChars 10 (((toString n).toList ++ rest).takeWhile Char.isDigit) 0 = n := by
  have hdigits : ∀ c ∈ (toString n).toList, c.isDigit = true := fun c hc =>
    Nat.isDigit_of_mem_toDigits (by decide) (by decide) (Nat.toList_repr (n := n) ▸ hc)
  have hnone : rest.takeWhile Char.isDigit = [] := by
    cases rest with
    | nil => rfl
    | cons c more => simp [hrest c rfl]
  rw [List.takeWhile_append_of_pos hdigits, hnone, List.append_nil]
  exact Nat.toList_repr (n := n) ▸ Nat.ofDigitChars_ten_toDigits

theorem after_limit (cs : List Char) :
    after Keyword.limit.letters .code (" LIMIT ".toList ++ cs) = cs :: after Keyword.limit.letters .code cs ∧
      after Keyword.offset.letters .code (" LIMIT ".toList ++ cs) = after Keyword.offset.letters .code cs :=
  ⟨rfl, rfl⟩

theorem after_offset (cs : List Char) :
    after Keyword.limit.letters .code (" OFFSET ".toList ++ cs) = after Keyword.limit.letters .code cs ∧
      after Keyword.offset.letters .code (" OFFSET ".toList ++ cs) = cs :: after Keyword.offset.letters .code cs :=
  ⟨rfl, rfl⟩

/-- Each keyword is found once where texts free of keywords stand around the clause. -/
theorem numerals_clause {before rest : String} (hbefore : Free before) (hrest : Free rest)
    (hend : ∀ c ∈ rest.toList.head?, c.isDigit = false) (n m : Nat) :
    Keyword.limit.numerals (before ++ (" LIMIT " ++ toString n ++ " OFFSET " ++ toString m) ++ rest) = [n] ∧
      Keyword.offset.numerals (before ++ (" LIMIT " ++ toString n ++ " OFFSET " ++ toString m) ++ rest) = [m] := by
  -- no keyword goes on with a blank, so none begins in one part and ends in the next
  have hblank (k : Keyword) (cs : List Char) : ¬k.letters.tail <+: ' ' :: cs := by
    cases k <;> simp [Keyword.letters]
  have hclause (k : Keyword) (cs : List Char) :
      after k.letters .code (before.toList ++ (" LIMIT ".toList ++ cs)) = after k.letters .code (" LIMIT ".toList ++ cs) :=
    (hbefore k _ (hblank k _)).1
  have hmiddle (k : Keyword) (cs : List Char) :
      after k.letters .code ((toString n).toList ++ (" OFFSET ".toList ++ cs)) =
        after k.letters .code (" OFFSET ".toList ++ cs) :=
    (Free.nat n k _ (hblank k _)).1
  have hlast (k : Keyword) : after k.letters .code ((toString m).toList ++ rest.toList) = [] := by
    have h := ((Free.nat m).append hrest).numerals k
    simpa [Keyword.numerals] using h
  have hbegin (cs : List Char) : ∀ c ∈ (" OFFSET ".toList ++ cs).head?, c.isDigit = false := by
    rintro c ⟨⟩
    rfl
  simp only [Keyword.numerals, String.toList_append, List.append_assoc, hclause, (after_limit _).1, (after_limit _).2,
    hmiddle, (after_offset _).1, (after_offset _).2, hlast, List.map_cons, List.map_nil]
  rw [ofDigitChars_append n (hbegin _), ofDigitChars_append m hend]
  exact ⟨rfl, rfl⟩

end RecordService.Sql
