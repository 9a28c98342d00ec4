import RecordService.Proofs.Text.Folding
import RecordService.Text.Slug

/-! # Slugs are well formed

A slug is nothing, or words of small letters and digits with one dash between each two (`Slug`). What the loop over the
folded text has written before it has begun, within a word and after a word decides what may come next
(`Follows`, `follows_slugChars`). A slug is read as its own slug: folding leaves it as it is (`foldChars_eq_self`), and
so does the loop (`Slug.slugChars_eq`). -/

namespace RecordService.Text

variable {c : Char} {cs l w : List Char} {started dash : Bool}

/-! ### Texts that folding leaves -/

/-- The only letters of the ASCII range that have others in lower case are those in upper case. -/
theorem caseRuns_ascii : ∀ r ∈ caseRuns, (0x41 ≤ r.first && r.last ≤ 0x5A || 0x80 ≤ r.first) = true :=
  List.all_eq_true.mp (by decide +kernel)

theorem accentTable_ascii : ∀ e ∈ accentTable, e.1.all (0x80 ≤ ·.toNat) = true :=
  List.all_eq_true.mp (by decide +kernel)

theorem lowerChar_eq_self (hascii : c.toNat < 0x80) (hupper : c.isUpper = false) : lowerChar c = [c] := by
  have hne : (c == 'İ') = false := by
    rw [beq_eq_false_iff_ne]
    rintro rfl
    exact absurd hascii (by decide)
  have hnone : caseRuns.find? (·.holds c.toNat) = none := by
    refine List.find?_eq_none.mpr fun r hr hholds => ?_
    simp only [CaseRun.holds, Bool.and_eq_true, decide_eq_true_eq] at hholds
    obtain ⟨⟨hfirst, hlast⟩, -⟩ := hholds
    have hrange := caseRuns_ascii r hr
    simp only [Bool.or_eq_true, Bool.and_eq_true, decide_eq_true_eq] at hrange
    rcases hrange with ⟨hlow, hhigh⟩ | hbeyond
    · rw [isUpper_iff.mpr ⟨by omega, by omega⟩] at hupper
      cases hupper
    · omega
  simp only [lowerChar, hne, hnone, if_false, Bool.false_eq_true]

theorem plainChar_eq_self (hascii : c.toNat < 0x80) : plainChar c = [c] := by
  have hnone : accentTable.find? (·.1.contains c) = none := by
    refine List.find?_eq_none.mpr fun e he hmem => ?_
    have hbeyond := List.all_eq_true.mp (accentTable_ascii e he) c (List.contains_iff_mem.mp hmem)
    exact absurd hascii (Nat.not_lt.mpr (of_decide_eq_true hbeyond))
  simp only [plainChar, hnone]

/-- Folding leaves a text of the ASCII range without upper-case letters. -/
theorem foldChars_eq_self (h : ∀ c ∈ cs, c.toNat < 0x80 ∧ c.isUpper = false) : foldChars cs = cs := by
  induction cs with
  | nil => rfl
  | cons c rest ih =>
    obtain ⟨⟨hascii, hupper⟩, hrest⟩ := List.forall_mem_cons.mp h
    rw [foldChars_cons, ih hrest]
    simp [foldChars, lower, lowerChar_eq_self hascii hupper, plainChar_eq_self hascii]

/-! ### Slugs -/

/-- The letters `a` to `z` and the digits. -/
def isSlugLetter (c : Char) : Bool :=
  c.isLower || c.isDigit

/-- At least one letter or digit, and nothing else. -/
structure Word (w : List Char) : Prop where
  ne_nil : w ≠ []
  letters : ∀ c ∈ w, isSlugLetter c = true

/-- Words with one dash between each two. -/
inductive Slug : List Char → Prop
  | word {w : List Char} (hw : Word w) : Slug w
  | dash {w rest : List Char} (hw : Word w) (hrest : Slug rest) : Slug (w ++ '-' :: rest)

theorem isAsciiAlphanumeric_eq (c : Char) : isAsciiAlphanumeric c = (c.isUpper || isSlugLetter c) :=
  Bool.or_assoc c.isUpper c.isLower c.isDigit

theorem isAsciiAlphanumeric_of_isSlugLetter (h : isSlugLetter c = true) : isAsciiAlphanumeric c = true := by
  rw [isAsciiAlphanumeric_eq, h, Bool.or_true]

/-- Of the letters and digits, slugs have those that are not in upper case. -/
theorem isSlugLetter_of_not_isUpper (h : isAsciiAlphanumeric c = true) (hupper : c.isUpper = false) :
    isSlugLetter c = true := by
  rwa [isAsciiAlphanumeric_eq, hupper, Bool.false_or] at h

theorem isSlugLetter_iff :
    isSlugLetter c = true ↔ 0x61 ≤ c.toNat ∧ c.toNat ≤ 0x7A ∨ 0x30 ≤ c.toNat ∧ c.toNat ≤ 0x39 := by
  have hlower : c.isLower = true ↔ 0x61 ≤ c.toNat ∧ c.toNat ≤ 0x7A :=
    Bool.and_eq_true_iff.trans (and_congr decide_eq_true_iff decide_eq_true_iff)
  have hdigit : c.isDigit = true ↔ 0x30 ≤ c.toNat ∧ c.toNat ≤ 0x39 := Char.isDigit_iff_toNat
  rw [isSlugLetter, Bool.or_eq_true, hlower, hdigit]

theorem ascii_of_isSlugLetter (h : isSlugLetter c = true) : c.toNat < 0x80 ∧ c.isUpper = false := by
  have hbounds := isSlugLetter_iff.mp h
  refine ⟨by omega, Bool.eq_false_iff.mpr fun hupper => ?_⟩
  have := isUpper_iff.mp hupper
  omega

/-- A letter may stand before a slug. -/
theorem Slug.cons (hc : isSlugLetter c = true) (h : Slug l) : Slug (c :: l) := by
  have hword {w : List Char} (hw : Word w) : Word (c :: w) :=
    ⟨List.cons_ne_nil c w, List.forall_mem_cons.mpr ⟨hc, hw.letters⟩⟩
  cases h with
  | word hw => exact .word (hword hw)
  | dash hw hrest => exact .dash (hword hw) hrest

/-- What may come after a letter of a slug: nothing, more of its word, or a dash and the next words. -/
inductive Follows : List Char → Prop
  | nil : Follows []
  | letters {l : List Char} (h : Slug l) : Follows l
  | dash {l : List Char} (h : Slug l) : Follows ('-' :: l)

theorem Follows.cons (hc : isSlugLetter c = true) (h : Follows l) : Slug (c :: l) := by
  have hword : Word [c] := ⟨List.cons_ne_nil c [], List.forall_mem_singleton.mpr hc⟩
  cases h with
  | nil => exact .word hword
  | letters h => exact h.cons hc
  | dash h => exact .dash hword h

/-- Once a slug has begun, what is written may come after a letter, whether a dash is due or not. -/
theorem follows_slugChars (h : ∀ c ∈ cs, isAsciiAlphanumeric c = true → isSlugLetter c = true) (dash : Bool) :
    Follows (slugChars true dash cs) := by
  induction cs generalizing dash with
  | nil => exact .nil
  | cons c rest ih =>
    obtain ⟨hc, hrest⟩ := List.forall_mem_cons.mp h
    rw [slugChars]
    by_cases halnum : isAsciiAlphanumeric c = true
    · have hslug := (ih hrest false).cons (hc halnum)
      cases dash with
      | true => simpa [halnum] using Follows.dash hslug
      | false => simpa [halnum] using Follows.letters hslug
    · rw [if_neg halnum]
      exact ih hrest true

/-- Before a slug has begun, no dash is written. -/
theorem slug_slugChars (h : ∀ c ∈ cs, isAsciiAlphanumeric c = true → isSlugLetter c = true) (dash : Bool) :
    slugChars false dash cs = [] ∨ Slug (slugChars false dash cs) := by
  induction cs generalizing dash with
  | nil => exact Or.inl rfl
  | cons c rest ih =>
    obtain ⟨hc, hrest⟩ := List.forall_mem_cons.mp h
    rw [slugChars, Bool.and_false, if_neg Bool.false_ne_true]
    by_cases halnum : isAsciiAlphanumeric c = true
    · rw [if_pos halnum]
      exact Or.inr ((follows_slugChars hrest false).cons (hc halnum))
    · rw [if_neg halnum]
      exact ih hrest true

/-- The loop drops or writes dashes, but keeps the letters and digits. -/
theorem filter_slugChars (started dash : Bool) (cs : List Char) :
    (slugChars started dash cs).filter isAsciiAlphanumeric = cs.filter isAsciiAlphanumeric := by
  have hdash : isAsciiAlphanumeric '-' = false := by decide
  induction cs generalizing started dash with
  | nil => rfl
  | cons c rest ih =>
    rw [slugChars]
    by_cases halnum : isAsciiAlphanumeric c = true
    · rw [if_pos halnum, List.filter_cons_of_pos halnum, ← ih true false]
      split
      · rw [List.filter_cons_of_neg (by simp [hdash]), List.filter_cons_of_pos halnum]
      · rw [List.filter_cons_of_pos halnum]
    · rw [if_neg halnum, List.filter_cons_of_neg halnum, ih started true]

/-- A slug has a letter or digit. -/
theorem Slug.filter_ne_nil (h : Slug l) : l.filter isAsciiAlphanumeric ≠ [] := by
  have hword {w : List Char} (hw : Word w) (rest : List Char) : (w ++ rest).filter isAsciiAlphanumeric ≠ [] := by
    obtain ⟨c, hc⟩ := List.exists_mem_of_ne_nil w hw.ne_nil
    exact List.ne_nil_of_mem (List.mem_filter.mpr ⟨List.mem_append_left rest hc,
      isAsciiAlphanumeric_of_isSlugLetter (hw.letters c hc)⟩)
  cases h with
  | word hw => simpa using hword hw []
  | dash hw _ => exact hword hw _

/-! ### Slugs of slugs -/

/-- The loop writes a word as it is, where no dash is due. -/
theorem slugChars_word (hw : Word w) (started : Bool) (rest : List Char) :
    slugChars started false (w ++ rest) = w ++ slugChars true false rest := by
  obtain ⟨hne, hletters⟩ := hw
  induction w generalizing started with
  | nil => exact absurd rfl hne
  | cons c w ih =>
    obtain ⟨hc, hw⟩ := List.forall_mem_cons.mp hletters
    rw [List.cons_append, slugChars, if_pos (isAsciiAlphanumeric_of_isSlugLetter hc), Bool.false_and,
      if_neg Bool.false_ne_true]
    cases w with
    | nil => rfl
    | cons d w => rw [ih true (List.cons_ne_nil d w) hw]; rfl

/-- A dash that is due is written before the next word. -/
theorem slugChars_due (hw : Word w) (rest : List Char) :
    slugChars true true (w ++ rest) = '-' :: slugChars true false (w ++ rest) := by
  obtain ⟨c, w', rfl⟩ := List.exists_cons_of_ne_nil hw.ne_nil
  have hc := isAsciiAlphanumeric_of_isSlugLetter (hw.letters c List.mem_cons_self)
  simp [slugChars, hc]

theorem Slug.due (h : Slug l) : slugChars true true l = '-' :: slugChars true false l := by
  cases h with
  | word hw => simpa using slugChars_due hw []
  | dash hw _ => exact slugChars_due hw _

/-- The loop leaves a slug as it is. -/
theorem Slug.slugChars_eq (h : Slug l) (started : Bool) : slugChars started false l = l := by
  induction h generalizing started with
  | word hw => simpa [slugChars] using slugChars_word hw started []
  | @dash w rest hw hrest ih =>
    have hdash : slugChars true false ('-' :: rest) = slugChars true true rest := by
      rw [slugChars, if_neg (by decide)]
    rw [slugChars_word hw, hdash, hrest.due, ih true]

/-- Folding leaves a slug as it is. -/
theorem Slug.foldChars_eq (h : Slug l) : foldChars l = l := by
  refine foldChars_eq_self ?_
  have hword {w : List Char} (hw : Word w) : ∀ c ∈ w, c.toNat < 0x80 ∧ c.isUpper = false :=
    fun c hc => ascii_of_isSlugLetter (hw.letters c hc)
  induction h with
  | word hw => exact hword hw
  | dash hw _ ih => exact List.forall_mem_append.mpr ⟨hword hw, List.forall_mem_cons.mpr ⟨by decide, ih⟩⟩

/-- A folded text has no letters in upper case. -/
theorem isSlugLetter_of_mem_foldChars (h : c ∈ foldChars cs) (hc : isAsciiAlphanumeric c = true) :
    isSlugLetter c = true := by
  refine isSlugLetter_of_not_isUpper hc ?_
  rcases mem_foldChars h with hhigh | ⟨-, hupper⟩
  · rw [isHigh, Bool.and_eq_true, Bool.and_eq_true, decide_eq_true_eq] at hhigh
    refine Bool.eq_false_iff.mpr fun hupper => ?_
    have := isUpper_iff.mp hupper
    omega
  · exact hupper

/-- The slug of a text is empty, or words of small letters and digits with one dash between each two. It is empty just
if the folded text has no letter or digit of the ASCII range, and it has the letters and digits of the folded text, in
order. It is its own slug. -/
theorem slugify_wellFormed (text : String) :
    (slugify text = "" ∨ Slug (slugify text).toList) ∧
      (slugify text = "" ↔ ∀ c ∈ (foldAccents text).toList, isAsciiAlphanumeric c = false) ∧
      (slugify text).toList.filter isAsciiAlphanumeric = (foldAccents text).toList.filter isAsciiAlphanumeric ∧
      slugify (slugify text) = slugify text := by
  have hlist : (slugify text).toList = slugChars false false (foldChars text.toList) := String.toList_ofList
  have hfolded : (foldAccents text).toList = foldChars text.toList := String.toList_ofList
  have hslug : slugify text = "" ∨ Slug (slugify text).toList := by
    rw [← String.toList_eq_nil_iff, hlist]
    exact slug_slugChars (fun c hc => isSlugLetter_of_mem_foldChars hc) false
  have hfilter : (slugify text).toList.filter isAsciiAlphanumeric =
      (foldAccents text).toList.filter isAsciiAlphanumeric := by
    rw [hlist, hfolded, filter_slugChars]
  refine ⟨hslug, ?_, hfilter, ?_⟩
  -- the slug has no letters or digits but those of the folded text, and is empty without any
  · have hnone : (∀ c ∈ (foldAccents text).toList, isAsciiAlphanumeric c = false) ↔
        (slugify text).toList.filter isAsciiAlphanumeric = [] := by
      rw [hfilter, List.filter_eq_nil_iff]
      simp
    rw [hnone]
    constructor
    · intro hempty
      rw [hempty]
      rfl
    · intro hnil
      exact hslug.resolve_right fun h => h.filter_ne_nil hnil
  · rcases hslug with hempty | hslug
    · rw [hempty]
      rfl
    · rw [slugify, hslug.foldChars_eq, hslug.slugChars_eq, String.ofList_toList]

example : slugify "  Crème Brûlée, Deluxe!  " = "creme-brulee-deluxe" := by decide +kernel

end RecordService.Text
