import Mathlib.Data.List.Infix
import Mathlib.Data.List.TakeWhile
import RecordService.Plan.Condition
import RecordService.Proofs.Text.Folding
import RecordService.Sql.Like

/-! # Literal matching

`Like` is the matching of SQL: `%` stands for any run of characters, `_` for any one, and a backslash makes the next
character stand for itself. The pattern of a text operator is its operand with these three escaped, and `%` for the rest
of the text. Folding makes none of the three and leaves them as they are, so that the folded pattern is the pattern of
the folded operand (`foldChars_escape`), and it matches where the operand is found (`Predicate.columnTest_finds`). The
store matches letters of the ASCII range in both cases, which says the same of folded texts (`accepted_iff_like`). -/

namespace RecordService.Sql

open Text (foldChars)

/-- A text matches a pattern. -/
def Like : List Char → List Char → Prop
  | [], text => text = []
  | ['\\'], _ => False
  | '\\' :: c :: pattern, text => ∃ rest, text = c :: rest ∧ Like pattern rest
  | '%' :: pattern, text => ∃ run rest, text = run ++ rest ∧ Like pattern rest
  | '_' :: pattern, text => ∃ c rest, text = c :: rest ∧ Like pattern rest
  | c :: pattern, text => ∃ rest, text = c :: rest ∧ Like pattern rest

theorem like_nil {text : List Char} : Like [] text ↔ text = [] := Iff.rfl

theorem like_lone {text : List Char} : Like ['\\'] text ↔ False := Iff.rfl

theorem like_escaped {c : Char} {pattern text : List Char} :
    Like ('\\' :: c :: pattern) text ↔ ∃ rest, text = c :: rest ∧ Like pattern rest := Iff.rfl

theorem like_run {pattern text : List Char} :
    Like ('%' :: pattern) text ↔ ∃ run rest, text = run ++ rest ∧ Like pattern rest := Iff.rfl

theorem like_one {pattern text : List Char} :
    Like ('_' :: pattern) text ↔ ∃ c rest, text = c :: rest ∧ Like pattern rest := Iff.rfl

/-! ### Escaped characters -/

/-- Whether a character of a pattern does not stand for itself. -/
def isSpecial (c : Char) : Bool :=
  c == '%' || c == '_' || c == '\\'

/-- The pattern that one text alone matches. -/
def escape (s : List Char) : List Char :=
  s.flatMap fun c => if isSpecial c then ['\\', c] else [c]

theorem mem_escape {c : Char} {s : List Char} (h : c ∈ escape s) : c ∈ s ∨ c = '\\' := by
  obtain ⟨d, hd, hc⟩ := List.mem_flatMap.mp h
  split at hc
  · rcases List.mem_cons.mp hc with rfl | hc
    · exact Or.inr rfl
    · exact Or.inl (List.mem_singleton.mp hc ▸ hd)
  · exact Or.inl (List.mem_singleton.mp hc ▸ hd)

theorem toList_escapePattern (s : String) : (Operand.escapePattern s).toList = escape s.toList :=
  String.toList_ofList

theorem isSpecial_iff {c : Char} : isSpecial c = true ↔ c = '%' ∨ c = '_' ∨ c = '\\' := by
  simp [isSpecial, or_assoc]

theorem like_cons {c : Char} (hc : isSpecial c = false) (pattern text : List Char) :
    Like (c :: pattern) text ↔ ∃ rest, text = c :: rest ∧ Like pattern rest := by
  have hplain : c ≠ '%' ∧ c ≠ '_' ∧ c ≠ '\\' := by simpa [isSpecial, and_assoc] using hc
  rw [Like] <;> simp_all

theorem like_anyRun (text : List Char) : Like ['%'] text :=
  like_run.mpr ⟨text, [], (List.append_nil text).symm, rfl⟩

/-- What is escaped stands for itself. -/
theorem like_escape_append (s pattern text : List Char) :
    Like (escape s ++ pattern) text ↔ ∃ rest, text = s ++ rest ∧ Like pattern rest := by
  induction s generalizing text with
  | nil => simp [escape]
  | cons c s ih =>
    have hone : Like (escape (c :: s) ++ pattern) text ↔
        ∃ rest, text = c :: rest ∧ Like (escape s ++ pattern) rest := by
      rw [escape, List.flatMap_cons, List.append_assoc]
      cases hc : isSpecial c with
      | true => rw [if_pos rfl, List.cons_append, List.cons_append, List.nil_append, like_escaped, escape]
      | false => exact like_cons hc _ _
    rw [hone]
    simp only [ih]
    constructor
    · rintro ⟨_, rfl, rest, rfl, h⟩
      exact ⟨rest, rfl, h⟩
    · rintro ⟨rest, rfl, h⟩
      exact ⟨s ++ rest, rfl, rest, rfl, h⟩

theorem like_escape (s text : List Char) : Like (escape s) text ↔ text = s := by
  have h := like_escape_append s [] text
  simpa [like_nil] using h

/-! ### Folded patterns -/

theorem isHigh_of_isSpecial {c : Char} (h : isSpecial c = true) : Text.isHigh c = false := by
  rcases isSpecial_iff.mp h with rfl | rfl | rfl <;> rfl

theorem foldChars_special {c : Char} (h : isSpecial c = true) : foldChars [c] = [c] := by
  rcases isSpecial_iff.mp h with rfl | rfl | rfl <;> decide +kernel

theorem escape_of_plain {s : List Char} (h : ∀ c ∈ s, isSpecial c = false) : escape s = s := by
  induction s with
  | nil => rfl
  | cons c s ih =>
    have hs := ih fun d hd => h d (List.mem_cons_of_mem c hd)
    rw [escape] at hs
    rw [escape, List.flatMap_cons, hs, h c List.mem_cons_self]
    rfl

theorem escape_append (s t : List Char) : escape (s ++ t) = escape s ++ escape t :=
  List.flatMap_append

/-- Folding leaves escapes alone and makes nothing that has to be escaped. -/
theorem foldChars_escape (s : List Char) : foldChars (escape s) = escape (foldChars s) := by
  induction s with
  | nil => rfl
  | cons c s ih =>
    -- what is special is neither folded nor the result of folding
    have hone : foldChars (escape [c]) = escape (foldChars [c]) := by
      cases hc : isSpecial c with
      | true =>
        have hbackslash : foldChars ['\\'] = ['\\'] := foldChars_special rfl
        rw [foldChars_special hc]
        simp only [escape, List.flatMap_cons, List.flatMap_nil, hc, if_true, List.append_nil]
        rw [Text.foldChars_cons, hbackslash, foldChars_special hc]
        rfl
      | false =>
        have hplain : ∀ d ∈ foldChars [c], isSpecial d = false := fun d hd => by
          cases hspecial : isSpecial d with
          | false => rfl
          | true =>
            have hmem := Text.mem_of_mem_foldChars hd (isHigh_of_isSpecial hspecial)
            rw [List.mem_singleton.mp hmem, hc] at hspecial
            cases hspecial
        rw [escape_of_plain hplain, escape_of_plain fun d hd => (List.mem_singleton.mp hd).symm ▸ hc]
    have hcons : escape (c :: s) = escape [c] ++ escape s := escape_append [c] s
    rw [hcons, Text.foldChars_append, hone, ih, Text.foldChars_cons c s, escape_append]

/-! ### The store's matching -/

theorem mem_endings {rest text : List Char} : rest ∈ PatternPart.endings text ↔ ∃ run, text = run ++ rest := by
  induction text with
  | nil => simp [PatternPart.endings]
  | cons c text ih =>
    rw [PatternPart.endings, List.mem_cons, ih]
    constructor
    · rintro (rfl | ⟨run, rfl⟩)
      · exact ⟨[], rfl⟩
      · exact ⟨c :: run, rfl⟩
    · rintro ⟨_ | ⟨d, run⟩, h⟩
      · exact Or.inl h.symm
      · exact Or.inr ⟨run, (List.cons.inj h).2⟩

section
variable {parts : List PatternPart} {text : List Char}

theorem accept_anyRun :
    PatternPart.accept (.anyRun :: parts) text = true ↔
      ∃ rest, (∃ run, text = run ++ rest) ∧ PatternPart.accept parts rest = true := by
  have haccept : PatternPart.accept (.anyRun :: parts) text =
      (PatternPart.endings text).any (PatternPart.accept parts) := rfl
  rw [haccept, List.any_eq_true]
  simp only [mem_endings]

theorem accept_anyOne :
    PatternPart.accept (.anyOne :: parts) text = true ↔
      ∃ rest, (∃ c, text = c :: rest) ∧ PatternPart.accept parts rest = true := by
  cases text with
  | nil =>
    have haccept : PatternPart.accept (.anyOne :: parts) [] = false := rfl
    simp [haccept]
  | cons c text =>
    have haccept : PatternPart.accept (.anyOne :: parts) (c :: text) = PatternPart.accept parts text := rfl
    simp [haccept]

theorem accept_char {c : Char} (hc : c.toLower = c) (htext : ∀ d ∈ text, d.toLower = d) :
    PatternPart.accept (.char c :: parts) text = true ↔
      ∃ rest, text = c :: rest ∧ PatternPart.accept parts rest = true := by
  cases text with
  | nil =>
    have haccept : PatternPart.accept (.char c :: parts) [] = false := rfl
    simp [haccept]
  | cons d text =>
    have haccept : PatternPart.accept (.char c :: parts) (d :: text) =
        (c.toLower == d.toLower && PatternPart.accept parts text) := rfl
    have hd := htext d List.mem_cons_self
    simp only [haccept, hc, hd, Bool.and_eq_true, beq_iff_eq, List.cons.injEq]
    constructor
    · rintro ⟨rfl, h⟩
      exact ⟨text, ⟨rfl, rfl⟩, h⟩
    · rintro ⟨_, ⟨rfl, rfl⟩, h⟩
      exact ⟨rfl, h⟩

/-- Whether the store finds that a text matches a pattern. -/
def Accepted (pattern text : List Char) : Prop :=
  ∃ parts, PatternPart.read? pattern = some parts ∧ PatternPart.accept parts text = true

/-- A pattern that begins with a part matches where the rest of it matches what the part leaves. -/
theorem accepted_iff {pattern whole : List Char} {part : PatternPart} {leaves : List Char → Prop}
    (hread : PatternPart.read? whole = (PatternPart.read? pattern).map (part :: ·))
    (hpart : ∀ parts, PatternPart.accept (part :: parts) text = true ↔
      ∃ rest, leaves rest ∧ PatternPart.accept parts rest = true)
    (hrest : ∀ rest, leaves rest → (Accepted pattern rest ↔ Like pattern rest)) :
    Accepted whole text ↔ ∃ rest, leaves rest ∧ Like pattern rest := by
  unfold Accepted at hrest ⊢
  rw [hread]
  constructor
  · rintro ⟨_, hwhole, haccept⟩
    obtain ⟨parts, hparts, rfl⟩ := Option.map_eq_some_iff.mp hwhole
    obtain ⟨rest, hleft, hmatch⟩ := (hpart parts).mp haccept
    exact ⟨rest, hleft, (hrest rest hleft).mp ⟨parts, hparts, hmatch⟩⟩
  · rintro ⟨rest, hleft, hlike⟩
    obtain ⟨parts, hparts, hmatch⟩ := (hrest rest hleft).mpr hlike
    exact ⟨part :: parts, by rw [hparts, Option.map_some], (hpart parts).mpr ⟨rest, hleft, hmatch⟩⟩

end

/-- Texts in lower case match as they do where the cases are told apart. -/
theorem accepted_iff_like (pattern : List Char) : ∀ (text : List Char), (∀ c ∈ pattern, c.toLower = c) →
    (∀ c ∈ text, c.toLower = c) → (Accepted pattern text ↔ Like pattern text) := by
  -- on the pattern as it is read, part by part
  induction pattern using PatternPart.read?.induct with
  | case1 =>
    intro text _ _
    simp [Accepted, PatternPart.read?, PatternPart.accept, like_nil]
  | case2 =>
    intro text _ _
    simp [Accepted, PatternPart.read?, like_lone]
  | case3 c pattern ih =>
    intro text hpattern htext
    have hc : c.toLower = c := hpattern c (by simp)
    rw [like_escaped]
    refine accepted_iff (by rw [PatternPart.read?]) (fun _ => accept_char hc htext) ?_
    rintro rest rfl
    exact ih rest (fun d hd => hpattern d (by simp [hd])) fun d hd => htext d (List.mem_cons_of_mem c hd)
  | case4 pattern ih =>
    intro text hpattern htext
    rw [like_run, exists_comm]
    simp only [exists_and_right]
    refine accepted_iff (by rw [PatternPart.read?]) (fun _ => accept_anyRun) ?_
    rintro rest ⟨run, rfl⟩
    exact ih rest (fun d hd => hpattern d (by simp [hd])) fun d hd => htext d (List.mem_append_right run hd)
  | case5 pattern ih =>
    intro text hpattern htext
    rw [like_one, exists_comm]
    simp only [exists_and_right]
    refine accepted_iff (by rw [PatternPart.read?]) (fun _ => accept_anyOne) ?_
    rintro rest ⟨c, rfl⟩
    exact ih rest (fun d hd => hpattern d (by simp [hd])) fun d hd => htext d (List.mem_cons_of_mem c hd)
  | case6 c pattern hlone hescape hrun hone ih =>
    intro text hpattern htext
    have hc : c.toLower = c := hpattern c List.mem_cons_self
    -- what is left is no mark: a run, a lone character and an escape have been read before
    have hplain : isSpecial c = false := by
      rw [Bool.eq_false_iff]
      intro hspecial
      rcases isSpecial_iff.mp hspecial with rfl | rfl | rfl
      · exact hrun rfl
      · exact hone rfl
      · cases pattern with
        | nil => exact hlone rfl rfl
        | cons d pattern => exact hescape d pattern rfl rfl
    rw [like_cons hplain]
    refine accepted_iff (by rw [PatternPart.read?] <;> assumption) (fun _ => accept_char hc htext) ?_
    rintro rest rfl
    exact ih rest (fun d hd => hpattern d (by simp [hd])) fun d hd => htext d (List.mem_cons_of_mem c hd)

/-- No character of the text is one that the store cuts it at or replaces. -/
def Matchable (s : String) : Prop :=
  ∀ c ∈ s.toList, c ≠ '\x00' ∧ c ≠ '\uFFFE' ∧ c ≠ '\uFFFF'

instance (s : String) : Decidable (Matchable s) :=
  decidable_of_iff ((s.toList.all fun c => c != '\x00' && c != '\uFFFE' && c != '\uFFFF') = true) (by
    simp [Matchable, and_assoc])

theorem Matchable.chars {s : String} (h : Matchable s) : matchedChars s = s.toList := by
  have hcut : s.toList.takeWhile (· != '\x00') = s.toList := by
    rw [List.takeWhile_eq_self_iff]
    intro c hc
    simpa using (h c hc).1
  rw [matchedChars, hcut]
  refine (List.map_congr_left fun c hc => ?_).trans (List.map_id s.toList)
  simp [h c hc]

theorem Matchable.foldAccents {s : String} (h : Matchable s) : Matchable (Text.foldAccents s) := by
  intro c hc
  rw [Text.foldAccents, String.toList_ofList] at hc
  have hkept (d : Char) (hd : Text.isHigh d = false) (hne : d ∉ s.toList) : c ≠ d := by
    rintro rfl
    exact hne (Text.mem_of_mem_foldChars hc hd)
  exact ⟨hkept _ rfl fun hmem => (h _ hmem).1 rfl, hkept _ rfl fun hmem => (h _ hmem).2.1 rfl,
    hkept _ rfl fun hmem => (h _ hmem).2.2 rfl⟩

/-- The store matches folded texts as SQL does. -/
theorem like_cell_iff {t pattern : String} (ht : Matchable t) (hpattern : Matchable pattern) :
    (Cell.text t).like (.text pattern) = .int 1 ↔
      Like (Text.foldAccents pattern).toList (Text.foldAccents t).toList := by
  have hlower (s : String) : ∀ c ∈ (Text.foldAccents s).toList, c.toLower = c := fun c hc => by
    rw [Text.foldAccents, String.toList_ofList] at hc
    exact Text.toLower_of_mem_foldChars hc
  rw [← accepted_iff_like _ _ (hlower pattern) (hlower t)]
  simp only [Cell.like, Cell.unaccent, likeText, ht.foldAccents.chars, hpattern.foldAccents.chars, Accepted,
    PatternPart.fits_eq_accept]
  cases PatternPart.read? (Text.foldAccents pattern).toList with
  | none => simp
  | some parts => simp

end Sql

/-! ### Text operators -/

namespace Operator

/-- The operator looks for a text in the text of a column. -/
def IsTextual (op : Operator) : Prop :=
  op = .contains ∨ op = .startsWith ∨ op = .endsWith

/-- The text is found where the operator looks for it. -/
def Finds (op : Operator) (sought text : List Char) : Prop :=
  match op with
  | .startsWith => sought <+: text
  | .endsWith => sought <:+ text
  | _ => sought <:+: text

instance (op : Operator) (sought text : List Char) : Decidable (op.Finds sought text) :=
  match op with
  | .startsWith => inferInstanceAs (Decidable (sought <+: text))
  | .endsWith => inferInstanceAs (Decidable (sought <:+ text))
  | .compare _ | .isIn | .notIn | .between | .isNull | .contains | .count _ | .eqSet =>
    inferInstanceAs (Decidable (sought <:+: text))

variable {op : Operator}

theorem toList_pattern (hop : op.IsTextual) (s : String) :
    (op.pattern s).toList = match op with
      | .startsWith => Sql.escape s.toList ++ ['%']
      | .endsWith => '%' :: Sql.escape s.toList
      | _ => '%' :: (Sql.escape s.toList ++ ['%']) := by
  rcases hop with rfl | rfl | rfl <;> simp [pattern, Sql.toList_escapePattern]

theorem matchable_pattern (hop : op.IsTextual) {s : String} (h : Sql.Matchable s) : Sql.Matchable (op.pattern s) := by
  intro c hc
  have hfound : c ∈ s.toList ∨ c = '%' ∨ c = '\\' := by
    rw [toList_pattern hop] at hc
    rcases hop with rfl | rfl | rfl <;> simp only [List.mem_cons, List.mem_append, List.not_mem_nil, or_false] at hc <;>
      grind [Sql.mem_escape]
  rcases hfound with hmem | rfl | rfl
  · exact h c hmem
  · decide
  · decide

theorem like_pattern (hop : op.IsTextual) (s : String) (text : List Char) :
    Sql.Like (Text.foldAccents (op.pattern s)).toList text ↔ op.Finds (Text.foldAccents s).toList text := by
  have hpercent : Text.foldChars ['%'] = ['%'] := Sql.foldChars_special rfl
  simp only [Text.foldAccents, String.toList_ofList, toList_pattern hop]
  rcases hop with rfl | rfl | rfl
  · rw [Text.foldChars_cons, Text.foldChars_append, hpercent, Sql.foldChars_escape, List.singleton_append, Sql.like_run]
    simp only [Sql.like_escape_append, Sql.like_anyRun, and_true]
    constructor
    · rintro ⟨run, _, rfl, rest, rfl⟩
      exact ⟨run, rest, List.append_assoc run _ rest⟩
    · rintro ⟨run, rest, rfl⟩
      exact ⟨run, _, List.append_assoc run _ rest, rest, rfl⟩
  · rw [Text.foldChars_append, hpercent, Sql.foldChars_escape]
    simp only [Sql.like_escape_append, Sql.like_anyRun, and_true]
    exact exists_congr fun rest => eq_comm
  · rw [Text.foldChars_cons, hpercent, Sql.foldChars_escape]
    simp only [List.singleton_append, Sql.like_run, Sql.like_escape]
    constructor
    · rintro ⟨run, _, rfl, rfl⟩
      exact ⟨run, rfl⟩
    · rintro ⟨run, rfl⟩
      exact ⟨run, _, rfl, rfl⟩

end Operator

/-- A text operator tests the folded text of its column by a pattern that, folded in its turn, matches the folded texts
in which the folded operand is found, and no others. The store finds the same, unless a text has characters that it cuts
texts at or replaces. -/
theorem Predicate.columnTest_finds {p : Predicate} {s : String} (hop : p.op.IsTextual)
    (hs : Operand.text? p.operand = some s) (col : Sql.ColumnRef) (type : ScalarType) :
    ∃ pattern, p.columnTest col type = .ok (.like col pattern) ∧
      (Test.like col pattern).render =
        ⟨"unaccent(" ++ col.text ++ ") LIKE unaccent(?) ESCAPE '\\'", [.text pattern]⟩ ∧
      ∀ t : String,
        (Sql.Like (Text.foldAccents pattern).toList (Text.foldAccents t).toList ↔
          p.op.Finds (Text.foldAccents s).toList (Text.foldAccents t).toList) ∧
        (Sql.Matchable s → Sql.Matchable t →
          ((Cell.text t).like (.text pattern) = .int 1 ↔
            p.op.Finds (Text.foldAccents s).toList (Text.foldAccents t).toList)) := by
  refine ⟨p.op.pattern s, ?compiles, rfl, fun t => ⟨Operator.like_pattern hop s _, fun hsought ht => ?stored⟩⟩
  case compiles =>
    obtain ⟨path, op, operand⟩ := p
    rcases hop with hop | hop | hop <;> simp only at hop hs <;> subst hop <;> simp [columnTest, hs]
  case stored =>
    rw [Sql.like_cell_iff ht (Operator.matchable_pattern hop hsought)]
    exact Operator.like_pattern hop s _

/-- The signs of patterns are looked for as they stand, and accents and cases are not told apart. -/
theorem columnTest_finds_title :
    let p : Predicate := ⟨⟨["title"]⟩, .contains, .str "5%_É\\"⟩
    ∃ pattern, p.columnTest ⟨"r", "title"⟩ .text = .ok (.like ⟨"r", "title"⟩ pattern) ∧
      Sql.Like (Text.foldAccents pattern).toList (Text.foldAccents "à 5%_e\\!").toList ∧
      (Cell.text "à 5%_e\\!").like (.text pattern) = .int 1 ∧
      ¬(Cell.text "à 50_e\\!").like (.text pattern) = .int 1 := by
  intro p
  obtain ⟨pattern, htest, -, hfinds⟩ := p.columnTest_finds (s := "5%_É\\") (Or.inl rfl) rfl ⟨"r", "title"⟩ .text
  have hsought : Sql.Matchable "5%_É\\" := by decide +kernel
  obtain ⟨hlike, hstored⟩ := hfinds "à 5%_e\\!"
  obtain ⟨-, hother⟩ := hfinds "à 50_e\\!"
  have hyes : p.op.Finds (Text.foldAccents "5%_É\\").toList (Text.foldAccents "à 5%_e\\!").toList := by
    decide +kernel
  have hno : ¬p.op.Finds (Text.foldAccents "5%_É\\").toList (Text.foldAccents "à 50_e\\!").toList := by
    decide +kernel
  have hstored := hstored hsought (by decide +kernel)
  have hother := hother hsought (by decide +kernel)
  refine ⟨pattern, htest, ?_, hstored.mpr hyes, fun h => hno (hother.mp h)⟩
  rwa [hlike]

end RecordService
