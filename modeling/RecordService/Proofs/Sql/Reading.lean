import RecordService.Sql.Fragment

/-! # Reading conditions

A condition is a formula over atoms (`Formula`) and is written with parentheses around groups and negated parts. SQL
reads the text back by precedence, NOT over AND over OR (`Reads`), and in three truth values. A text has one reading
(`Reads.eq_read`), and that of a written formula is the value of the formula (`Formula.reads_iff`). -/

namespace RecordService.Sql

/-! ### Truth values -/

inductive Truth where
  | no
  | unknown
  | yes
deriving DecidableEq, Repr

namespace Truth

def and : Truth → Truth → Truth
  | no, _ => no
  | yes, t => t
  | unknown, no => no
  | unknown, _ => unknown

def not : Truth → Truth
  | no => yes
  | unknown => unknown
  | yes => no

def or (t u : Truth) : Truth :=
  (t.not.and u.not).not

variable (t u w : Truth)

theorem and_assoc : (t.and u).and w = t.and (u.and w) := by
  cases t <;> cases u <;> cases w <;> rfl

theorem or_assoc : (t.or u).or w = t.or (u.or w) := by
  cases t <;> cases u <;> cases w <;> rfl

@[simp] theorem yes_and : yes.and t = t := rfl

@[simp] theorem and_yes : t.and yes = t := by
  cases t <;> rfl

@[simp] theorem no_or : no.or t = t := by
  cases t <;> rfl

@[simp] theorem or_no : t.or no = t := by
  cases t <;> rfl

@[simp] theorem not_not : t.not.not = t := by
  cases t <;> rfl

end Truth

/-- What a connective makes of two truth values. -/
def Connective.apply : Connective → Truth → Truth → Truth
  | .and => Truth.and
  | .or => Truth.or

/-- The value of no parts at all. -/
def Connective.neutral : Connective → Truth
  | .and => .yes
  | .or => .no

/-! ### Texts as tokens -/

/-- An atom or a word of a condition. -/
inductive Token (α : Type) where
  | atom (a : α)
  | opening
  | closing
  | and
  | or
  | not
deriving DecidableEq, Repr

/-- The text of a token, with its blanks. -/
def Token.text {α : Type} (print : α → String) : Token α → String
  | atom a => print a
  | opening => "("
  | closing => ")"
  | and => Connective.and.text
  | or => Connective.or.text
  | not => "NOT "

def Connective.token {α : Type} : Connective → Token α
  | .and => .and
  | .or => .or

/-- How tightly an expression binds. -/
inductive Level where
  | primary
  | negation
  | conjunction
  | disjunction
deriving DecidableEq, Repr

/-- The expressions of each level and their values, for given values of the atoms. Rows of ANDs and of ORs may be
taken apart anywhere. -/
inductive Reads {α : Type} (v : α → Truth) : Level → List (Token α) → Truth → Prop where
  | atom (a : α) : Reads v .primary [.atom a] (v a)
  | parens {ts t} : Reads v .disjunction ts t → Reads v .primary (.opening :: (ts ++ [.closing])) t
  | primary {ts t} : Reads v .primary ts t → Reads v .negation ts t
  | not {ts t} : Reads v .negation ts t → Reads v .negation (.not :: ts) t.not
  | negation {ts t} : Reads v .negation ts t → Reads v .conjunction ts t
  | and {ts us t u} : Reads v .conjunction ts t → Reads v .conjunction us u →
      Reads v .conjunction (ts ++ .and :: us) (t.and u)
  | conjunction {ts t} : Reads v .conjunction ts t → Reads v .disjunction ts t
  | or {ts us t u} : Reads v .disjunction ts t → Reads v .disjunction us u →
      Reads v .disjunction (ts ++ .or :: us) (t.or u)

/-! ### One reading

A reader that goes from left to right and keeps, for every open parenthesis, what has been read in it so far. It comes
to the value of every derivation, so that there is only one. -/

/-- What has been read between two parentheses: the finished disjuncts, the conjuncts of the last one, and whether the
next operand is negated. -/
structure Frame where
  disjuncts : Truth
  conjuncts : Truth
  negated : Bool

namespace Frame

def start : Frame :=
  ⟨.no, .yes, false⟩

/-- The value of all that has been read. -/
def value (f : Frame) : Truth :=
  f.disjuncts.or f.conjuncts

/-- Takes in an operand. -/
def take (f : Frame) (t : Truth) : Frame :=
  ⟨f.disjuncts, f.conjuncts.and (if f.negated then t.not else t), false⟩

def negate (f : Frame) : Frame :=
  { f with negated := !f.negated }

/-- Ends a disjunct. -/
def turn (f : Frame) : Frame :=
  ⟨f.value, .yes, false⟩

theorem take_negate (f : Frame) (t : Truth) : f.negate.take t = f.take t.not := by
  obtain ⟨d, c, negated⟩ := f
  cases negated <;> simp [negate, take]

/-- The frames that an expression of a value may lead to from `f`, by its level. -/
def Settles (f : Frame) (t : Truth) (f' : Frame) : Level → Prop
  | .primary | .negation => f' = f.take t
  | .conjunction => f.negated = false → f' = f.take t
  | .disjunction => f.negated = false → f.conjuncts = .yes → f'.value = f.disjuncts.or t ∧ f'.negated = false

end Frame

variable {α : Type} {v : α → Truth}

/-- Reads tokens from inside some open parentheses, the innermost first. -/
def readFrom (v : α → Truth) : List (Token α) → Frame → List Frame → Truth
  | [], f, _ => f.value
  | .atom a :: rest, f, outer => readFrom v rest (f.take (v a)) outer
  | .not :: rest, f, outer => readFrom v rest f.negate outer
  | .and :: rest, f, outer => readFrom v rest f outer
  | .or :: rest, f, outer => readFrom v rest f.turn outer
  | .opening :: rest, f, outer => readFrom v rest .start (f :: outer)
  | .closing :: rest, f, g :: outer => readFrom v rest (g.take f.value) outer
  | .closing :: _, f, [] => f.value

def read (v : α → Truth) (ts : List (Token α)) : Truth :=
  readFrom v ts .start []

/-- The reader passes an expression with its value. -/
theorem Reads.readFrom {level : Level} {ts : List (Token α)} {t : Truth} (h : Reads v level ts t) (f : Frame) :
    ∃ f', f.Settles t f' level ∧ ∀ rest outer, readFrom v (ts ++ rest) f outer = Sql.readFrom v rest f' outer := by
  -- on how the expression is read, for every frame that it can stand in
  induction h generalizing f with
  | atom a => exact ⟨f.take (v a), rfl, fun _ _ => rfl⟩
  | @parens ts t _ ih =>
    obtain ⟨f', hf', hread⟩ := ih .start
    obtain ⟨hvalue, -⟩ := hf' rfl rfl
    refine ⟨f.take t, rfl, fun rest outer => ?_⟩
    rw [List.cons_append, List.append_assoc, Sql.readFrom, hread, List.singleton_append, Sql.readFrom, hvalue]
    rw [Frame.start, Truth.no_or]
  | primary _ ih => exact ih f
  | @not ts t _ ih =>
    obtain ⟨f', rfl, hread⟩ := ih f.negate
    exact ⟨_, f.take_negate t, hread⟩
  | negation _ ih =>
    obtain ⟨f', hf', hread⟩ := ih f
    exact ⟨f', fun _ => hf', hread⟩
  | @and ts us t u _ _ iht ihu =>
    obtain ⟨f₁, hf₁, hread₁⟩ := iht f
    obtain ⟨f₂, hf₂, hread₂⟩ := ihu f₁
    refine ⟨f₂, fun hneg => ?_, fun rest outer => ?_⟩
    · have h₁ : f₁ = f.take t := hf₁ hneg
      have h₂ : f₂ = f₁.take u := hf₂ (h₁ ▸ rfl)
      rw [h₂, h₁]
      simp [Frame.take, hneg, Truth.and_assoc]
    · rw [List.append_assoc, hread₁, List.cons_append, Sql.readFrom, hread₂]
  | @conjunction ts t _ ih =>
    obtain ⟨f', hf', hread⟩ := ih f
    refine ⟨f', fun hneg hyes => ?_, hread⟩
    have h' : f' = f.take t := hf' hneg
    rw [h']
    exact ⟨by simp [Frame.value, Frame.take, hneg, hyes], rfl⟩
  | @or ts us t u _ _ iht ihu =>
    obtain ⟨f₁, hf₁, hread₁⟩ := iht f
    obtain ⟨f₂, hf₂, hread₂⟩ := ihu f₁.turn
    refine ⟨f₂, fun hneg hyes => ?_, fun rest outer => ?_⟩
    · obtain ⟨hvalue₁, -⟩ := hf₁ hneg hyes
      obtain ⟨hvalue₂, hneg₂⟩ := hf₂ rfl rfl
      refine ⟨?_, hneg₂⟩
      rw [hvalue₂, Frame.turn, hvalue₁, Truth.or_assoc]
    · rw [List.append_assoc, hread₁, List.cons_append, Sql.readFrom, hread₂]

/-- An expression has one value, whatever its level. -/
theorem Reads.eq_read {level : Level} {ts : List (Token α)} {t : Truth} (h : Reads v level ts t) :
    t = read v ts := by
  obtain ⟨f', hf', hread⟩ := h.readFrom .start
  have hvalue : f'.value = t := by
    cases level with
    | primary | negation => rw [show f' = _ from hf']; simp [Frame.value, Frame.take, Frame.start]
    | conjunction => rw [show f' = _ from hf' rfl]; simp [Frame.value, Frame.take, Frame.start]
    | disjunction => rw [(hf' rfl rfl).1, Frame.start, Truth.no_or]
  rw [read, ← List.append_nil ts, hread, Sql.readFrom, hvalue]

/-! ### Formulas -/

inductive Formula (α : Type) where
  | atom (a : α)
  | group (connective : Connective) (parts : List (Formula α))
  | not (part : Formula α)

namespace Formula

variable {β : Type}

/-- The pieces with the separator between them. -/
def interleave (separator : Token α) : List (List (Token α)) → List (Token α)
  | [] => []
  | [piece] => piece
  | piece :: rest => piece ++ separator :: interleave separator rest

mutual

/-- The atoms, from left to right. -/
def atoms : Formula α → List α
  | atom a => [a]
  | group _ parts => atomsOfAll parts
  | not part => part.atoms

def atomsOfAll : List (Formula α) → List α
  | [] => []
  | part :: rest => part.atoms ++ atomsOfAll rest

end

mutual

def map (f : α → β) : Formula α → Formula β
  | atom a => atom (f a)
  | group c parts => group c (mapAll f parts)
  | not part => not (part.map f)

def mapAll (f : α → β) : List (Formula α) → List (Formula β)
  | [] => []
  | part :: rest => part.map f :: mapAll f rest

end

/-- A group of parts, if there are any. -/
def groupOf (c : Connective) (parts : List (Formula α)) : Option (Formula α) :=
  if parts.isEmpty then none else some (group c parts)

mutual

/-- What is left of a formula without the atoms that are not kept: groups and negations without content go with
them. -/
def trim (keep : α → Bool) : Formula α → Option (Formula α)
  | atom a => if keep a then some (atom a) else none
  | group c parts => groupOf c (trimAll keep parts)
  | not part => (part.trim keep).map not

def trimAll (keep : α → Bool) : List (Formula α) → List (Formula α)
  | [] => []
  | part :: rest => (part.trim keep).toList ++ trimAll keep rest

end

mutual

def value (v : α → Truth) : Formula α → Truth
  | atom a => v a
  | group c parts => valueOfAll v c parts
  | not part => (part.value v).not

/-- The value of parts under one connective. -/
def valueOfAll (v : α → Truth) (c : Connective) : List (Formula α) → Truth
  | [] => c.neutral
  | part :: rest => c.apply (part.value v) (valueOfAll v c rest)

end

mutual

/-- The formula as a text: a group in parentheses even when it has one part, a negation around parentheses. -/
def text (print : α → String) : Formula α → String
  | atom a => print a
  | group c parts => "(" ++ String.intercalate c.text (texts print parts) ++ ")"
  | not part => "NOT (" ++ part.text print ++ ")"

def texts (print : α → String) : List (Formula α) → List String
  | [] => []
  | part :: rest => part.text print :: texts print rest

end

mutual

/-- The tokens of the text. -/
def tokens : Formula α → List (Token α)
  | atom a => [.atom a]
  | group c parts => .opening :: (interleave c.token (tokensOfAll parts) ++ [.closing])
  | not part => .not :: .opening :: (part.tokens ++ [.closing])

def tokensOfAll : List (Formula α) → List (List (Token α))
  | [] => []
  | part :: rest => part.tokens :: tokensOfAll rest

end

mutual

/-- No group is without parts. -/
def Full : Formula α → Prop
  | atom _ => True
  | group _ parts => parts ≠ [] ∧ FullAll parts
  | not part => part.Full

def FullAll : List (Formula α) → Prop
  | [] => True
  | part :: rest => part.Full ∧ FullAll rest

end

/-! ### Trimming -/

theorem atomsOfAll_append (a b : List (Formula α)) : atomsOfAll (a ++ b) = atomsOfAll a ++ atomsOfAll b := by
  induction a with
  | nil => rfl
  | cons part rest ih => rw [List.cons_append, atomsOfAll, atomsOfAll, ih, List.append_assoc]

theorem fullAll_append {a b : List (Formula α)} (ha : FullAll a) (hb : FullAll b) : FullAll (a ++ b) := by
  induction a with
  | nil => exact hb
  | cons part rest ih => exact ⟨ha.1, ih ha.2⟩

theorem atomsOfAll_groupOf (c : Connective) (parts : List (Formula α)) :
    atomsOfAll (groupOf c parts).toList = atomsOfAll parts := by
  cases parts with
  | nil => rfl
  | cons part rest => exact List.append_nil _

theorem atomsOfAll_not (part : Option (Formula α)) : atomsOfAll (part.map not).toList = atomsOfAll part.toList := by
  cases part <;> rfl

theorem map_groupOf (f : α → β) (c : Connective) (parts : List (Formula α)) :
    (groupOf c parts).map (map f) = groupOf c (mapAll f parts) := by
  cases parts <;> rfl

theorem fullAll_groupOf (c : Connective) {parts : List (Formula α)} (h : FullAll parts) :
    FullAll (groupOf c parts).toList := by
  cases parts with
  | nil => trivial
  | cons part rest => exact ⟨⟨List.cons_ne_nil part rest, h⟩, trivial⟩

theorem fullAll_not {part : Option (Formula α)} (h : FullAll part.toList) : FullAll (part.map not).toList := by
  cases part with
  | none => trivial
  | some part => exact h

mutual

theorem full_trim (keep : α → Bool) : ∀ f : Formula α, FullAll (f.trim keep).toList
  | atom a => by
    rw [trim]
    split <;> simp [FullAll, Full]
  | group c parts => fullAll_groupOf c (full_trimAll keep parts)
  | not part => fullAll_not (full_trim keep part)

theorem full_trimAll (keep : α → Bool) : ∀ parts : List (Formula α), FullAll (trimAll keep parts)
  | [] => trivial
  | part :: rest => fullAll_append (full_trim keep part) (full_trimAll keep rest)

end

mutual

theorem full_map (f : α → β) : ∀ g : Formula α, (g.map f).Full → g.Full
  | atom _, _ => trivial
  | group _ parts, h => by
    refine ⟨?_, fullAll_mapAll f parts h.2⟩
    rintro rfl
    exact h.1 rfl
  | not part, h => full_map f part h

theorem fullAll_mapAll (f : α → β) : ∀ parts : List (Formula α), FullAll (mapAll f parts) → FullAll parts
  | [], _ => trivial
  | part :: rest, h => ⟨full_map f part h.1, fullAll_mapAll f rest h.2⟩

end

/-! ### Written and read -/

theorem texts_eq (print : α → String) (parts : List (Formula α)) : texts print parts = parts.map (text print) := by
  induction parts with
  | nil => rfl
  | cons part rest ih => rw [texts, ih, List.map_cons]

/-- The text of tokens in a row. -/
def spell (print : α → String) (ts : List (Token α)) : String :=
  String.join (ts.map (Token.text print))

theorem spell_append (print : α → String) (ts us : List (Token α)) :
    spell print (ts ++ us) = spell print ts ++ spell print us := by
  rw [spell, List.map_append, String.join_append]
  rfl

theorem spell_cons (print : α → String) (t : Token α) (ts : List (Token α)) :
    spell print (t :: ts) = t.text print ++ spell print ts :=
  String.join_cons

theorem spell_interleave (print : α → String) (c : Connective) : ∀ pieces : List (List (Token α)),
    spell print (interleave c.token pieces) = String.intercalate c.text (pieces.map (spell print))
  | [] => rfl
  | [piece] => by
    rw [interleave, List.map_singleton, String.intercalate_singleton]
  | piece :: next :: rest => by
    have hc : (c.token : Token α).text print = c.text := by
      cases c <;> rfl
    have hstep : interleave c.token (piece :: next :: rest) =
        piece ++ c.token :: interleave c.token (next :: rest) := rfl
    rw [hstep, spell_append, spell_cons, spell_interleave print c (next :: rest), hc]
    simp only [List.map_cons, String.intercalate_cons_cons, String.append_assoc]

mutual

theorem spell_tokens (print : α → String) : ∀ f : Formula α, spell print f.tokens = f.text print
  | atom a => by
    rw [tokens, spell_cons]
    exact String.append_empty
  | group c parts => by
    rw [tokens, spell_cons, spell_append, spell_interleave, spell_tokensOfAll print parts, text, String.append_assoc]
    rfl
  | not part => by
    rw [tokens, spell_cons, spell_cons, spell_append, spell_tokens print part, text, ← String.append_assoc,
      ← String.append_assoc]
    rfl

theorem spell_tokensOfAll (print : α → String) : ∀ parts : List (Formula α),
    (tokensOfAll parts).map (spell print) = texts print parts
  | [] => rfl
  | part :: rest => by
    rw [tokensOfAll, List.map_cons, spell_tokens print part, spell_tokensOfAll print rest, texts]

end

end Formula

/-! ### The reading of a formula -/

/-- The level of expressions under a connective. -/
def Connective.level : Connective → Level
  | .and => .conjunction
  | .or => .disjunction

namespace Reads

variable {c : Connective} {ts us : List (Token α)} {t u : Truth}

theorem operand (c : Connective) (h : Reads v .negation ts t) : Reads v c.level ts t := by
  cases c with
  | and => exact h.negation
  | or => exact h.negation.conjunction

theorem connect (h : Reads v c.level ts t) (h' : Reads v c.level us u) :
    Reads v c.level (ts ++ c.token :: us) (c.apply t u) := by
  cases c with
  | and => exact h.and h'
  | or => exact h.or h'

theorem whole (h : Reads v c.level ts t) : Reads v .disjunction ts t := by
  cases c with
  | and => exact h.conjunction
  | or => exact h

end Reads

namespace Formula

theorem apply_neutral (c : Connective) (t : Truth) : c.apply t c.neutral = t := by
  cases c with
  | and => exact t.and_yes
  | or => exact t.or_no

mutual

theorem reads_tokens : ∀ f : Formula α, f.Full → Reads v .negation f.tokens (f.value v)
  | atom a, _ => (Reads.atom a).primary
  | group c parts, h => by
    have hparts := reads_tokensOfAll c parts h.1 h.2
    exact hparts.whole.parens.primary
  | not part, h => by
    have hpart : Reads v .negation part.tokens (part.value v) := reads_tokens part h
    exact hpart.negation.conjunction.parens.primary.not

theorem reads_tokensOfAll (c : Connective) : ∀ parts : List (Formula α), parts ≠ [] → FullAll parts →
    Reads v c.level (interleave c.token (tokensOfAll parts)) (valueOfAll v c parts)
  | [], hne, _ => absurd rfl hne
  | [part], _, h => by
    rw [valueOfAll, valueOfAll, apply_neutral]
    exact (reads_tokens part h.1).operand c
  | part :: next :: rest, _, h => by
    have hrest := reads_tokensOfAll c (next :: rest) (by simp) h.2
    exact ((reads_tokens part h.1).operand c).connect hrest

end

/-- The parts of a conjunction, written in a row, read as the conjunction and as nothing else: on their own, and as
operands of further ANDs. -/
theorem reads_iff {parts : List (Formula α)} (hne : parts ≠ []) (hfull : FullAll parts) {level : Level}
    (hlevel : level = .conjunction ∨ level = .disjunction) {t : Truth} :
    Reads v level (interleave .and (tokensOfAll parts)) t ↔ t = valueOfAll v .and parts := by
  have hreads : Reads v .conjunction (interleave .and (tokensOfAll parts)) (valueOfAll v .and parts) :=
    reads_tokensOfAll .and parts hne hfull
  constructor
  · intro h
    rw [h.eq_read, hreads.eq_read]
  · rintro rfl
    rcases hlevel with rfl | rfl
    · exact hreads
    · exact hreads.conjunction

end Formula
end RecordService.Sql
