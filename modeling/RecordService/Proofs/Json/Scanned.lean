import RecordService.Json.Printer
import RecordService.Proofs.Json.Numerals

/-! # Scanning the text of a document

The scanner cuts the text of a document into the tokens that were written (`Json.scan?_compact`). Texts come out as they
went in, whatever their characters (`scanText?_escaped`). A number is scanned from its digits, which may not give the
same number (`Number.reread?`): all integers of a document do (`Number.reread?_int`), and a double does when its digits
are (`Number.reread?_float`). -/

namespace RecordService

open Double (Parts IsDigits Stops signText digitsValue takeWhile_digits dropWhile_digits isDigits_toDigits)

namespace Json

/-! ### Texts -/

theorem hexWord?_of_lt {c : Char} (h : c.toNat < 32) :
    hexWord? '0' '0' (Nat.digitChar (c.toNat / 16)) (Nat.digitChar (c.toNat % 16)) = some c.toNat := by
  generalize c.toNat = n at *
  revert n
  decide

/-- An escaped character is taken as the character. -/
theorem scanText?_escapeChar (c : Char) (taken : List Char) (rest : List Char) :
    scanText? (some taken) (escapeChar c ++ rest) = scanText? (some (c :: taken)) rest := by
  unfold escapeChar
  split
  all_goals try rfl
  rename_i hquote hbackslash _ _ _ _ _
  split
  · rename_i hlow
    have hnotLow : isLowHalf c.toNat = false := by simp [isLowHalf]; omega
    have hnotHigh : isHighHalf c.toNat = false := by simp [isHighHalf]; omega
    simp [scanText?, hexWord?_of_lt hlow, hnotLow, hnotHigh]
  · rename_i hplain
    rw [List.singleton_append, scanText?.eq_def]
    split <;> simp_all

/-- A text is taken up to its closing quote. -/
theorem scanText?_escaped (cs taken rest : List Char) :
    scanText? (some taken) (cs.flatMap escapeChar ++ '"' :: rest) = some (some (taken.reverse ++ cs), rest) := by
  induction cs generalizing taken with
  | nil =>
    rw [List.append_nil]
    rfl
  | cons c cs ih =>
    rw [List.flatMap_cons, List.append_assoc, scanText?_escapeChar, ih, List.reverse_cons, List.append_assoc,
      List.singleton_append]

theorem scanToken?_quote (s : String) (rest : List Char) :
    scanToken? ((quote s).toList ++ rest) = some (.str s, rest) := by
  have hscan := scanText?_escaped s.toList [] rest
  have htext (cs : List Char) : scanToken? ('"' :: cs) =
      (scanText? (some []) cs).map fun p => ((p.1.map (.str ∘ String.ofList)).getD .unreadable, p.2) := rfl
  rw [List.reverse_nil, List.nil_append] at hscan
  rw [quote, String.toList_ofList, List.cons_append, List.cons_append, List.append_assoc, List.singleton_append, htext]
  simp [hscan]

/-! ### Numbers -/

/-- What follows a number is no part of it. -/
def EndsNumber (rest : List Char) : Prop :=
  ∀ c ∈ rest.head?, c.isDigit = false ∧ c ≠ '.' ∧ c ≠ 'e' ∧ c ≠ 'E'

theorem EndsNumber.stops {rest : List Char} (h : EndsNumber rest) : Stops rest := fun c hc => (h c hc).1

/-- What follows the digits behind the point. -/
theorem EndsNumber.stops_exponentText {rest : List Char} (h : EndsNumber rest) (plus : Bool) (e : Option Int) :
    ∀ c ∈ (Parts.exponentText plus e ++ rest).head?, c.isDigit = false ∧ c ≠ '.' := by
  cases e with
  | none => exact fun c hc => ⟨(h c hc).1, (h c hc).2.1⟩
  | some e =>
    rintro c ⟨⟩
    decide

theorem scanExponent?_exponentText {rest : List Char} (hrest : EndsNumber rest) (plus : Bool) (e : Option Int) :
    scanExponent? (Parts.exponentText plus e ++ rest) = some (e, rest) := by
  cases e with
  | none =>
    rw [Parts.exponentText, List.nil_append, scanExponent?.eq_def]
    cases rest with
    | nil => rfl
    | cons c rest =>
      obtain ⟨-, -, hlower, hupper⟩ := hrest c rfl
      simp [hlower, hupper]
  | some e =>
    have hne : (Nat.toDigits 10 e.natAbs).isEmpty = false := by simp [Nat.toDigits_ne_nil]
    have hhead : ∀ c ∈ (Nat.toDigits 10 e.natAbs ++ rest).head?, c.isDigit = true := by
      rw [List.head?_append_of_ne_nil _ Nat.toDigits_ne_nil]
      exact (isDigits_toDigits _).head?
    simp only [Parts.exponentText, scanExponent?, List.cons_append, List.append_assoc, beq_self_eq_true, Bool.true_or,
      if_true, Parts.takeSign_exponent hhead, takeWhile_digits (isDigits_toDigits _) hrest.stops,
      dropWhile_digits (isDigits_toDigits _) hrest.stops, hne, Bool.false_eq_true, if_false,
      Double.digitsValue_toDigits, Parts.signed_natAbs]

theorem scanPlaces?_places {places rest : List Char} (hplaces : IsDigits places)
    (hrest : ∀ c ∈ rest.head?, c.isDigit = false ∧ c ≠ '.') :
    scanPlaces? ((if places.isEmpty then [] else '.' :: places) ++ rest) = some (places, rest) := by
  cases places with
  | nil =>
    rw [List.isEmpty_nil, if_pos rfl, List.nil_append, scanPlaces?.eq_def]
    split
    · exact absurd rfl (hrest '.' rfl).2
    · rfl
  | cons c places =>
    have hstops : Stops rest := fun c hc => (hrest c hc).1
    rw [List.isEmpty_cons, if_neg Bool.false_ne_true, List.cons_append, scanPlaces?]
    simp only [takeWhile_digits hplaces hstops, dropWhile_digits hplaces hstops, List.isEmpty_cons, Bool.false_eq_true,
      if_false]

/-- A number is scanned as its parts. -/
theorem scanNumber?_text {p : Parts} (h : p.WellFormed) (negative : Bool) {rest : List Char} (hrest : EndsNumber rest) :
    scanNumber? negative (p.text true ++ rest) =
      some (((numberOf? negative p.whole p.places p.exponent).map .num).getD .unreadable, rest) := by
  have hmantissa := hrest.stops_exponentText true p.exponent
  have hstops := Parts.stops_places (fun c hc => (hmantissa c hc).1) p.places
  have hempty : p.whole.isEmpty = false := by simp [h.whole_ne]
  have hleading : ¬(p.whole.head? = some '0' ∧ 1 < p.whole.length) := by
    rintro ⟨hzero, hlength⟩
    rw [h.leading hzero] at hlength
    exact absurd hlength (by decide)
  have hwhole : (p.whole.isEmpty || (p.whole.head? == some '0' && decide (1 < p.whole.length))) = false := by
    simpa [hempty] using hleading
  rw [scanNumber?, Parts.text, List.append_assoc, List.append_assoc]
  simp only [takeWhile_digits h.whole hstops, dropWhile_digits h.whole hstops, hwhole, Bool.false_eq_true, if_false,
    scanPlaces?_places h.places hmantissa, scanExponent?_exponentText hrest, Option.bind_eq_bind, Option.bind_some,
    Option.pure_def]

/-- What begins with a digit is a number. -/
theorem scanToken?_digit {cs : List Char} {c : Char} (hcs : cs.head? = some c) (hc : c.isDigit = true) :
    scanToken? cs = scanNumber? false cs := by
  obtain ⟨rest, rfl⟩ := List.head?_eq_some_iff.mp hcs
  rw [scanToken?.eq_def]
  split <;> first | rfl | exact absurd hc (by simp_all)

theorem scanToken?_text {n : Number} (h : n.Valid) {rest : List Char} (hrest : EndsNumber rest) :
    scanToken? (n.text.toList ++ rest) = some (n.token, rest) := by
  have hscan : scanNumber? n.isNegative (n.parts.text true ++ rest) = some (n.token, rest) :=
    scanNumber?_text n.wellFormed_parts n.isNegative hrest
  rw [Number.toList_text h, List.append_assoc]
  cases hsign : n.isNegative with
  | true =>
    rw [hsign] at hscan
    exact hscan
  | false =>
    obtain ⟨c, hc⟩ : ∃ c, (n.parts.text true ++ rest).head? = some c := by
      rw [← Option.isSome_iff_exists, List.isSome_head?]
      simp [Parts.text, n.wellFormed_parts.whole_ne]
    rw [hsign] at hscan
    exact (scanToken?_digit hc (n.head?_text_parts rest c hc)).trans hscan

/-! ### Tokens in a row -/

/-- The text begins with the tokens, and the scanner goes on with the rest. -/
def Scans (cs : List Char) (ts : List Token) (rest : List Char) : Prop :=
  ∀ found rounds, cs.length ≤ rounds → ∃ left, rest.length ≤ left ∧
    scanRounds found rounds cs = scanRounds (ts.reverse ++ found) left rest

theorem Scans.trans {cs middle rest : List Char} {ts us : List Token} (h : Scans cs ts middle)
    (h' : Scans middle us rest) : Scans cs (ts ++ us) rest := by
  intro found rounds hrounds
  obtain ⟨left, hleft, hscan⟩ := h found rounds hrounds
  obtain ⟨left', hleft', hscan'⟩ := h' (ts.reverse ++ found) left hleft
  exact ⟨left', hleft', by rw [hscan, hscan', List.reverse_append, List.append_assoc]⟩

theorem scans_token {cs rest : List Char} {t : Token} (hblank : ∃ c ∈ cs.head?, isSpace c = false)
    (h : scanToken? (cs ++ rest) = some (t, rest)) : Scans (cs ++ rest) [t] rest := by
  obtain ⟨c, hc, hspace⟩ := hblank
  obtain ⟨cs, rfl⟩ := List.head?_eq_some_iff.mp hc
  intro found rounds hrounds
  cases rounds with
  | zero => cases hrounds
  | succ rounds =>
    refine ⟨rounds, ?_, ?_⟩
    · rw [List.cons_append, List.length_cons, List.length_append] at hrounds
      omega
    · rw [List.cons_append] at h
      rw [List.cons_append, scanRounds, hspace, if_neg Bool.false_ne_true, h]
      rfl

/-- A mark of one character. -/
theorem scans_mark {c : Char} {rest : List Char} {t : Token} (hblank : isSpace c = false)
    (h : scanToken? (c :: rest) = some (t, rest)) : Scans (c :: rest) [t] rest :=
  @scans_token [c] rest t ⟨c, rfl, hblank⟩ h

theorem Scans.scan? {s : String} {ts : List Token} (h : Scans s.toList ts []) : Json.scan? s = some ts := by
  obtain ⟨left, -, hscan⟩ := h [] s.toList.length (Nat.le_refl _)
  rw [Json.scan?, hscan, scanRounds.eq_def]
  simp


theorem intercalate_one {α β : Type} (separator : β) (f : α → List β) (p : α) :
    [separator].intercalate ([p].map f) = f p := by
  simp

theorem intercalate_cons_cons {α β : Type} (separator : β) (f : α → List β) (p q : α) (pieces : List α) :
    [separator].intercalate ((p :: q :: pieces).map f) =
      f p ++ separator :: [separator].intercalate ((q :: pieces).map f) := by
  rw [List.map_cons, List.intercalate_cons_of_ne_nil (by simp), List.append_assoc, List.singleton_append]

/-- Pieces of a text with commas between them. -/
theorem scans_intercalate {α : Type} {text : α → List Char} {tokens : α → List Token} {rest : List Char}
    (hrest : EndsNumber rest) : ∀ {pieces : List α},
      (∀ p ∈ pieces, ∀ rest, EndsNumber rest → Scans (text p ++ rest) (tokens p) rest) →
      Scans ([','].intercalate (pieces.map text) ++ rest) ([Token.comma].intercalate (pieces.map tokens)) rest
  | [], _ => fun found rounds hrounds => ⟨rounds, hrounds, rfl⟩
  | [p], h => by
    rw [intercalate_one, intercalate_one]
    exact h p List.mem_cons_self rest hrest
  | p :: q :: pieces, h => by
    have hlater := scans_intercalate hrest fun d hd => h d (List.mem_cons_of_mem p hd)
    have hfirst := h p List.mem_cons_self (',' :: ([','].intercalate ((q :: pieces).map text) ++ rest))
      (by simp [EndsNumber])
    rw [intercalate_cons_cons, intercalate_cons_cons, List.append_assoc]
    exact hfirst.trans ((scans_mark rfl rfl).trans hlater)

/-! ### Documents -/

mutual

/-- The tokens of the text of a document. -/
def tokens : Json → List Token
  | .null => [.null]
  | .bool b => [.bool b]
  | .num n => [n.token]
  | .str s => [.str s]
  | .arr items => .openArr :: ([Token.comma].intercalate (itemTokens items) ++ [.closeArr])
  | .obj entries => .openObj :: ([Token.comma].intercalate (entryTokens entries) ++ [.closeObj])

def itemTokens : List Json → List (List Token)
  | [] => []
  | item :: rest => tokens item :: itemTokens rest

def entryTokens : List (String × Json) → List (List Token)
  | [] => []
  | (key, value) :: rest => (.str key :: .colon :: tokens value) :: entryTokens rest

end

/-- The tokens of an entry. -/
def memberTokens (e : String × Json) : List Token :=
  .str e.1 :: .colon :: e.2.tokens

/-- The text of an entry. -/
def memberText (e : String × Json) : List Char :=
  (quote e.1).toList ++ ':' :: e.2.compact.toList

theorem itemTokens_eq_map : ∀ items : List Json, itemTokens items = items.map tokens
  | [] => rfl
  | item :: rest => congrArg (item.tokens :: ·) (itemTokens_eq_map rest)

theorem entryTokens_eq_map : ∀ entries : Entries, entryTokens entries = entries.map memberTokens
  | [] => rfl
  | entry :: rest => congrArg (memberTokens entry :: ·) (entryTokens_eq_map rest)

theorem compactItems_eq_map : ∀ items : List Json, compactItems items = items.map compact
  | [] => rfl
  | item :: rest => congrArg (item.compact :: ·) (compactItems_eq_map rest)

theorem compactEntries_eq_map : ∀ entries : Entries,
    compactEntries entries = entries.map fun e => quote e.1 ++ ":" ++ e.2.compact
  | [] => rfl
  | (key, value) :: rest => congrArg ((quote key ++ ":" ++ value.compact) :: ·) (compactEntries_eq_map rest)

theorem head?_text {n : Number} (h : n.Valid) : ∃ c ∈ n.text.toList.head?, isSpace c = false := by
  have hdigit : ∀ c : Char, c.isDigit = true → isSpace c = false := by
    intro c hc
    simp only [isSpace, Bool.or_eq_false_iff, beq_eq_false_iff_ne]
    refine ⟨⟨⟨?_, ?_⟩, ?_⟩, ?_⟩ <;> (rintro rfl; exact absurd hc (by decide))
  rw [Number.toList_text h]
  cases n.isNegative with
  | true => exact ⟨'-', rfl, rfl⟩
  | false =>
    obtain ⟨c, rest, hwhole⟩ := List.exists_cons_of_ne_nil n.wellFormed_parts.whole_ne
    refine ⟨c, by simp [signText, Parts.text, hwhole], hdigit c (n.wellFormed_parts.whole c ?_)⟩
    rw [hwhole]
    exact List.mem_cons_self

theorem toList_compact_arr (items : List Json) :
    (compact (.arr items)).toList = '[' :: ([','].intercalate (items.map fun d => d.compact.toList) ++ [']']) := by
  simp [compact, compactItems_eq_map, String.toList_intercalate, Function.comp_def]

theorem toList_compact_obj (entries : Entries) :
    (compact (.obj entries)).toList = '\x7b' :: ([','].intercalate (entries.map memberText) ++ ['\x7d']) := by
  have hentry : memberText = fun e => (quote e.1).toList ++ ':' :: e.2.compact.toList := rfl
  simp [hentry, compact, compactEntries_eq_map, String.toList_intercalate, Function.comp_def]

/-- The tokens that are scanned are those of the document. -/
theorem scans_compact {d : Json} (h : ∀ n ∈ d.numbers, n.Valid) {rest : List Char} (hrest : EndsNumber rest) :
    Scans (d.compact.toList ++ rest) d.tokens rest := by
  induction d using Json.induction generalizing rest with
  | null => exact scans_token ⟨'n', by decide, rfl⟩ rfl
  | bool b => cases b with
    | true => exact scans_token ⟨'t', by decide, rfl⟩ rfl
    | false => exact scans_token ⟨'f', by decide, rfl⟩ rfl
  | num n =>
    have hn : n.Valid := h n (List.mem_singleton_self n)
    exact scans_token (head?_text hn) (scanToken?_text hn hrest)
  | str s => exact scans_token ⟨'"', by simp [compact, quote], rfl⟩ (scanToken?_quote s rest)
  | arr items ih =>
    rw [numbers, forall_numbersOfItems] at h
    -- a number ends where a mark follows it
    have hitems : Scans ([','].intercalate (items.map fun d => d.compact.toList) ++ ']' :: rest)
        ([Token.comma].intercalate (items.map tokens)) (']' :: rest) :=
      scans_intercalate (by simp [EndsNumber]) fun d hd _ => ih d hd (h d hd)
    rw [toList_compact_arr, tokens, itemTokens_eq_map, List.cons_append, List.append_assoc, List.singleton_append]
    exact (scans_mark rfl rfl).trans (hitems.trans (scans_mark rfl rfl))
  | obj entries ih =>
    rw [numbers, forall_numbersOfEntries] at h
    have hentries : Scans ([','].intercalate (entries.map memberText) ++ '\x7d' :: rest)
        ([Token.comma].intercalate (entries.map memberTokens)) ('\x7d' :: rest) := by
      refine scans_intercalate (by simp [EndsNumber]) fun e he rest hrest => ?_
      have hkey : Scans ((quote e.1).toList ++ ':' :: (e.2.compact.toList ++ rest)) [.str e.1]
          (':' :: (e.2.compact.toList ++ rest)) :=
        scans_token ⟨'"', by simp [quote], rfl⟩ (scanToken?_quote e.1 _)
      rw [memberText, List.append_assoc, List.cons_append]
      exact hkey.trans ((scans_mark rfl rfl).trans (ih e he (h e he) hrest))
    rw [toList_compact_obj, tokens, entryTokens_eq_map, List.cons_append, List.append_assoc, List.singleton_append]
    exact (scans_mark rfl rfl).trans (hentries.trans (scans_mark rfl rfl))

theorem scan?_compact {d : Json} (h : ∀ n ∈ d.numbers, n.Valid) : scan? d.compact = some d.tokens := by
  refine Scans.scan? ?_
  rw [← List.append_nil d.compact.toList]
  exact scans_compact h nofun

end Json
end RecordService
