import RecordService.Json.Reader

/-! # Texts read as texts

A document text that is read as a text has it in quotes, so that it is longer (`Json.length_of_read?`); no text is read
as itself (`Json.read?_ne_self`). -/

namespace RecordService.Json

/-! ### What a scanner takes -/

/-- The least number of characters that a token takes. -/
def Token.size : Token → Nat
  | .str s => s.length + 2
  | _ => 0

/-- A scanned text, with what follows it, is shorter than what was taken before and what was left of the characters. -/
def Fits (taken : Option (List Char)) (cs : List Char) (text : Option (List Char)) (rest : List Char) : Prop :=
  rest.length < cs.length ∧
    ∀ t, text = some t → ∃ before, taken = some before ∧ t.length + rest.length < before.length + cs.length

namespace Fits

variable {taken text : Option (List Char)} {cs cs' rest : List Char}

theorem of_map {c : Char} (h : Fits (taken.map (c :: ·)) cs' text rest) (hlt : cs'.length < cs.length) :
    Fits taken cs text rest := by
  refine ⟨Nat.lt_trans h.1 hlt, fun t ht => ?_⟩
  obtain ⟨_, hbefore, hle⟩ := h.2 t ht
  obtain ⟨before, rfl, rfl⟩ := Option.map_eq_some_iff.mp hbefore
  rw [List.length_cons] at hle
  exact ⟨before, rfl, by omega⟩

theorem of_none (h : Fits none cs' text rest) (hlt : cs'.length < cs.length) : Fits taken cs text rest := by
  refine ⟨Nat.lt_trans h.1 hlt, fun t ht => ?_⟩
  obtain ⟨_, habsurd, -⟩ := h.2 t ht
  cases habsurd

end Fits

-- An escape takes up to twelve characters at once, so the induction is on a bound of the length.
theorem fits_scanText? (n : Nat) : ∀ {taken text : Option (List Char)} {cs rest : List Char}, cs.length ≤ n →
    scanText? taken cs = some (text, rest) → Fits taken cs text rest := by
  induction n with
  | zero =>
    intro taken text cs rest hn h
    obtain rfl := List.length_eq_zero_iff.mp (Nat.le_zero.mp hn)
    rw [scanText?.eq_def] at h
    cases h
  | succ n ih =>
    intro taken text cs rest hn h
    rw [scanText?.eq_def] at h
    split at h
    · obtain ⟨rfl, rfl⟩ := Prod.mk.inj (Option.some.inj h)
      refine ⟨Nat.lt_succ_self _, fun t ht => ?_⟩
      obtain ⟨before, hbefore, rfl⟩ := Option.map_eq_some_iff.mp ht
      exact ⟨before, hbefore, by simp⟩
    · rename_i a b c d more
      simp only [List.length_cons] at hn
      obtain ⟨code, -, h⟩ := Option.bind_eq_some_iff.mp h
      -- half of a surrogate pair leaves no text behind
      split at h
      · exact (ih (by omega) h).of_none (by simp only [List.length_cons]; omega)
      · split at h
        · split at h
          · rename_i e f g k later
            simp only [List.length_cons] at hn
            obtain ⟨low, -, h⟩ := Option.bind_eq_some_iff.mp h
            split at h
            · exact (ih (by omega) h).of_map (by simp only [List.length_cons]; omega)
            · exact (ih (by omega) h).of_none (by simp only [List.length_cons]; omega)
          · exact (ih (by omega) h).of_none (by simp only [List.length_cons]; omega)
        · exact (ih (by omega) h).of_map (by simp only [List.length_cons]; omega)
    · rename_i c more _
      simp only [List.length_cons] at hn
      obtain ⟨letter, -, h⟩ := Option.bind_eq_some_iff.mp h
      exact (ih (by omega) h).of_map (by simp only [List.length_cons]; omega)
    · rename_i c more _ _ _
      simp only [List.length_cons] at hn
      split at h
      · cases h
      · exact (ih (by omega) h).of_map (by simp only [List.length_cons]; omega)
    · cases h

theorem length_scanPlaces? {cs rest places : List Char} (h : scanPlaces? cs = some (places, rest)) :
    rest.length ≤ cs.length := by
  rw [scanPlaces?.eq_def] at h
  split at h
  · rename_i more
    dsimp only at h
    split at h
    · cases h
    · obtain ⟨-, rfl⟩ := Prod.mk.inj (Option.some.inj h)
      exact Nat.le_succ_of_le (List.dropWhile_sublist _).length_le
  · obtain ⟨-, rfl⟩ := Prod.mk.inj (Option.some.inj h)
    exact Nat.le_refl _

theorem length_takeSign (cs : List Char) : (Double.takeSign cs).2.length ≤ cs.length := by
  rw [Double.takeSign.eq_def]
  split <;> simp

theorem length_scanExponent? {cs rest : List Char} {e : Option Int} (h : scanExponent? cs = some (e, rest)) :
    rest.length ≤ cs.length := by
  rw [scanExponent?.eq_def] at h
  split at h
  · rename_i c more
    have hsign := length_takeSign more
    generalize Double.takeSign more = signed at *
    dsimp only at h
    split at h
    · split at h
      · cases h
      · obtain ⟨-, rfl⟩ := Prod.mk.inj (Option.some.inj h)
        exact Nat.le_succ_of_le (Nat.le_trans (List.dropWhile_sublist _).length_le hsign)
    · obtain ⟨-, rfl⟩ := Prod.mk.inj (Option.some.inj h)
      exact Nat.le_refl _
  · obtain ⟨-, rfl⟩ := Prod.mk.inj (Option.some.inj h)
    exact Nat.le_refl _

theorem length_scanNumber? {negative : Bool} {cs rest : List Char} {t : Token}
    (h : scanNumber? negative cs = some (t, rest)) : t.size + rest.length ≤ cs.length := by
  rw [scanNumber?] at h
  dsimp only at h
  split at h
  · cases h
  · obtain ⟨⟨places, later⟩, hplaces, h⟩ := Option.bind_eq_some_iff.mp h
    obtain ⟨⟨e, last⟩, hexponent, h⟩ := Option.bind_eq_some_iff.mp h
    obtain ⟨rfl, rfl⟩ := Prod.mk.inj (Option.some.inj h)
    have hnumber : ∀ n : Option Number, ((n.map Token.num).getD .unreadable).size = 0 := fun n => by cases n <;> rfl
    have hwhole : (cs.dropWhile Char.isDigit).length ≤ cs.length := (List.dropWhile_sublist _).length_le
    rw [hnumber, Nat.zero_add]
    exact Nat.le_trans (length_scanExponent? hexponent) (Nat.le_trans (length_scanPlaces? hplaces) hwhole)

/-- What is scanned as a token is no shorter than it. -/
theorem length_scanToken? {cs rest : List Char} {t : Token} (h : scanToken? cs = some (t, rest)) :
    t.size + rest.length ≤ cs.length := by
  rw [scanToken?.eq_def] at h
  split at h
  -- a text is longer than what it says, by its quotes at least
  case h_7 more =>
    obtain ⟨⟨text, later⟩, hscan, h⟩ := Option.map_eq_some_iff.mp h
    obtain ⟨rfl, rfl⟩ := Prod.mk.inj h
    obtain ⟨hlt, htext⟩ := fits_scanText? more.length (Nat.le_refl _) hscan
    cases text with
    | none => exact (Nat.zero_add _).symm ▸ Nat.le_succ_of_le (Nat.le_of_lt hlt)
    | some word =>
      obtain ⟨_, hbefore, hle⟩ := htext word rfl
      cases hbefore
      simp only [List.length_nil, List.length_cons, Option.map_some, Option.getD_some, Function.comp_apply, Token.size,
        String.length_ofList] at hle ⊢
      omega
  case h_8 more =>
    have := length_scanNumber? h
    simp only [List.length_cons]
    omega
  case h_12 => exact length_scanNumber? h
  all_goals
    obtain ⟨rfl, rfl⟩ := Prod.mk.inj (Option.some.inj h)
    simp only [Token.size, List.length_cons]
    omega

/-- A token that is found is one of those found before, or no longer than what was left of the text. -/
theorem size_le_of_mem {t : Token} {ts : List Token} (ht : t ∈ ts) : ∀ {rounds : Nat} {found : List Token}
    {cs : List Char}, scanRounds found rounds cs = some ts → t ∈ found ∨ t.size ≤ cs.length
  | _, found, [], h => by
    rw [scanRounds] at h
    exact Or.inl (List.mem_reverse.mp (Option.some.inj h ▸ ht))
  | 0, _, _ :: _, h => by cases h
  | rounds + 1, found, c :: rest, h => by
    rw [scanRounds] at h
    split at h
    · exact (size_le_of_mem ht h).imp_right Nat.le_succ_of_le
    · obtain ⟨⟨token, later⟩, htoken, h⟩ := Option.bind_eq_some_iff.mp h
      have hlength := length_scanToken? htoken
      rcases size_le_of_mem ht h with hmem | hle
      · rcases List.mem_cons.mp hmem with rfl | hmem
        · exact Or.inr (by omega)
        · exact Or.inl hmem
      · exact Or.inr (by omega)

/-! ### What a reader returns -/

theorem begin?_eq_after_str {stack : List Frame} {t : Token} {s : String}
    (h : begin? false stack t = some (.after (.str s))) : t = .str s := by
  cases t <;> simp [begin?] at h ⊢
  exact h

theorem ofMembers_ne_str (done : Option Entries) (s : String) : ofMembers done ≠ .str s := by
  cases done <;> simp [ofMembers, unreadable]

/-- Only a quoted text makes the document a text. -/
theorem advance?_eq_after_str {stack : List Frame} {expect : Expect} {t : Token} {s : String}
    (h : advance? false stack expect t = some (.after (.str s), [])) : t = .str s := by
  rw [advance?.eq_def] at h
  split at h
  case h_1 =>
    obtain ⟨_, hbegin, hnext⟩ := Option.map_eq_some_iff.mp h
    exact begin?_eq_after_str ((Prod.mk.inj hnext).1 ▸ hbegin)
  case h_3 =>
    obtain ⟨_, -, hnext⟩ := Option.map_eq_some_iff.mp h
    cases (Prod.mk.inj hnext).2
  case h_5 | h_6 =>
    obtain ⟨_, hbegin, hnext⟩ := Option.map_eq_some_iff.mp h
    obtain rfl := (Prod.mk.inj hnext).1
    cases t <;> simp [beginMember?] at hbegin
  case h_8 =>
    split at h
    case h_4 => exact absurd (Expect.after.inj (Prod.mk.inj (Option.some.inj h)).1) (ofMembers_ne_str _ s)
    all_goals cases h
  all_goals cases h

theorem mem_of_ofTokens? {s : String} : ∀ {ts : List Token} {expect : Expect} {stack : List Frame},
    ofTokens? false expect stack ts = some (.str s) → .str s ∈ ts ∨ expect = .after (.str s) ∧ stack = []
  | [], expect, stack, h => by
    rw [ofTokens?.eq_def] at h
    dsimp only at h
    split at h
    · exact Or.inr ⟨congrArg Expect.after (Option.some.inj h), rfl⟩
    · cases h
  | t :: ts, expect, stack, h => by
    rw [ofTokens?] at h
    split at h
    · rename_i expect' stack' hadvance
      rcases mem_of_ofTokens? h with hmem | ⟨rfl, rfl⟩
      · exact Or.inl (List.mem_cons_of_mem t hmem)
      · exact Or.inl (advance?_eq_after_str hadvance ▸ List.mem_cons_self)
    · cases h

theorem length_of_read? {text s : String} (h : read? text = some (.str s)) : s.length + 2 ≤ text.length := by
  obtain ⟨d, hd, hsettle⟩ := Option.map_eq_some_iff.mp h
  obtain rfl : d = .str s := by
    cases d <;> first | exact hsettle | cases hsettle
  obtain ⟨ts, hscan, hread⟩ := Option.bind_eq_some_iff.mp hd
  rcases mem_of_ofTokens? hread with hmem | ⟨habsurd, -⟩
  · rcases size_le_of_mem hmem hscan with habsurd | hle
    · cases habsurd
    · exact hle
  · cases habsurd

/-- No text is read as itself. -/
theorem read?_ne_self (s : String) : read? s ≠ some (.str s) := fun h => by
  have := length_of_read? h
  omega

end RecordService.Json
