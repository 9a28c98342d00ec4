import RecordService.Text.Accent

/-! # Folded characters

Folding replaces each character by itself. What it makes of a character is that character, then no upper-case letter of
the ASCII range, or characters beyond these letters and the signs between them and the lower-case ones
(`mem_foldChars`). So a folded text has no ASCII upper-case letter, and has a sign of the ASCII range only where the
text has it. -/

namespace RecordService.Text

/-- Beyond the upper-case letters and the signs of the ASCII range, and a character that stands for itself. -/
def isHigh (c : Char) : Bool :=
  0x60 < c.toNat && c != '\uFFFE' && c != '\uFFFF'

/-! ### Tables -/

/-- All lower-case letters of the run are high characters. -/
def CaseRun.isHigh (r : CaseRun) : Bool :=
  let first := r.first + r.offset
  let last := r.last + r.offset
  0x60 < first && (last < 0xD800 || (0xE000 ≤ first && last < 0xFFFE) || (0x10000 ≤ first && last < 0x110000))

theorem isHigh_of_mem_caseRuns : ∀ r ∈ caseRuns, r.isHigh = true :=
  List.all_eq_true.mp (by decide +kernel)

theorem isHigh_of_mem_accentTable : ∀ e ∈ accentTable, e.2.all isHigh = true :=
  List.all_eq_true.mp (by decide +kernel)

theorem CaseRun.isHigh_lower {r : CaseRun} (h : r.isHigh = true) {c : Char} (hc : r.holds c.toNat = true) :
    Text.isHigh (Char.ofNat (c.toNat + r.offset).toNat) = true := by
  simp only [isHigh, Bool.and_eq_true, Bool.or_eq_true, decide_eq_true_eq] at h
  obtain ⟨hlow, hvalid⟩ := h
  simp only [holds, Bool.and_eq_true, decide_eq_true_eq] at hc
  obtain ⟨⟨hfirst, hlast⟩, -⟩ := hc
  generalize hn : (c.toNat + r.offset).toNat = n
  have hchar : (Char.ofNat n).toNat = n := by
    have hn : n.isValidChar := by
      simp only [Nat.isValidChar]
      omega
    rw [Char.ofNat, dif_pos hn]
    rfl
  simp only [Text.isHigh, Bool.and_eq_true, decide_eq_true_eq, bne_iff_ne]
  refine ⟨⟨by omega, fun heq => ?_⟩, fun heq => ?_⟩
  · have : n = 0xFFFE := by rw [← hchar, heq]; rfl
    omega
  · have : n = 0xFFFF := by rw [← hchar, heq]; rfl
    omega

/-! ### Characters -/

theorem isUpper_iff {c : Char} : c.isUpper = true ↔ 0x41 ≤ c.toNat ∧ c.toNat ≤ 0x5A :=
  decide_eq_true_iff

theorem toLower_eq_self {c : Char} (h : c.isUpper = false) : c.toLower = c := by
  refine dif_neg fun hbounds => ?_
  rw [isUpper_iff.mpr hbounds] at h
  cases h

theorem mem_lowerChar {c d : Char} (h : d ∈ lowerChar c) : isHigh d = true ∨ d = c ∧ c.isUpper = false := by
  unfold lowerChar at h
  split at h
  · left
    simp only [List.mem_cons, List.not_mem_nil, or_false] at h
    rcases h with rfl | rfl <;> decide
  · split at h
    · rename_i r hr
      left
      rw [List.mem_singleton.mp h]
      have hholds : r.holds c.toNat = true := List.find?_some (p := fun run : CaseRun => run.holds c.toNat) hr
      exact CaseRun.isHigh_lower (isHigh_of_mem_caseRuns r (List.mem_of_find?_eq_some hr)) hholds
    · rename_i hnone
      right
      refine ⟨List.mem_singleton.mp h, ?_⟩
      -- the capital letters of the ASCII range are the first run of the table
      have hrun := List.find?_eq_none.mp hnone ⟨0x0041, 0x005A, 1, 32⟩ List.mem_cons_self
      rw [Bool.eq_false_iff]
      intro hupper
      obtain ⟨hfirst, hlast⟩ := isUpper_iff.mp hupper
      exact hrun (by simp [CaseRun.holds, hfirst, hlast, Nat.mod_one])

theorem mem_plainChar {c d : Char} (h : d ∈ plainChar c) : isHigh d = true ∨ d = c := by
  unfold plainChar at h
  split at h
  · rename_i letters plain hfound
    exact Or.inl (List.all_eq_true.mp (isHigh_of_mem_accentTable _ (List.mem_of_find?_eq_some hfound)) d h)
  · exact Or.inr (List.mem_singleton.mp h)

theorem foldChars_cons (c : Char) (s : List Char) : foldChars (c :: s) = foldChars [c] ++ foldChars s :=
  foldChars_append [c] s

/-- A character of a folded text is high, or one of the text and no upper-case letter of the ASCII range. -/
theorem mem_foldChars {d : Char} {s : List Char} (h : d ∈ foldChars s) :
    isHigh d = true ∨ d ∈ s ∧ d.isUpper = false := by
  unfold foldChars lower at h
  obtain ⟨l, hl, hd⟩ := List.mem_flatMap.mp h
  obtain ⟨c, hc, hlower⟩ := List.mem_flatMap.mp hl
  rcases mem_plainChar hd with hhigh | rfl
  · exact Or.inl hhigh
  · rcases mem_lowerChar hlower with hhigh | ⟨rfl, hupper⟩
    · exact Or.inl hhigh
    · exact Or.inr ⟨hc, hupper⟩

/-- Folding makes none but high characters. -/
theorem mem_of_mem_foldChars {d : Char} {s : List Char} (h : d ∈ foldChars s) (hd : isHigh d = false) : d ∈ s := by
  rcases mem_foldChars h with hhigh | ⟨hmem, -⟩
  · rw [hd] at hhigh
    cases hhigh
  · exact hmem

theorem toLower_of_isHigh {c : Char} (h : isHigh c = true) : c.toLower = c := by
  refine toLower_eq_self (Bool.eq_false_iff.mpr fun hupper => ?_)
  simp only [isHigh, Bool.and_eq_true, decide_eq_true_eq] at h
  have := isUpper_iff.mp hupper
  omega

/-- A folded text is in lower case as far as the ASCII range goes. -/
theorem toLower_of_mem_foldChars {d : Char} {s : List Char} (h : d ∈ foldChars s) : d.toLower = d := by
  rcases mem_foldChars h with hhigh | ⟨-, hupper⟩
  · exact toLower_of_isHigh hhigh
  · exact toLower_eq_self hupper

end RecordService.Text
