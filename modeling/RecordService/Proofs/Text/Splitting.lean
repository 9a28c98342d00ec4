import Mathlib.Data.List.DropRight
import RecordService.Text.Pieces

/-! # Cut texts

Cutting a text at a separator is undone by joining the parts with it (`intercalate_split`), and joining parts without
the separator by cutting (`split_intercalate`). So a text has given parts just if it is these parts, joined
(`parts_eq_iff`). The pieces of a text, its parts without the blanks around them, are those of all parts
(`pieces_intercalate`), and a piece has no blanks around it, is not empty and has no separator (`Piece`); such pieces,
joined, are the pieces of what they make (`pieces_joined`). -/

namespace RecordService.Text

variable {sep c : Char} {cs part : List Char} {text piece : String}

theorem split_eq_splitOn (sep : Char) (cs : List Char) : split sep cs = cs.splitOn sep := by
  induction cs with
  | nil => rfl
  | cons c rest ih =>
    rw [split, List.splitOn_cons_eq_if_modifyHead, ih]
    by_cases h : c = sep
    · simp [h]
    · obtain ⟨part, parts, hparts⟩ := List.exists_cons_of_ne_nil (List.splitOn_ne_nil sep rest)
      simp [h, hparts]

theorem intercalate_split (sep : Char) (cs : List Char) : [sep].intercalate (split sep cs) = cs := by
  rw [split_eq_splitOn, List.intercalate_splitOn]

theorem split_intercalate {ps : List (List Char)} (h : ∀ p ∈ ps, sep ∉ p) (hne : ps ≠ []) :
    split sep ([sep].intercalate ps) = ps := by
  rw [split_eq_splitOn, List.splitOn_intercalate sep h hne]

theorem split_append_cons (sep : Char) (a b : List Char) : split sep (a ++ sep :: b) = split sep a ++ split sep b := by
  simp only [split_eq_splitOn, List.splitOn_append_cons_self]

/-- A part has characters of the text, but not the separator. -/
theorem mem_split (h : part ∈ split sep cs) (hc : c ∈ part) : c ∈ cs ∧ c ≠ sep := by
  induction cs generalizing part with
  | nil =>
    rw [split, List.mem_singleton] at h
    rw [h] at hc
    cases hc
  | cons d rest ih =>
    rw [split] at h
    by_cases hd : d = sep
    · rw [if_pos hd] at h
      rcases List.mem_cons.mp h with rfl | h
      · cases hc
      · exact (ih h hc).imp_left (List.mem_cons_of_mem d)
    · rw [if_neg hd] at h
      -- the character joins the first of the parts of the rest
      obtain ⟨first, more, hsplit⟩ := List.exists_cons_of_ne_nil (split_ne_nil sep rest)
      rw [hsplit] at h ih
      rcases List.mem_cons.mp h with rfl | h
      · rcases List.mem_cons.mp hc with rfl | hc
        · exact ⟨List.mem_cons_self, hd⟩
        · exact (ih List.mem_cons_self hc).imp_left (List.mem_cons_of_mem d)
      · exact (ih (List.mem_cons_of_mem first h) hc).imp_left (List.mem_cons_of_mem d)

/-- The parts of a text are these just if it is these, joined, and none has the separator. -/
theorem parts_eq_iff {names : List String} : parts sep text = names ↔
    names ≠ [] ∧ (∀ name ∈ names, sep ∉ name.toList) ∧ text = String.intercalate (String.singleton sep) names := by
  constructor
  · rintro rfl
    refine ⟨by simp [parts, split_ne_nil], fun name hname hsep => ?_, ?_⟩
    · obtain ⟨part, hpart, rfl⟩ := List.mem_map.mp hname
      rw [String.toList_ofList] at hsep
      exact (mem_split hpart hsep).2 rfl
    · refine String.toList_inj.mp ?_
      rw [String.toList_intercalate, parts, List.map_map, String.toList_singleton]
      simp [Function.comp_def, intercalate_split]
  · rintro ⟨hne, hnone, rfl⟩
    have hsplit : split sep ([sep].intercalate (names.map String.toList)) = names.map String.toList :=
      split_intercalate (by simpa using hnone) (by simpa using hne)
    rw [parts, String.toList_intercalate, String.toList_singleton, hsplit]
    simp [Function.comp_def]

/-! ### Blanks around a text -/

/-- There is no blank at either end. -/
structure Trimmed (cs : List Char) : Prop where
  first : ∀ c ∈ cs.head?, isBlank c = false
  last : ∀ c ∈ cs.getLast?, isBlank c = false

/-- Trimming takes from the ends only. -/
theorem mem_of_mem_trim (h : c ∈ trim cs) : c ∈ cs :=
  (List.dropWhile_suffix isBlank).subset ((List.rdropWhile_prefix isBlank _).subset h)

theorem trimmed_trim (cs : List Char) : Trimmed (trim cs) := by
  have hprefix : trim cs <+: cs.dropWhile isBlank := List.rdropWhile_prefix isBlank _
  refine ⟨fun c hc => ?_, fun c hc => ?_⟩
  · -- the end that is cut off leaves the first character, unless it is all there is
    obtain ⟨rest, hrest⟩ := hprefix
    have hne : trim cs ≠ [] := by
      intro hnil
      rw [hnil] at hc
      cases hc
    have hstart := List.head?_dropWhile_not isBlank cs
    rw [← hrest, List.head?_append_of_ne_nil _ hne, Option.mem_def.mp hc] at hstart
    exact hstart
  · obtain ⟨hne, rfl⟩ := List.mem_getLast?_eq_getLast hc
    exact Bool.eq_false_iff.mpr (List.rdropWhile_last_not isBlank _ hne)

theorem Trimmed.trim_eq (h : Trimmed cs) : trim cs = cs := by
  have hstart : cs.dropWhile isBlank = cs := by
    cases cs with
    | nil => rfl
    | cons c rest => rw [List.dropWhile_cons, h.first c rfl, if_neg Bool.false_ne_true]
  have hend : cs.rdropWhile isBlank = cs := List.rdropWhile_eq_self_iff.mpr fun hne =>
    Bool.eq_false_iff.mp (h.last _ (List.getLast?_eq_some_getLast hne))
  rw [trim, hstart]
  exact hend

/-- Between two trimmed texts may stand anything. -/
theorem Trimmed.around {a b : List Char} (ha : Trimmed a) (hb : Trimmed b) (hne : a ≠ []) (hne' : b ≠ [])
    (between : List Char) : Trimmed (a ++ between ++ b) := by
  refine ⟨fun c hc => ha.first c ?_, fun c hc => hb.last c ?_⟩
  · rwa [List.append_assoc, List.head?_append_of_ne_nil _ hne] at hc
  · rwa [List.getLast?_append_of_ne_nil _ hne'] at hc

/-! ### Pieces -/

/-- What is cut out of a text: not empty, without blanks around it, and without the separator. -/
structure Piece (sep : Char) (piece : String) : Prop where
  ne_empty : piece ≠ ""
  trimmed : Trimmed piece.toList
  whole : sep ∉ piece.toList

theorem mem_pieces (h : piece ∈ pieces sep text) : Piece sep piece ∧ ∀ c ∈ piece.toList, c ∈ text.toList := by
  obtain ⟨cs, hcs, rfl⟩ := List.mem_map.mp h
  obtain ⟨hcs, hne⟩ := List.mem_filter.mp hcs
  obtain ⟨part, hpart, rfl⟩ := List.mem_map.mp hcs
  refine ⟨⟨by simpa using hne, ?_, fun hsep => ?_⟩, fun c hc => ?_⟩
  · rw [String.toList_ofList]
    exact trimmed_trim part
  · rw [String.toList_ofList] at hsep
    exact (mem_split hpart (mem_of_mem_trim hsep)).2 rfl
  · rw [String.toList_ofList] at hc
    exact (mem_split hpart (mem_of_mem_trim hc)).1

/-- A piece by itself is its only piece. -/
theorem Piece.pieces_eq (h : Piece sep piece) : pieces sep piece = [piece] := by
  have hsplit : split sep ([sep].intercalate [piece.toList]) = [piece.toList] :=
    split_intercalate (by simpa using h.whole) (List.cons_ne_nil _ _)
  rw [List.intercalate_singleton] at hsplit
  simp [pieces, hsplit, h.trimmed.trim_eq, h.ne_empty]

/-- Joined texts have the pieces of each. -/
theorem pieces_intercalate (sep : Char) (texts : List String) :
    pieces sep (String.intercalate (String.singleton sep) texts) = texts.flatMap (pieces sep) := by
  induction texts with
  | nil => rfl
  | cons text rest ih =>
    cases rest with
    | nil => simp
    | cons next rest =>
      have hlist : (text ++ String.singleton sep ++
          String.intercalate (String.singleton sep) (next :: rest)).toList =
          text.toList ++ sep :: (String.intercalate (String.singleton sep) (next :: rest)).toList := by
        simp
      rw [String.intercalate_cons_cons, List.flatMap_cons, ← ih, pieces, hlist, split_append_cons, List.map_append,
        List.filter_append, List.map_append]
      rfl

/-- Pieces have no other pieces. -/
theorem flatMap_pieces {names : List String} (h : ∀ name ∈ names, Piece sep name) :
    names.flatMap (pieces sep) = names := by
  induction names with
  | nil => rfl
  | cons name rest ih =>
    obtain ⟨hname, hrest⟩ := List.forall_mem_cons.mp h
    rw [List.flatMap_cons, hname.pieces_eq, ih hrest, List.singleton_append]

/-- Pieces, joined, are the pieces of what they make. -/
theorem pieces_joined {names : List String} (h : ∀ name ∈ names, Piece sep name) :
    pieces sep (String.intercalate (String.singleton sep) names) = names := by
  rw [pieces_intercalate, flatMap_pieces h]

/-- A joined text has the characters of the texts and of the separator. -/
theorem mem_joined {separator : String} {names : List String}
    (h : c ∈ (String.intercalate separator names).toList) :
    c ∈ separator.toList ∨ ∃ name ∈ names, c ∈ name.toList := by
  induction names with
  | nil => cases h
  | cons name rest ih =>
    cases rest with
    | nil => exact Or.inr ⟨name, List.mem_cons_self, by simpa using h⟩
    | cons next rest =>
      rw [String.intercalate_cons_cons, String.toList_append, String.toList_append, List.mem_append,
        List.mem_append] at h
      rcases h with (h | h) | h
      · exact Or.inr ⟨name, List.mem_cons_self, h⟩
      · exact Or.inl h
      · exact (ih h).imp_right fun ⟨other, hother, hc⟩ => ⟨other, List.mem_cons_of_mem name hother, hc⟩

theorem joined_ne_empty {first : String} (separator : String) (rest : List String) (h : first ≠ "") :
    String.intercalate separator (first :: rest) ≠ "" := by
  cases rest with
  | nil => simpa using h
  | cons next rest =>
    rw [String.intercalate_cons_cons]
    simp [h]

/-- Pieces have no blanks around them, whatever they are joined by. -/
theorem trimmed_joined {names : List String} (separator : String) (h : ∀ name ∈ names, Piece sep name) :
    Trimmed (String.intercalate separator names).toList := by
  induction names with
  | nil => exact ⟨fun c hc => (nomatch hc), fun c hc => (nomatch hc)⟩
  | cons name rest ih =>
    obtain ⟨hname, hrest⟩ := List.forall_mem_cons.mp h
    cases rest with
    | nil => simpa using hname.trimmed
    | cons next rest =>
      have hne : (String.intercalate separator (next :: rest)).toList ≠ [] := fun hnil =>
        joined_ne_empty separator rest (hrest next List.mem_cons_self).ne_empty (String.toList_eq_nil_iff.mp hnil)
      rw [String.intercalate_cons_cons, String.toList_append, String.toList_append]
      exact hname.trimmed.around (ih hrest) (by simpa using hname.ne_empty) hne separator.toList

end RecordService.Text
