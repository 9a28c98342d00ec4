import RecordService.Proofs.Text.Splitting
import RecordService.Request.Sort

/-! # Lists of paths and of sort terms

A request names paths and sort terms in lists: texts, each of them a list again, cut at commas. How the texts are cut
does not matter (`Path.listOf_joined`). What is read from them is in a normal form: the segments of a path are pieces of
a dotted text without commas (`Path.Printable`), so that printed paths are read as the same paths (`Path.listOf_texts`),
and printed terms as the same terms, whatever their paths begin with (`SortTerm.listOf_texts`). -/

namespace RecordService

open Text

/-- One text with commas has the pieces of several texts. -/
theorem flatMap_joined (items : List String) :
    [String.intercalate "," items].flatMap (pieces ',') = items.flatMap (pieces ',') := by
  rw [List.flatMap_singleton]
  exact pieces_intercalate ',' items

namespace Path

/-- The segments can stand in a list: none is empty, has blanks around it, or has a separator. -/
def Printable (p : Path) : Prop :=
  ∀ name ∈ p.segments, name ≠ "" ∧ trim name.toList = name.toList ∧ '.' ∉ name.toList ∧ ',' ∉ name.toList

variable {p : Path} {item : String}

theorem Printable.piece (h : p.Printable) : ∀ name ∈ p.segments, Piece '.' name := by
  intro name hname
  obtain ⟨hne, htrim, hdot, -⟩ := h name hname
  exact ⟨hne, htrim ▸ trimmed_trim name.toList, hdot⟩

/-- What is read from a text without commas can stand in a list. -/
theorem printable_ofText (h : ',' ∉ item.toList) : (ofText item).Printable := by
  intro name hname
  obtain ⟨hpiece, hmem⟩ := mem_pieces hname
  exact ⟨hpiece.ne_empty, hpiece.trimmed.trim_eq, hpiece.whole, fun hcomma => h (hmem ',' hcomma)⟩

theorem Printable.ofText_text (h : p.Printable) : ofText p.text = p := by
  have hsegments : pieces '.' p.text = p.segments := pieces_joined h.piece
  rw [ofText, hsegments]

theorem Printable.not_mem_text (h : p.Printable) : ',' ∉ p.text.toList := by
  intro hcomma
  rcases mem_joined hcomma with hcomma | ⟨name, hname, hcomma⟩
  · exact absurd hcomma (by decide)
  · exact (h name hname).2.2.2 hcomma

theorem Printable.text_ne_empty (h : p.Printable) (hne : p.isEmpty = false) : p.text ≠ "" := by
  obtain ⟨segments⟩ := p
  cases segments with
  | nil => cases hne
  | cons first rest => exact joined_ne_empty "." rest (h first List.mem_cons_self).1

theorem Printable.trimmed_text (h : p.Printable) : Trimmed p.text.toList :=
  trimmed_joined "." h.piece

/-- A printed path is one piece of a list. -/
theorem Printable.piece_text (h : p.Printable) (hne : p.isEmpty = false) : Piece ',' p.text :=
  ⟨h.text_ne_empty hne, h.trimmed_text, h.not_mem_text⟩

theorem printable_of_mem {items : List String} (h : p ∈ listOf items) : p.Printable := by
  obtain ⟨item, hitem, rfl⟩ := List.mem_map.mp h
  obtain ⟨text, -, hpiece⟩ := List.mem_flatMap.mp hitem
  exact printable_ofText (mem_pieces hpiece).1.whole

theorem listOf_joined (items : List String) : listOf [String.intercalate "," items] = listOf items := by
  rw [listOf, flatMap_joined, listOf]

/-- Printed paths are read as the same paths. -/
theorem listOf_texts {paths : List Path} (h : ∀ p ∈ paths, p.Printable ∧ p.isEmpty = false) :
    listOf (paths.map text) = paths := by
  have hpieces : ∀ item ∈ paths.map text, Piece ',' item := by
    intro item hitem
    obtain ⟨p, hp, rfl⟩ := List.mem_map.mp hitem
    exact (h p hp).1.piece_text (h p hp).2
  rw [listOf, flatMap_pieces hpieces, List.map_map]
  exact (List.map_congr_left fun p hp => (h p hp).1.ofText_text).trans (List.map_id _)

end Path

namespace SortTerm

/-- The sign of a direction. -/
def sign (descending : Bool) : Char :=
  if descending then '-' else '+'

/-- The term as a list has it, with its sign in either direction. -/
def text (t : SortTerm) : String :=
  String.singleton (sign t.descending) ++ t.path.text

variable {t : SortTerm} {items : List String}

theorem toList_text (t : SortTerm) : t.text.toList = sign t.descending :: t.path.text.toList := by
  simp [text]

/-- One sign is read, so that the path may begin with another. -/
theorem ofText_text (h : t.path.Printable) : ofText t.text = t := by
  have hpath : Path.ofText (String.ofList t.path.text.toList) = t.path := by rw [String.ofList_toList, h.ofText_text]
  obtain ⟨path, descending⟩ := t
  cases descending with
  | true | false =>
    simp only [ofText, toList_text, sign, if_true, if_false, Bool.false_eq_true]
    rw [hpath]

/-- A printed term is one piece of a list: it begins with its sign and ends as its path does. -/
theorem piece_text (h : t.path.Printable) (hne : t.path.isEmpty = false) : Piece ',' t.text := by
  have hsign : isBlank (sign t.descending) = false ∧ sign t.descending ≠ ',' := by
    cases t.descending <;> decide
  have hends : Trimmed [sign t.descending] :=
    ⟨fun c hc => Option.some.inj hc ▸ hsign.1, fun c hc => Option.some.inj hc ▸ hsign.1⟩
  refine ⟨?_, ?_, ?_⟩
  · simp [text]
  · rw [toList_text]
    exact hends.around h.trimmed_text (List.cons_ne_nil _ _) (by simpa using h.text_ne_empty hne) []
  · rw [toList_text, List.mem_cons, not_or]
    exact ⟨hsign.2.symm, h.not_mem_text⟩

/-- What is read from a text without commas has a path that can stand in a list. -/
theorem printable_ofText {item : String} (h : ',' ∉ item.toList) : (ofText item).path.Printable := by
  unfold ofText
  split
  · rename_i rest hitem
    rw [hitem] at h
    exact Path.printable_ofText (by simpa using h)
  · rename_i rest hitem
    rw [hitem] at h
    exact Path.printable_ofText (by simpa using h)
  · exact Path.printable_ofText h

theorem printable_of_mem (h : t ∈ listOf items) : t.path.Printable ∧ t.path.isEmpty = false := by
  obtain ⟨hmem, hne⟩ := List.mem_filter.mp h
  obtain ⟨item, hitem, rfl⟩ := List.mem_map.mp hmem
  obtain ⟨text, -, hpiece⟩ := List.mem_flatMap.mp hitem
  exact ⟨printable_ofText (mem_pieces hpiece).1.whole, by simpa using hne⟩

theorem listOf_joined (items : List String) : listOf [String.intercalate "," items] = listOf items := by
  rw [listOf, flatMap_joined, listOf]

/-- Printed terms are read as the same terms. -/
theorem listOf_texts {terms : List SortTerm} (h : ∀ t ∈ terms, t.path.Printable ∧ t.path.isEmpty = false) :
    listOf (terms.map text) = terms := by
  have hpieces : ∀ item ∈ terms.map text, Piece ',' item := by
    intro item hitem
    obtain ⟨t, ht, rfl⟩ := List.mem_map.mp hitem
    exact piece_text (h t ht).1 (h t ht).2
  have hread : (terms.map text).map ofText = terms := by
    rw [List.map_map]
    exact (List.map_congr_left fun t ht => ofText_text (h t ht).1).trans (List.map_id _)
  rw [listOf, flatMap_pieces hpieces, hread, List.filter_eq_self]
  exact fun t ht => by simp [(h t ht).2]

end SortTerm

/-- What is read from lists is in a normal form: the segments of the paths are not empty, have no blanks around them,
and have neither separator. The paths that are not empty, printed and joined with commas, are read as these paths again.
Texts joined with commas are read as the separate texts are, for paths and for sort terms. Printed sort terms are read
as these terms again, one by one or joined, and so is every printed term whose path has such segments, also where it
begins with a sign itself. -/
theorem lists_reread (items : List String) :
    (∀ p ∈ Path.listOf items, ∀ name ∈ p.segments,
        name ≠ "" ∧ trim name.toList = name.toList ∧ '.' ∉ name.toList ∧ ',' ∉ name.toList) ∧
      (let paths := (Path.listOf items).filter (!·.isEmpty)
       Path.listOf [String.intercalate "," (paths.map Path.text)] = paths) ∧
      Path.listOf [String.intercalate "," items] = Path.listOf items ∧
      SortTerm.listOf [String.intercalate "," items] = SortTerm.listOf items ∧
      (let terms := SortTerm.listOf items
       SortTerm.listOf (terms.map SortTerm.text) = terms ∧
         SortTerm.listOf [String.intercalate "," (terms.map SortTerm.text)] = terms) ∧
      ∀ t : SortTerm, t.path.Printable → t.path.isEmpty = false → SortTerm.listOf [t.text] = [t] := by
  have hpaths : ∀ p ∈ (Path.listOf items).filter (!·.isEmpty), p.Printable ∧ p.isEmpty = false := by
    intro p hp
    obtain ⟨hmem, hne⟩ := List.mem_filter.mp hp
    exact ⟨Path.printable_of_mem hmem, by simpa using hne⟩
  have hterms : SortTerm.listOf ((SortTerm.listOf items).map SortTerm.text) = SortTerm.listOf items :=
    SortTerm.listOf_texts fun _ => SortTerm.printable_of_mem
  refine ⟨fun p hp => Path.printable_of_mem hp, ?_, Path.listOf_joined items, SortTerm.listOf_joined items,
    ⟨hterms, ?_⟩, fun t hpath hne => ?_⟩
  · exact (Path.listOf_joined _).trans (Path.listOf_texts hpaths)
  · exact (SortTerm.listOf_joined _).trans hterms
  · have hread : SortTerm.listOf ([t].map SortTerm.text) = [t] :=
      SortTerm.listOf_texts (List.forall_mem_singleton.mpr ⟨hpath, hne⟩)
    exact hread

theorem lists_reread_signs :
    let items := ["-a . b ,, +-c", "--d.e, +  f"]
    let terms : List SortTerm := [⟨⟨["a", "b"]⟩, true⟩, ⟨⟨["-c"]⟩, false⟩, ⟨⟨["-d", "e"]⟩, true⟩, ⟨⟨["f"]⟩, false⟩]
    let signed : SortTerm := ⟨⟨["-c"]⟩, false⟩
    SortTerm.listOf items = terms ∧ SortTerm.listOf ["-a.b", "+-c", "--d.e", "+f"] = terms ∧
      ⟨["--d", "e"]⟩ ∈ Path.listOf items ∧ trim "--d".toList = "--d".toList ∧
      signed.path.Printable ∧ signed.path.isEmpty = false ∧ SortTerm.listOf ["+-c"] = [signed] := by
  intro items terms signed
  obtain ⟨hsegments, -, -, -, ⟨hterms, -⟩, hprinted⟩ := lists_reread items
  have hread : SortTerm.listOf items = terms := by decide +kernel
  have hmem : (⟨["--d", "e"]⟩ : Path) ∈ Path.listOf items := by decide +kernel
  have hprintable : signed.path.Printable := by
    intro name hname
    rw [List.mem_singleton.mp hname]
    decide +kernel
  rw [hread] at hterms
  exact ⟨hread, hterms, hmem, (hsegments _ hmem "--d" List.mem_cons_self).2.1, hprintable, rfl,
    hprinted signed hprintable rfl⟩

end RecordService
