import RecordService.Proofs.Json.Reread
import RecordService.Proofs.Json.Shorter
import RecordService.Sql.Cell

/-! # Documents in a column

A column of documents holds null and truth values as they are, a text as it is, and any other document as its text. A
text is shown as the document that it is the text of, if there is one. So a document is given back unless it is too deep
for readers or has a number that is read as another one; but a text that happens to be that of a document is not
(`Json.column_keeps_iff`). -/

namespace RecordService

namespace Number

/-- The text of the number is read as the number. -/
def Kept (n : Number) : Prop :=
  Json.read? n.text = some (.num n)

/-- An integer, or a double that is spelled with few digits and a small exponent. -/
def Short : Number → Prop
  | int _ => True
  | float x => (x.parts .document).significand < 2 ^ 53 ∧ (x.parts .document).scale.natAbs ≤ 22

theorem kept_iff {n : Number} (h : n.Valid) : n.Kept ↔ n.reread? = some n := by
  have hread : Json.read? n.text = n.reread?.map .num := by
    have hraw : Json.readRaw? n.text = n.reread?.map .num :=
      Json.readRaw?_compact (d := .num n) fun m hm => List.mem_singleton.mp hm ▸ h
    rw [Json.read?, hraw, Option.map_map]
    rfl
  rw [Kept, hread]
  simp

theorem kept_of_short {n : Number} (h : n.Valid) (hshort : n.Short) : n.Kept := by
  rw [kept_iff h]
  cases n with
  | int i => exact reread?_int h
  | float x => exact reread?_of_few_digits h hshort.1 hshort.2

end Number

namespace Json

/-- What holds of all that the items of a list may become, holds of what they became. -/
theorem forall_of_forall₂ {α β : Type} {r : α → β → Prop} {q : β → Prop} {as : List α} {bs : List β}
    (h : List.Forall₂ r as bs) (hq : ∀ a ∈ as, ∀ b, r a b → q b) : ∀ b ∈ bs, q b := by
  induction h with
  | nil => nofun
  | cons hfirst _ ih =>
    rw [List.forall_mem_cons] at hq ⊢
    exact ⟨hq.1 _ hfirst, ih hq.2⟩

/-- A document without repeated keys is read as one. -/
theorem Keyed.reread? {d d' : Json} {room : Nat} (h : d.Keyed) (hread : d.reread? room = some d') : d'.Keyed := by
  induction h generalizing d' room with
  | null | bool | str =>
    obtain rfl := Option.some.inj hread
    constructor
  | num n =>
    obtain ⟨m, -, rfl⟩ := Option.map_eq_some_iff.mp hread
    exact .num m
  | arr _ ih =>
    cases room with
    | zero => cases hread
    | succ room =>
      obtain ⟨ds, hds, rfl⟩ := Option.map_eq_some_iff.mp hread
      exact .arr (forall_of_forall₂ (rereadItems?_eq_some.mp hds) fun d hd _ => ih d hd)
  | @obj entries hkeys _ ih =>
    cases room with
    | zero => cases hread
    | succ room =>
      obtain ⟨es, hes, rfl⟩ := Option.map_eq_some_iff.mp hread
      have hes := rereadEntries?_eq_some.mp hes
      -- the members keep their names, and their order
      have hnames : List.Forall₂ (· = ·) (entries.map (·.1)) (es.map (·.1)) := by
        rw [List.forall₂_map_left_iff, List.forall₂_map_right_iff]
        exact hes.imp fun _ _ h => h.1
      rw [List.forall₂_eq_eq_eq] at hnames
      exact .obj (hnames ▸ hkeys) (forall_of_forall₂ hes fun e he _ h => ih e he h.2)

theorem read?_compact {d : Json} (hkeyed : d.Keyed) (hvalid : ∀ n ∈ d.numbers, n.Valid) :
    read? d.compact = d.reread? maxDepth := by
  rw [read?, readRaw?_compact hvalid]
  cases hread : d.reread? maxDepth with
  | none => rfl
  | some d' => rw [Option.map_some, (hkeyed.reread? hread).settle]

/-- A document other than a text is given back as its text is read. -/
theorem toJson_compact {d : Json} (htext : ∀ s, d ≠ .str s) (hkeyed : d.Keyed) (hvalid : ∀ n ∈ d.numbers, n.Valid) :
    (Cell.text d.compact).toJson (some .json) = d ↔ d.depth ≤ maxDepth ∧ ∀ n ∈ d.numbers, n.Kept := by
  have hnumbers : (∀ n ∈ d.numbers, n.Kept) ↔ ∀ n ∈ d.numbers, n.reread? = some n :=
    forall₂_congr fun n hn => Number.kept_iff (hvalid n hn)
  have hshown : (Cell.text d.compact).toJson (some .json) = (read? d.compact).getD (.str d.compact) := rfl
  rw [hnumbers, ← reread?_eq_some, hshown, read?_compact hkeyed hvalid]
  cases d.reread? maxDepth with
  | none => exact iff_of_false (fun h => htext _ h.symm) nofun
  | some d' => rw [Option.getD_some, Option.some.injEq]

/-- A text is given back unless it is that of a document. -/
theorem toJson_text (s : String) : (Cell.text s).toJson (some .json) = .str s ↔ read? s = none := by
  have hshown : (Cell.text s).toJson (some .json) = (read? s).getD (.str s) := rfl
  rw [hshown]
  cases hread : read? s with
  | none => exact iff_of_true rfl rfl
  | some d =>
    refine iff_of_false (fun h => read?_ne_self s ?_) nofun
    rw [hread]
    exact congrArg some h

/-- What a column of documents gives back: a text unless it is the text of a document, and any other document unless it
is deeper than readers go or has a number that is read as another one. Integers are read as they are, and so are doubles
with few digits and a small exponent. -/
theorem column_keeps_iff {d : Json} (hkeyed : d.Keyed) (hvalid : ∀ n ∈ d.numbers, n.Valid) :
    ((Cell.coerce d .json).toJson (some .json) = d ↔
      match d with
      | .str s => read? s = none
      | d => d.depth ≤ maxDepth ∧ ∀ n ∈ d.numbers, n.Kept) ∧
    ∀ n ∈ d.numbers, n.Short → n.Kept := by
  refine ⟨?_, fun n hn => Number.kept_of_short (hvalid n hn)⟩
  cases d with
  | null => exact iff_of_true rfl ⟨Nat.zero_le _, nofun⟩
  | bool b => exact iff_of_true rfl ⟨Nat.zero_le _, nofun⟩
  | str s => exact toJson_text s
  | num n =>
    have hcell : Cell.coerce (.num n) .json = .text (compact (.num n)) := by simp [compact, Cell.coerce]
    rw [hcell]
    exact toJson_compact (by simp) hkeyed hvalid
  | arr items => exact toJson_compact (by simp) hkeyed hvalid
  | obj entries => exact toJson_compact (by simp) hkeyed hvalid

/-- An object with numbers, and with a text that is that of a document, is given back. -/
theorem column_keeps_object :
    let d : Json := .obj [("sizes", .arr [.int 7, .num (.float (.ofDecimal false 25 (-1)))]), ("note", .str "1")]
    d.Keyed ∧ (∀ n ∈ d.numbers, n.Valid) ∧ (Cell.coerce d .json).toJson (some .json) = d := by
  intro d
  have hkeyed : d.Keyed := by
    refine .obj (by decide) ?_
    rintro e (_ | ⟨_, _ | ⟨_, he⟩⟩)
    · refine .arr ?_
      rintro d (_ | ⟨_, _ | ⟨_, hd⟩⟩)
      · exact .num _
      · exact .num _
      · cases hd
    · exact .str _
    · cases he
  have hnumbers : d.numbers = [.int 7, .float (.ofDecimal false 25 (-1))] := rfl
  have hvalid : ∀ n ∈ d.numbers, n.Valid := by
    rw [hnumbers]
    rintro n (_ | ⟨_, _ | ⟨_, hn⟩⟩)
    · exact ⟨by decide, by decide⟩
    · show Double.isFinite _ = true
      decide +kernel
    · cases hn
  have hshort : ∀ n ∈ d.numbers, n.Short := by
    rw [hnumbers]
    rintro n (_ | ⟨_, _ | ⟨_, hn⟩⟩)
    · trivial
    · exact ⟨by decide +kernel, by decide +kernel⟩
    · cases hn
  obtain ⟨hkept, hnumber⟩ := column_keeps_iff hkeyed hvalid
  exact ⟨hkeyed, hvalid, hkept.mpr ⟨by decide, fun n hn => hnumber n hn (hshort n hn)⟩⟩

/-- A text of one digit is given back as a number. -/
theorem not_column_keeps_digit :
    (Cell.coerce (.str "1") .json).toJson (some .json) = .num (.int 1) ∧
      (Cell.coerce (.str "1") .json).toJson (some .json) ≠ .str "1" := by
  have hone : Number.Kept (.int 1) := Number.kept_of_short ⟨by decide, by decide⟩ trivial
  have hread : read? "1" = some (.num (.int 1)) := hone
  have hshown : (Cell.coerce (.str "1") .json).toJson (some .json) = (read? "1").getD (.str "1") := rfl
  rw [hshown, hread]
  exact ⟨rfl, nofun⟩

end Json
end RecordService
