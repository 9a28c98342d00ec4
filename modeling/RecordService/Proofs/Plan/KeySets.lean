import Mathlib.Data.Finset.Card
import RecordService.Plan.Condition
import RecordService.Proofs.Plan.Balance
import RecordService.Proofs.Record.Loading
import RecordService.Proofs.Sql.Values

/-! # Sets of links

The set operator counts: a row passes when its links have as many different keys as the list has ids, and as many of
them are in the list (`Test.Selects`). The ids of the list are told apart by their identity and the keys by their value,
so the count is right when cells of the list with one value have one identity. A row then passes exactly if its keys are
the set of the list, in any order and however often each is named; otherwise none passes
(`Predicate.setTest_selects`). -/

namespace RecordService

open Sql (Value Fragment ColumnRef)

/-! ### Counting -/

/-- The number of different values, NULL apart. -/
def Sql.Value.countDistinct (vs : List Value) : Nat :=
  (vs.filter (· ≠ .null)).dedup.length

/-- The value itself if it is found in a list, else NULL. -/
def Sql.Value.found (list : List Value) (v : Value) : Value :=
  if v.within list = .yes then v else .null

section
variable {vs list : List Value}

theorem Sql.Value.countDistinct_eq (h : ∀ v ∈ vs, v ≠ .null) : countDistinct vs = vs.toFinset.card := by
  rw [countDistinct, List.filter_eq_self.mpr (by simpa using h), List.card_toFinset]

theorem Sql.Value.countDistinct_found (h : ∀ v ∈ vs, v ≠ .null) :
    countDistinct (vs.map (found list)) = (vs.toFinset ∩ list.toFinset).card := by
  have hkept : (vs.map (found list)).filter (· ≠ .null) = vs.filter (· ∈ list) := by
    induction vs with
    | nil => rfl
    | cons v vs ih =>
      have hv := h v List.mem_cons_self
      rw [List.map_cons, List.filter_cons, List.filter_cons, ih fun w hw => h w (List.mem_cons_of_mem v hw), found]
      by_cases hmem : v ∈ list
      · simp [within_eq_yes, hv, hmem]
      · simp [within_eq_yes, hmem]
  rw [countDistinct, hkept, ← List.card_toFinset, List.toFinset_filter]
  congr 1
  ext v
  simp

/-- A set has `n` elements and `n` of them in a list of length `n` exactly if it is the list, which then has no
element twice. -/
theorem Sql.Value.card_inter_iff :
    vs.toFinset.card = list.length ∧ (vs.toFinset ∩ list.toFinset).card = list.length ↔
      (∀ v, v ∈ vs ↔ v ∈ list) ∧ list.Nodup := by
  have hle : list.toFinset.card ≤ list.length := List.toFinset_card_le list
  constructor
  · rintro ⟨hvs, hboth⟩
    -- as large as the list, their common part is all of it
    have hlist : vs.toFinset ∩ list.toFinset = list.toFinset :=
      Finset.eq_of_subset_of_card_le Finset.inter_subset_right (by omega)
    have hkeys : vs.toFinset ∩ list.toFinset = vs.toFinset :=
      Finset.eq_of_subset_of_card_le Finset.inter_subset_left (by omega)
    have heq : vs.toFinset = list.toFinset := hkeys.symm.trans hlist
    refine ⟨fun v => ?_, ?_⟩
    · rw [← List.mem_toFinset, heq, List.mem_toFinset]
    · rw [← List.dedup_eq_self]
      refine (List.dedup_sublist list).eq_of_length ?_
      rw [← List.card_toFinset, ← heq, hvs]
  · rintro ⟨hmem, hnodup⟩
    have heq : vs.toFinset = list.toFinset := by
      ext v
      rw [List.mem_toFinset, List.mem_toFinset, hmem]
    rw [heq, Finset.inter_self, List.toFinset_card_of_nodup hnodup]
    exact ⟨rfl, rfl⟩

end

/-! ### The test of a set -/

/-- The text of a test on the links of a row, for a number of keys and a list of bound ids. -/
def Test.setText (links : LinkTable) (scratch : String) (parent : ColumnRef) (n : Nat) (bound : List Cell) : Fragment :=
  let key := ColumnRef.text ⟨scratch, links.targetKey⟩
  if bound.isEmpty then .raw ("NOT EXISTS (SELECT 1" ++ linksOf links scratch parent ++ ")")
  else
    ⟨"EXISTS (SELECT 1" ++ linksOf links scratch parent ++ " GROUP BY " ++ ColumnRef.text ⟨scratch, links.parentKey⟩ ++
        " HAVING COUNT(DISTINCT " ++ key ++ ") = " ++ toString n ++
      (" AND COUNT(DISTINCT CASE WHEN " ++ key ++ " IN (" ++ Sql.placeholders bound ++ ") THEN " ++ key ++ " END) = " ++
        toString n ++ ")"), bound⟩

/-- What the text says of a row whose links have the given keys. There is a group only if there are links. -/
def Test.Selects (n : Nat) (bound : List Cell) (keys : List Value) : Prop :=
  if bound.isEmpty then keys = []
  else
    keys ≠ [] ∧ Value.countDistinct keys = n ∧
      Value.countDistinct (keys.map (Value.found (bound.map (·.value)))) = n

theorem Test.selects_iff {ids : List Cell} {keys : List Value} (hkeys : ∀ v ∈ keys, v ≠ .null) :
    Selects ids.length ids keys ↔ (∀ v, v ∈ keys ↔ v ∈ ids.map (·.value)) ∧ (ids.map (·.value)).Nodup := by
  have hcount := @Value.card_inter_iff keys (ids.map (·.value))
  rw [List.length_map] at hcount
  unfold Selects
  split
  · rename_i hempty
    rw [List.isEmpty_iff.mp hempty]
    simp [List.eq_nil_iff_forall_not_mem]
  · rename_i hne
    rw [Value.countDistinct_eq hkeys, Value.countDistinct_found hkeys, hcount, and_iff_right_iff_imp]
    rintro ⟨hmem, -⟩ rfl
    cases ids with
    | nil => exact hne rfl
    | cons c ids => exact absurd ((hmem c.value).mpr List.mem_cons_self) List.not_mem_nil

/-- Cells with one value have one identity. -/
def Cell.Identified (cells : List Cell) : Prop :=
  ∀ a ∈ cells, ∀ b ∈ cells, a.value = b.value → a.identity = b.identity

section
variable {cells : List Cell}

/-- The ids of a list have the values of its cells. -/
theorem Operand.mem_value_distinct (hbytes : ∀ c ∈ cells, ∀ bs, c ≠ .bytes bs) (v : Value) :
    v ∈ (distinct [] cells).map (·.value) ↔ v ∈ cells.map (·.value) := by
  constructor
  · exact fun h => ((distinct_sublist [] cells).map _).subset h
  · intro h
    obtain ⟨c, hc, rfl⟩ := List.mem_map.mp h
    have hid : c.identity ∈ (distinct [] cells).map (·.identity) :=
      (mem_identity_distinct [] cells).mpr ⟨List.mem_map_of_mem hc, List.not_mem_nil⟩
    obtain ⟨c', hc', heq⟩ := List.mem_map.mp hid
    exact List.mem_map.mpr ⟨c', hc', (Cell.value_eq_of_identity heq.symm (hbytes c hc)).symm⟩

/-- No two ids of a list have the same value exactly if values tell identities. -/
theorem Operand.nodup_value_distinct (hbytes : ∀ c ∈ cells, ∀ bs, c ≠ .bytes bs) :
    ((distinct [] cells).map (·.value)).Nodup ↔ Cell.Identified cells := by
  have hids := nodup_distinct [] cells
  constructor
  · intro hnodup a ha b hb heq
    have hrep : ∀ c ∈ cells, ∃ c' ∈ distinct [] cells, c'.identity = c.identity := fun c hc =>
      List.mem_map.mp ((mem_identity_distinct [] cells).mpr ⟨List.mem_map_of_mem hc, List.not_mem_nil⟩)
    obtain ⟨a', ha', hida⟩ := hrep a ha
    obtain ⟨b', hb', hidb⟩ := hrep b hb
    have hvalue : a'.value = b'.value :=
      ((Cell.value_eq_of_identity hida.symm (hbytes a ha)).symm.trans heq).trans
        (Cell.value_eq_of_identity hidb.symm (hbytes b hb))
    rw [← hida, ← hidb, List.inj_on_of_nodup_map hnodup ha' hb' hvalue]
  · intro htold
    refine (List.nodup_map_iff_inj_on hids.of_map).mpr fun a ha b hb heq => ?_
    have hsub := (distinct_sublist [] cells).subset
    exact List.inj_on_of_nodup_map hids ha hb (htold a (hsub ha) b (hsub hb) heq)

end

theorem Operand.coerced_list? {operand : Json} {type : ScalarType} {cells : List Cell}
    (h : list? operand type = some cells) : ∀ c ∈ cells, Cell.Coerced type c := by
  intro c hc
  cases operand with
  | arr items =>
    obtain rfl := Option.some.inj h
    obtain ⟨d, -, rfl⟩ := List.mem_map.mp hc
    exact Cell.coerced_coerce d type
  | str s =>
    obtain rfl := Option.some.inj h
    obtain ⟨d, -, rfl⟩ := List.mem_map.mp hc
    exact Cell.coerced_coerce (.str d) type
  | _ => cases h

/-- A test of a set binds the ids of its list and names their number. A row passes exactly if the keys of its links are
the values of the list, provided that the list has no two cells of one value and different identities. It never has such
cells for a key that is not a number. -/
theorem Predicate.setTest_selects (p : Predicate) (type : ScalarType) (links : LinkTable) (scratch : String)
    (parent : ColumnRef) {cells : List Cell} (hlist : Operand.list? p.operand type = some cells) :
    (∃ ids, p.setTest type links scratch parent = .ok (.setEq links scratch parent ids) ∧
      (Test.setEq links scratch parent ids).render = Test.setText links scratch parent ids.length ids ∧
      ∀ keys : List Value, (∀ v ∈ keys, v ≠ .null) →
        (Test.Selects ids.length ids keys ↔
          (∀ v, v ∈ keys ↔ v ∈ cells.map (·.value)) ∧ Cell.Identified cells)) ∧
      (type.hasNumbers = false → Cell.Identified cells) := by
  have hcoerced := Operand.coerced_list? hlist
  have hbytes : ∀ c ∈ cells, ∀ bs, c ≠ .bytes bs := fun c hc => (hcoerced c hc).ne_bytes
  refine ⟨⟨Operand.distinct [] cells, by rw [setTest, hlist], Test.render_setEq .., fun keys hkeys => ?_⟩, ?_⟩
  · rw [Test.selects_iff hkeys, Operand.nodup_value_distinct hbytes]
    simp only [Operand.mem_value_distinct hbytes]
  · exact fun htype a ha b hb => (hcoerced a ha).identity_eq htype (hcoerced b hb)

section
open Sql.Value (number)

/-- The tags of a post, asked for in another order and one of them twice. -/
theorem setTest_selects_tags :
    Operand.list? (.arr [.int 2, .int 1, .int 2]) .int = some [.int 2, .int 1, .int 2] ∧
      ∃ ids, Predicate.setTest ⟨⟨["tags"]⟩, .eqSet, .arr [.int 2, .int 1, .int 2]⟩ .int ⟨"posts_tags", "postId", "tagId"⟩
          "s0" ⟨"t0", "id"⟩ = .ok (.setEq ⟨"posts_tags", "postId", "tagId"⟩ "s0" ⟨"t0", "id"⟩ ids) ∧
        Test.Selects ids.length ids [number 1, number 2] ∧ ¬Test.Selects ids.length ids [number 1] := by
  have hlist : Operand.list? (.arr [.int 2, .int 1, .int 2]) .int = some [.int 2, .int 1, .int 2] := rfl
  obtain ⟨⟨ids, htest, -, hselects⟩, -⟩ :=
    Predicate.setTest_selects ⟨⟨["tags"]⟩, .eqSet, .arr [.int 2, .int 1, .int 2]⟩ .int ⟨"posts_tags", "postId", "tagId"⟩
      "s0" ⟨"t0", "id"⟩ hlist
  refine ⟨hlist, ids, htest, (hselects _ (by simp)).mpr ⟨?_, ?_⟩, fun h => ?_⟩
  · intro v
    simp [Cell.value]
    tauto
  · intro a ha b hb
    simp at ha hb
    rcases ha with rfl | rfl | rfl <;> rcases hb with rfl | rfl | rfl <;> simp [Cell.value]
  · have := (((hselects _ (by simp)).mp h).1 (number 2)).mpr (by simp [Cell.value])
    simp at this

/-- A list that names the number 1 as an integer and as a double has one value and two ids, so that no row passes. -/
theorem not_selects_two_kinds :
    Predicate.setTest ⟨⟨["tags"]⟩, .eqSet, .arr [.int 1, .num (.float (.ofNat 1))]⟩ .int
        ⟨"posts_tags", "postId", "tagId"⟩ "s0" ⟨"t0", "id"⟩ =
      .ok (.setEq ⟨"posts_tags", "postId", "tagId"⟩ "s0" ⟨"t0", "id"⟩ [.int 1, .float (.ofNat 1)]) ∧
    (∀ v, v ∈ [number 1] ↔ v ∈ [Cell.int 1, .float (.ofNat 1)].map (·.value)) ∧
    ¬Test.Selects 2 [.int 1, .float (.ofNat 1)] [number 1] := by
  have hone : (Cell.float (.ofNat 1)).value = number 1 := by
    have hnumber : Double.isFinite (.ofNat 1) = true ∧ Double.isNegative (.ofNat 1) = false ∧
        Double.significand (.ofNat 1) = 2 ^ 52 ∧ Double.scale (.ofNat 1) = -52 := by decide +kernel
    obtain ⟨hfinite, hsign, hsignificand, hscale⟩ := hnumber
    simp only [Cell.value, hfinite, if_true, Double.toRat, hsign, Bool.false_eq_true, if_false, Double.size,
      hsignificand, hscale]
    norm_num
  refine ⟨by decide +kernel, ?_, ?_⟩
  · intro v
    have hint : (Cell.int 1).value = number 1 := by simp [Cell.value]
    simp [hone, hint]
  · simp [Test.Selects, Value.countDistinct]

end

end RecordService
