import RecordService.Json.Basic

/-! # Documents without repeated keys

An object whose keys differ keeps its entries when it is built up by setting one key after the other
(`Entries.putAll_of_nodup`). So a document all of whose objects are such is as it is settled (`Json.Keyed.settle`). -/

namespace RecordService

namespace Entries

theorem put_of_not_mem {es : Entries} {key : String} (h : key ∉ es.map (·.1)) (value : Json) :
    es.put key value = es ++ [(key, value)] := by
  induction es with
  | nil => rfl
  | cons entry rest ih =>
    rw [List.map_cons, List.mem_cons, not_or] at h
    rw [put, if_neg (by simpa using Ne.symm h.1), ih h.2, List.cons_append]

theorem putAll_of_nodup {es new : Entries} (h : ((es ++ new).map (·.1)).Nodup) : es.putAll new = es ++ new := by
  induction new generalizing es with
  | nil => exact (List.append_nil es).symm
  | cons entry rest ih =>
    have hnew : entry.1 ∉ es.map (·.1) := fun hmem => by
      rw [List.map_append] at h
      exact (List.nodup_append.mp h).2.2 _ hmem _ List.mem_cons_self rfl
    have hrest : (es ++ [entry]).putAll rest = es ++ [entry] ++ rest := ih (by simpa using h)
    rw [putAll, List.append_assoc] at hrest
    rw [putAll, List.foldl_cons, put_of_not_mem hnew]
    exact hrest

end Entries

namespace Json

/-- No object in the document has a key twice. -/
inductive Keyed : Json → Prop
  | null : Keyed .null
  | bool (b : Bool) : Keyed (.bool b)
  | num (n : Number) : Keyed (.num n)
  | str (s : String) : Keyed (.str s)
  | arr {items : List Json} : (∀ d ∈ items, Keyed d) → Keyed (.arr items)
  | obj {entries : Entries} : (entries.map (·.1)).Nodup → (∀ e ∈ entries, Keyed e.2) → Keyed (.obj entries)

theorem settleItems_eq_map : ∀ items : List Json, settleItems items = items.map settle
  | [] => rfl
  | item :: rest => congrArg (settle item :: ·) (settleItems_eq_map rest)

theorem settleEntries_eq_map : ∀ entries : Entries, settleEntries entries = entries.map fun e => (e.1, settle e.2)
  | [] => rfl
  | (key, value) :: rest => congrArg ((key, settle value) :: ·) (settleEntries_eq_map rest)

theorem Keyed.settle {d : Json} (h : d.Keyed) : d.settle = d := by
  induction h with
  | null | bool | num | str => rfl
  | @arr items _ ih =>
    have hitems : items.map Json.settle = items := (List.map_congr_left ih).trans (List.map_id items)
    rw [Json.settle, settleItems_eq_map, hitems]
  | @obj entries hkeys _ ih =>
    have hentry : ∀ e ∈ entries, (e.1, e.2.settle) = e := fun e he => Prod.ext rfl (ih e he)
    have hentries : (entries.map fun e => (e.1, e.2.settle)) = entries :=
      (List.map_congr_left hentry).trans (List.map_id entries)
    rw [Json.settle, settleEntries_eq_map, hentries]
    exact congrArg Json.obj (Entries.putAll_of_nodup hkeys)

end Json
end RecordService
