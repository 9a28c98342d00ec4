import Mathlib.Data.List.Basic
import RecordService.Proofs.Request.Leaves
import RecordService.Record.Hydration
import RecordService.Record.Nested

/-! # Changes below chains of keys

What `Json.modifyAt` does to what `Json.objectsAt` finds. A change at a chain is made to the objects there, each once
and in order (`objectsAt_modifyAt`); the objects at any other chain keep every key that is not on the way to the changed
one (`objectsAt_modifyAt_other`). -/

namespace RecordService

namespace Entries

variable {es : Entries} {key other : String} {value : Json}

theorem get?_nil (other : String) : get? [] other = none :=
  rfl

theorem get?_put (es : Entries) (key other : String) (value : Json) :
    (es.put key value).get? other = if other = key then some value else es.get? other := by
  induction es with
  | nil => grind [put, get?_cons, get?_nil]
  | cons entry rest ih =>
    obtain ⟨k, v⟩ := entry
    by_cases hk : k = key
    · grind [put, get?_cons]
    · grind [put, get?_cons]

theorem mem_put {e : String × Json} (h : e ∈ es.put key value) : e ∈ es ∨ e = (key, value) := by
  induction es with
  | nil => exact Or.inr (List.mem_singleton.mp h)
  | cons entry rest ih =>
    rw [put] at h
    split at h
    · rename_i hkey
      rcases List.mem_cons.mp h with rfl | h
      · exact Or.inr (by rw [beq_iff_eq.mp hkey])
      · exact Or.inl (List.mem_cons_of_mem _ h)
    · rcases List.mem_cons.mp h with rfl | h
      · exact Or.inl List.mem_cons_self
      · exact (ih h).imp_left (List.mem_cons_of_mem _)

theorem nodup_put (h : (es.map (·.1)).Nodup) (key : String) (value : Json) :
    ((es.put key value).map (·.1)).Nodup := by
  induction es with
  | nil => exact List.pairwise_singleton _ key
  | cons entry rest ih =>
    obtain ⟨hentry, hrest⟩ := List.nodup_cons.mp h
    rw [put]
    split
    · exact h
    · rename_i hkey
      refine List.nodup_cons.mpr ⟨fun hmem => ?_, ih hrest⟩
      obtain ⟨e, he, heq⟩ := List.mem_map.mp hmem
      rcases mem_put he with he | rfl
      · exact hentry (List.mem_map.mpr ⟨e, he, heq⟩)
      · exact hkey (beq_iff_eq.mpr heq.symm)

theorem mem_of_get? (h : es.get? key = some value) : (key, value) ∈ es := by
  obtain ⟨e, he, rfl⟩ := Option.map_eq_some_iff.mp h
  have hmem := List.mem_of_find?_eq_some he
  have hkey := List.find?_some he
  obtain rfl := beq_iff_eq.mp hkey
  exact hmem

theorem get?_modify (es : Entries) (key other : String) (change : Json → Json) :
    (es.modify key change).get? other = if other = key then (es.get? key).map change else es.get? other := by
  induction es with
  | nil => grind [modify, get?_nil]
  | cons entry rest ih =>
    obtain ⟨k, v⟩ := entry
    by_cases hk : k = key
    · grind [modify, get?_cons]
    · grind [modify, get?_cons]

theorem modify_modify (es : Entries) (key : String) (change change' : Json → Json) :
    (es.modify key change).modify key change' = es.modify key (change' ∘ change) := by
  induction es with
  | nil => rfl
  | cons entry rest ih =>
    obtain ⟨k, v⟩ := entry
    by_cases hk : (k == key) = true
    · simp [modify, hk]
    · simp [modify, hk, ih]

theorem modify_congr {change change' : Json → Json} (h : ∀ v, es.get? key = some v → change v = change' v) :
    es.modify key change = es.modify key change' := by
  induction es with
  | nil => rfl
  | cons entry rest ih =>
    obtain ⟨k, v⟩ := entry
    by_cases hk : k = key
    · simp only [modify, hk, beq_self_eq_true, if_true, h v (by rw [get?_cons, if_pos hk])]
    · have hrest := ih fun v hv => h v (by rw [get?_cons, if_neg hk, hv])
      simp only [modify, beq_eq_false_iff_ne.mpr hk, Bool.false_eq_true, if_false, hrest]

/-- The entries of all other keys. -/
def without (es : Entries) (key : String) : Entries :=
  es.filter (·.1 != key)

theorem without_put (es : Entries) (key : String) (value : Json) : (es.put key value).without key = es.without key := by
  induction es with
  | nil => simp [put, without]
  | cons entry rest ih =>
    obtain ⟨k, v⟩ := entry
    unfold without at ih ⊢
    by_cases hk : k = key
    · simp [put, hk]
    · simp [put, hk, ih]

end Entries

namespace Json

mutual

/-- What holds of a document if it holds of what is in it holds of every document. -/
theorem of_contents {P : Json → Prop} (harr : ∀ items, (∀ v ∈ items, P v) → P (.arr items))
    (hobj : ∀ es : Entries, (∀ e ∈ es, P e.2) → P (.obj es)) (hscalar : ∀ v, v.isScalar = true → P v) : ∀ v, P v
  | .arr items => harr items (of_contents_items harr hobj hscalar items)
  | .obj entries => hobj entries (of_contents_entries harr hobj hscalar entries)
  | .null => hscalar _ rfl
  | .bool _ => hscalar _ rfl
  | .num _ => hscalar _ rfl
  | .str _ => hscalar _ rfl

theorem of_contents_items {P : Json → Prop} (harr : ∀ items, (∀ v ∈ items, P v) → P (.arr items))
    (hobj : ∀ es : Entries, (∀ e ∈ es, P e.2) → P (.obj es)) (hscalar : ∀ v, v.isScalar = true → P v) :
    ∀ (items : List Json), ∀ v ∈ items, P v
  | [], _, hv => absurd hv List.not_mem_nil
  | first :: rest, v, hv => by
    rcases List.mem_cons.mp hv with heq | hv
    · exact heq ▸ of_contents harr hobj hscalar first
    · exact of_contents_items harr hobj hscalar rest v hv

theorem of_contents_entries {P : Json → Prop} (harr : ∀ items, (∀ v ∈ items, P v) → P (.arr items))
    (hobj : ∀ es : Entries, (∀ e ∈ es, P e.2) → P (.obj es)) (hscalar : ∀ v, v.isScalar = true → P v) :
    ∀ (entries : List (String × Json)), ∀ e ∈ entries, P e.2
  | [], _, he => absurd he List.not_mem_nil
  | (_, value) :: rest, e, he => by
    rcases List.mem_cons.mp he with heq | he
    · exact heq ▸ of_contents harr hobj hscalar value
    · exact of_contents_entries harr hobj hscalar rest e he

end

/-! ### Objects -/

theorem objectsOf_eq (chain : List String) : ∀ items : List Json,
    objectsOf chain items = items.flatMap (objectsAt chain)
  | [] => rfl
  | item :: rest => congrArg (objectsAt chain item ++ ·) (objectsOf_eq chain rest)

theorem objectsUnder_eq (key : String) (chain : List String) : ∀ es : Entries,
    objectsUnder key chain es = ((es.get? key).map (objectsAt chain)).getD []
  | [] => rfl
  | (k, v) :: rest => by
    have hcons : objectsUnder key chain ((k, v) :: rest) =
        if k == key then objectsAt chain v else objectsUnder key chain rest := rfl
    rw [hcons, Entries.get?_cons, objectsUnder_eq key chain rest]
    by_cases hk : k = key
    · rw [if_pos (beq_iff_eq.mpr hk), if_pos hk, Option.map_some, Option.getD_some]
    · rw [if_neg (by simpa using hk), if_neg hk]

theorem objectsAt_arr (chain : List String) (items : List Json) :
    objectsAt chain (.arr items) = items.flatMap (objectsAt chain) := by
  cases chain <;> exact objectsOf_eq _ items

theorem objectsAt_nil (es : Entries) : objectsAt [] (.obj es) = [es] := rfl

theorem objectsAt_cons (key : String) (chain : List String) (es : Entries) :
    objectsAt (key :: chain) (.obj es) = ((es.get? key).map (objectsAt chain)).getD [] :=
  objectsUnder_eq key chain es

theorem objectsAt_scalar {v : Json} (h : v.isScalar = true) (chain : List String) : objectsAt chain v = [] := by
  cases v <;> cases chain <;> first | rfl | cases h

/-! ### Changes -/

variable (change change' : Entries → Entries)

theorem modifyOf_eq (chain : List String) : ∀ items : List Json,
    modifyOf change chain items = items.map (modifyAt change chain)
  | [] => rfl
  | item :: rest => congrArg (modifyAt change chain item :: ·) (modifyOf_eq chain rest)

theorem modifyUnder_eq (key : String) (chain : List String) : ∀ es : Entries,
    modifyUnder change key chain es = es.modify key (modifyAt change chain)
  | [] => rfl
  | (k, v) :: rest => by
    have hcons : modifyUnder change key chain ((k, v) :: rest) =
        if k == key then (k, modifyAt change chain v) :: rest else (k, v) :: modifyUnder change key chain rest := rfl
    rw [hcons, modifyUnder_eq key chain rest, Entries.modify]

/-- What a change at a chain does to an object. -/
def within : List String → Entries → Entries
  | [], es => change es
  | key :: chain, es => es.modify key (modifyAt change chain)

theorem modifyAt_arr (chain : List String) (items : List Json) :
    modifyAt change chain (.arr items) = .arr (items.map (modifyAt change chain)) := by
  cases chain <;> exact congrArg arr (modifyOf_eq change _ items)

theorem modifyAt_obj (chain : List String) (es : Entries) :
    modifyAt change chain (.obj es) = .obj (within change chain es) := by
  cases chain with
  | nil => rfl
  | cons key chain => exact congrArg obj (modifyUnder_eq change key chain es)

theorem modifyAt_scalar {v : Json} (h : v.isScalar = true) (chain : List String) : modifyAt change chain v = v := by
  cases v <;> cases chain <;> first | rfl | cases h

/-- What holds of documents chain by chain, if it holds at the end of chains and passes arrays and entries. -/
theorem of_chains {P : List String → Json → Prop}
    (harr : ∀ chain items, (∀ v ∈ items, P chain v) → P chain (.arr items))
    (hhere : ∀ es, P [] (.obj es))
    (hbelow : ∀ key chain (es : Entries), (∀ v, es.get? key = some v → P chain v) → P (key :: chain) (.obj es))
    (hscalar : ∀ chain v, v.isScalar = true → P chain v) (chain : List String) (v : Json) : P chain v := by
  induction v using of_contents generalizing chain with
  | harr items ih => exact harr chain items fun v hv => ih v hv chain
  | hobj es ih =>
    cases chain with
    | nil => exact hhere es
    | cons key chain =>
      refine hbelow key chain es fun v hv => ?_
      obtain ⟨e, he, rfl⟩ := Option.map_eq_some_iff.mp hv
      exact ih e (List.mem_of_find?_eq_some he) chain
  | hscalar v hv => exact hscalar chain v hv

/-- The change is made to each object at the chain. -/
theorem objectsAt_modifyAt (chain : List String) (v : Json) :
    objectsAt chain (modifyAt change chain v) = (objectsAt chain v).map change := by
  induction chain, v using of_chains with
  | harr chain items ih =>
    rw [modifyAt_arr, objectsAt_arr, objectsAt_arr, List.flatMap_map, List.map_flatMap]
    exact List.flatMap_congr ih
  | hhere es => rw [modifyAt_obj, objectsAt_nil, objectsAt_nil, within, List.map_singleton]
  | hbelow key chain es ih =>
    rw [modifyAt_obj, objectsAt_cons, objectsAt_cons, within, Entries.get?_modify, if_pos rfl]
    cases hv : es.get? key with
    | none => rfl
    | some v => exact ih v hv
  | hscalar chain v hv => rw [modifyAt_scalar change hv, objectsAt_scalar hv, List.map_nil]

/-- Two changes at a chain are one. -/
theorem modifyAt_modifyAt (chain : List String) (v : Json) :
    modifyAt change' chain (modifyAt change chain v) = modifyAt (change' ∘ change) chain v := by
  induction chain, v using of_chains with
  | harr chain items ih =>
    rw [modifyAt_arr, modifyAt_arr, modifyAt_arr, List.map_map]
    exact congrArg arr (List.map_congr_left ih)
  | hhere es => simp only [modifyAt_obj, within, Function.comp]
  | hbelow key chain es ih =>
    rw [modifyAt_obj, modifyAt_obj, modifyAt_obj, within, within, within, Entries.modify_modify]
    exact congrArg obj (Entries.modify_congr ih)
  | hscalar chain v hv => rw [modifyAt_scalar change hv, modifyAt_scalar change' hv, modifyAt_scalar _ hv]

variable {change change'}

/-- A change matters for the objects at the chain alone. -/
theorem modifyAt_congr {chain : List String} {v : Json} (h : ∀ es ∈ objectsAt chain v, change es = change' es) :
    modifyAt change chain v = modifyAt change' chain v := by
  induction chain, v using of_chains with
  | harr chain items ih =>
    rw [modifyAt_arr, modifyAt_arr]
    rw [objectsAt_arr] at h
    exact congrArg arr (List.map_congr_left fun v hv => ih v hv fun es hes => h es (List.mem_flatMap.mpr ⟨v, hv, hes⟩))
  | hhere es =>
    rw [modifyAt_obj, modifyAt_obj, within, within, h es (by rw [objectsAt_nil]; exact List.mem_singleton.mpr rfl)]
  | hbelow key chain es ih =>
    rw [modifyAt_obj, modifyAt_obj, within, within]
    refine congrArg obj (Entries.modify_congr fun v hv => ih v hv fun es' hes' => h es' ?_)
    rw [objectsAt_cons, hv]
    exact hes'
  | hscalar chain v hv => rw [modifyAt_scalar change hv, modifyAt_scalar change' hv]

/-! ### Chains that go on -/

theorem objectsAt_append (before after : List String) (v : Json) :
    objectsAt (before ++ after) v = (objectsAt before v).flatMap fun es => objectsAt after (.obj es) := by
  induction before, v using of_chains with
  | harr before items ih =>
    rw [objectsAt_arr, objectsAt_arr, List.flatMap_assoc]
    exact List.flatMap_congr ih
  | hhere es => rw [List.nil_append, objectsAt_nil, List.flatMap_singleton]
  | hbelow key before es ih =>
    rw [List.cons_append, objectsAt_cons, objectsAt_cons]
    cases hv : es.get? key with
    | none => rfl
    | some v => exact ih v hv
  | hscalar before v hv => rw [objectsAt_scalar hv, objectsAt_scalar hv, List.flatMap_nil]

/-- A change further down is a change of the objects on the way. -/
theorem modifyAt_append (before after : List String) (v : Json) :
    modifyAt change (before ++ after) v = modifyAt (within change after) before v := by
  induction before, v using of_chains with
  | harr before items ih =>
    rw [modifyAt_arr, modifyAt_arr]
    exact congrArg arr (List.map_congr_left ih)
  | hhere es => rw [List.nil_append, modifyAt_obj, modifyAt_obj, within]
  | hbelow key before es ih =>
    rw [List.cons_append, modifyAt_obj, modifyAt_obj, within, within]
    exact congrArg obj (Entries.modify_congr ih)
  | hscalar before v hv => rw [modifyAt_scalar _ hv, modifyAt_scalar _ hv]

/-- A change that keeps a key keeps the objects below it. -/
theorem objectsAt_modifyAt_below {key : String} (hkeeps : ∀ es : Entries, (change es).get? key = es.get? key)
    (before after : List String) (v : Json) :
    objectsAt (before ++ key :: after) (modifyAt change before v) = objectsAt (before ++ key :: after) v := by
  rw [objectsAt_append, objectsAt_append, objectsAt_modifyAt, List.flatMap_map]
  refine List.flatMap_congr fun es _ => ?_
  rw [objectsAt_cons, objectsAt_cons, hkeeps]

/-- Of two chains one goes on where the other ends, or they part. -/
theorem chains_part : ∀ chain other : List String, (∃ more, other = chain ++ more) ∨
    (∃ key more, chain = other ++ key :: more) ∨
      ∃ before key more key' more', key ≠ key' ∧ chain = before ++ key :: more ∧ other = before ++ key' :: more'
  | [], other => Or.inl ⟨other, rfl⟩
  | key :: chain, [] => Or.inr (Or.inl ⟨key, chain, rfl⟩)
  | key :: chain, key' :: other => by
    by_cases hkey : key = key'
    · subst hkey
      rcases chains_part chain other with
        ⟨more, rfl⟩ | ⟨next, more, rfl⟩ | ⟨before, next, more, next', more', hne, rfl, rfl⟩
      · exact Or.inl ⟨more, rfl⟩
      · exact Or.inr (Or.inl ⟨next, more, rfl⟩)
      · exact Or.inr (Or.inr ⟨key :: before, next, more, next', more', hne, rfl, rfl⟩)
    · exact Or.inr (Or.inr ⟨[], key, chain, key', other, hkey, rfl, rfl⟩)

/-- A change of one key of the objects at one chain leaves the objects at another chain, below that key excepted, in
place, and with them all keys that are not on the way to the changed one. -/
theorem objectsAt_modifyAt_other {name : String}
    (hchange : ∀ (es : Entries) key, key ≠ name → (change es).get? key = es.get? key) {chain other : List String}
    (hbelow : ¬other ++ [name] <+: chain) :
    ∃ carried : Entries → Entries, (∀ v, objectsAt chain (modifyAt change other v) = (objectsAt chain v).map carried) ∧
      ∀ es key, ¬chain ++ [key] <+: other ++ [name] → (carried es).get? key = es.get? key := by
  -- one chain is below the other, or they part
  rcases chains_part chain other with ⟨more, rfl⟩ | ⟨key, more, rfl⟩ | ⟨before, key, more, key', more', hne, rfl, rfl⟩
  · refine ⟨within change more, fun v => ?_, fun es key hkey => ?_⟩
    · rw [modifyAt_append, objectsAt_modifyAt]
    · cases more with
      | nil =>
        refine hchange es key fun heq => hkey ?_
        simp [heq]
      | cons next more =>
        rw [within, Entries.get?_modify, if_neg]
        rintro rfl
        exact hkey ⟨more ++ [name], by simp⟩
  · refine ⟨id, fun v => ?_, fun _ _ _ => rfl⟩
    have hkey : key ≠ name := fun heq => hbelow ⟨more, by simp [heq]⟩
    rw [objectsAt_modifyAt_below (fun es => hchange es key hkey), List.map_id]
  · refine ⟨id, fun v => ?_, fun _ _ _ => rfl⟩
    rw [modifyAt_append, objectsAt_modifyAt_below, List.map_id]
    intro es
    rw [within, Entries.get?_modify, if_neg hne]

end Json
end RecordService
