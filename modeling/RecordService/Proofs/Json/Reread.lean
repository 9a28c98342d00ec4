import RecordService.Json.Reader
import RecordService.Proofs.Json.Keyed
import RecordService.Proofs.Json.Scanned

/-! # Documents read again

What a reader makes of the text of a document (`Json.reread?`): the document with each number read again, unless it is
too deep or has a number that is too large (`Json.readRaw?_compact`). So a document is read as it was written exactly if
it is no deeper than readers go and each of its numbers is read as it was (`Json.reread?_eq_some`). -/

namespace RecordService.Json

/-! ### The reader -/

mutual

/-- What a reader makes of the text of a document that stands in a place with some room for containers. -/
def reread? : Json → Nat → Option Json
  | .num n, _ => n.reread?.map .num
  | .arr items, room + 1 => (rereadItems? items room).map .arr
  | .arr _, 0 => none
  | .obj entries, room + 1 => (rereadEntries? entries room).map .obj
  | .obj _, 0 => none
  | d, _ => some d

def rereadItems? : List Json → Nat → Option (List Json)
  | [], _ => some []
  | item :: rest, room => (reread? item room).bind fun d => (rereadItems? rest room).map (d :: ·)

def rereadEntries? : List (String × Json) → Nat → Option (List (String × Json))
  | [], _ => some []
  | (key, value) :: rest, room => (reread? value room).bind fun d => (rereadEntries? rest room).map ((key, d) :: ·)

end

/-- The reader passes a document. -/
def Reads (d : Json) : Prop :=
  ∀ stack rest, ofTokens? false .value stack (d.tokens ++ rest) =
    (d.reread? (maxDepth - stack.length)).bind fun d' => ofTokens? false (.after d') stack rest

theorem tokens_eq_cons (d : Json) : ∃ t ts, d.tokens = t :: ts ∧ t ≠ .closeArr := by
  cases d with
  | num n =>
    refine ⟨n.token, [], rfl, ?_⟩
    rw [Number.token]
    cases n.reread? <;> nofun
  | _ => exact ⟨_, _, rfl, nofun⟩

theorem ofTokens?_items {stack : List Frame} {rest : List Token} :
    ∀ {items : List Json} (done : List Json), items ≠ [] → (∀ d ∈ items, d.Reads) →
      ofTokens? false .value (.arr done :: stack) ([Token.comma].intercalate (items.map tokens) ++ .closeArr :: rest) =
        (rereadItems? items (maxDepth - (stack.length + 1))).bind fun ds =>
          ofTokens? false (.after (.arr (done.reverse ++ ds))) stack rest
  | [], _, hne, _ => absurd rfl hne
  | [d], done, _, h => by
    rw [intercalate_one, h d List.mem_cons_self, rereadItems?, rereadItems?, List.length_cons]
    cases d.reread? (maxDepth - (stack.length + 1)) with
    | none => rfl
    | some d' => simp [ofTokens?, advance?]
  | d :: e :: items, done, _, h => by
    have hlater (d' : Json) := @ofTokens?_items stack rest (e :: items) (d' :: done) nofun
      fun d hd => h d (List.mem_cons_of_mem _ hd)
    rw [intercalate_cons_cons, List.append_assoc, h d List.mem_cons_self, rereadItems?, List.length_cons]
    cases d.reread? (maxDepth - (stack.length + 1)) with
    | none => rfl
    | some d' =>
      refine (hlater d').trans ?_
      cases rereadItems? (e :: items) (maxDepth - (stack.length + 1)) <;> simp

theorem ofTokens?_entries {stack : List Frame} {rest : List Token} :
    ∀ {entries : Entries} (done : Entries), entries ≠ [] → (∀ e ∈ entries, e.2.Reads) →
      ofTokens? false (.key (some done)) stack
          ([Token.comma].intercalate (entries.map memberTokens) ++ .closeObj :: rest) =
        (rereadEntries? entries (maxDepth - (stack.length + 1))).bind fun es =>
          ofTokens? false (.after (.obj (done.reverse ++ es))) stack rest
  | [], _, hne, _ => absurd rfl hne
  | [(key, d)], done, _, h => by
    have hvalue := h (key, d) List.mem_cons_self (.obj (some done) key :: stack) (.closeObj :: rest)
    rw [intercalate_one, rereadEntries?, rereadEntries?]
    refine hvalue.trans ?_
    rw [List.length_cons]
    cases d.reread? (maxDepth - (stack.length + 1)) with
    | none => rfl
    | some d' => simp [ofTokens?, advance?, ofMembers]
  | (key, d) :: e :: entries, done, _, h => by
    have hlater (d' : Json) := @ofTokens?_entries stack rest (e :: entries) ((key, d') :: done) nofun
      fun e he => h e (List.mem_cons_of_mem _ he)
    have hvalue := h (key, d) List.mem_cons_self (.obj (some done) key :: stack)
      (.comma :: ([Token.comma].intercalate ((e :: entries).map memberTokens) ++ .closeObj :: rest))
    rw [intercalate_cons_cons, List.append_assoc, rereadEntries?]
    refine hvalue.trans ?_
    rw [List.length_cons]
    cases d.reread? (maxDepth - (stack.length + 1)) with
    | none => rfl
    | some d' =>
      refine (hlater d').trans ?_
      cases rereadEntries? (e :: entries) (maxDepth - (stack.length + 1)) <;> simp

/-- The first item of an array is read as the later ones. -/
theorem ofTokens?_item {stack : List Frame} {ts : List Token} {t : Token} (ht : t ≠ .closeArr) :
    ofTokens? false .item stack (t :: ts) = ofTokens? false .value (.arr [] :: stack) (t :: ts) := by
  have hadvance : advance? false stack .item t = advance? false (.arr [] :: stack) .value t := by
    cases t <;> first | rfl | contradiction
  rw [ofTokens?, hadvance, ofTokens?]

theorem ofTokens?_first (d : Json) (items : List Json) {stack : List Frame} {rest : List Token} :
    ofTokens? false .item stack ([Token.comma].intercalate ((d :: items).map tokens) ++ rest) =
      ofTokens? false .value (.arr [] :: stack) ([Token.comma].intercalate ((d :: items).map tokens) ++ rest) := by
  obtain ⟨t, ts, htokens, ht⟩ := d.tokens_eq_cons
  cases items with
  | nil =>
    rw [intercalate_one, htokens]
    exact ofTokens?_item ht
  | cons e items =>
    rw [intercalate_cons_cons, htokens]
    exact ofTokens?_item ht

/-- The room that a container leaves to what is in it. -/
theorem room_eq (stack : List Frame) :
    if stack.length < maxDepth then maxDepth - stack.length = maxDepth - (stack.length + 1) + 1
    else maxDepth - stack.length = 0 := by
  split <;> omega

/-- A document is read from its tokens, whatever it stands in. -/
theorem reads (d : Json) : d.Reads := by
  induction d using Json.induction with
  | null => exact fun _ _ => rfl
  | bool b => exact fun _ _ => rfl
  | str s => exact fun _ _ => rfl
  | num n =>
    intro stack rest
    rw [tokens, Number.token, reread?]
    cases n.reread? <;> rfl
  | arr items ih =>
    intro stack rest
    have hroom := room_eq stack
    rw [tokens, itemTokens_eq_map, List.cons_append, List.append_assoc, List.singleton_append, ofTokens?, advance?,
      begin?, Bool.false_or]
    split at hroom
    · rename_i hlt
      rw [decide_eq_true hlt, if_pos rfl, hroom, reread?]
      cases items with
      | nil => rfl
      | cons d items =>
        have hitems := @ofTokens?_items stack rest (d :: items) [] (List.cons_ne_nil _ _) ih
        -- the first item stands where the list could end, and is read as the others are
        refine (ofTokens?_first d items).trans (hitems.trans ?_)
        cases rereadItems? (d :: items) (maxDepth - (stack.length + 1)) <;> rfl
    · rename_i hfull
      rw [decide_eq_false hfull, if_neg Bool.false_ne_true, hroom]
      rfl
  | obj entries ih =>
    intro stack rest
    have hroom := room_eq stack
    rw [tokens, entryTokens_eq_map, List.cons_append, List.append_assoc, List.singleton_append, ofTokens?, advance?,
      begin?, Bool.false_or]
    split at hroom
    · rename_i hlt
      rw [decide_eq_true hlt, if_pos rfl, hroom, reread?]
      cases entries with
      | nil => rfl
      | cons e entries =>
        have hentries := @ofTokens?_entries stack rest (e :: entries) [] (List.cons_ne_nil _ _) ih
        refine Eq.trans ?_ (hentries.trans ?_)
        · cases entries <;> rfl
        · cases rereadEntries? (e :: entries) (maxDepth - (stack.length + 1)) <;> rfl
    · rename_i hfull
      rw [decide_eq_false hfull, if_neg Bool.false_ne_true, hroom]
      rfl

/-- What is read from the text of a document. -/
theorem readRaw?_compact {d : Json} (h : ∀ n ∈ d.numbers, n.Valid) : readRaw? d.compact = d.reread? maxDepth := by
  have hreads := d.reads [] []
  rw [List.append_nil] at hreads
  rw [readRaw?, scan?_compact h, Option.bind_some, hreads, List.length_nil, Nat.sub_zero]
  cases d.reread? maxDepth <;> rfl

/-! ### Documents that are read as they are -/

theorem rereadItems?_eq_some {items ds : List Json} {room : Nat} :
    rereadItems? items room = some ds ↔ List.Forall₂ (fun d d' => d.reread? room = some d') items ds := by
  induction items generalizing ds with
  | nil => simp [rereadItems?, eq_comm]
  | cons item rest ih =>
    rw [rereadItems?, List.forall₂_cons_left_iff]
    simp only [Option.bind_eq_some_iff, Option.map_eq_some_iff, ih]
    constructor
    · rintro ⟨d, hitem, later, hrest, rfl⟩
      exact ⟨d, later, hitem, hrest, rfl⟩
    · rintro ⟨d, later, hitem, hrest, rfl⟩
      exact ⟨d, hitem, later, hrest, rfl⟩

theorem rereadEntries?_eq_some {entries es : Entries} {room : Nat} :
    rereadEntries? entries room = some es ↔
      List.Forall₂ (fun e e' => e.1 = e'.1 ∧ e.2.reread? room = some e'.2) entries es := by
  induction entries generalizing es with
  | nil => simp [rereadEntries?, eq_comm]
  | cons entry rest ih =>
    obtain ⟨key, value⟩ := entry
    rw [rereadEntries?, List.forall₂_cons_left_iff]
    simp only [Option.bind_eq_some_iff, Option.map_eq_some_iff, ih]
    constructor
    · rintro ⟨d, hvalue, later, hrest, rfl⟩
      exact ⟨(key, d), later, ⟨rfl, hvalue⟩, hrest, rfl⟩
    · rintro ⟨⟨_, d⟩, later, ⟨rfl, hvalue⟩, hrest, rfl⟩
      exact ⟨d, hvalue, later, hrest, rfl⟩

/-- A document is read as it is exactly if there is room for it and its numbers are. -/
theorem reread?_eq_some {d : Json} {room : Nat} :
    d.reread? room = some d ↔ d.depth ≤ room ∧ ∀ n ∈ d.numbers, n.reread? = some n := by
  induction d using Json.induction generalizing room with
  | null | bool | str => simp [reread?, depth, numbers]
  | num n => simp [reread?, depth, numbers]
  | arr items ih =>
    cases room with
    | zero => simp [reread?, depth]
    | succ room =>
      rw [reread?, depth, numbers, Nat.add_le_add_iff_right, depthOfItems_le, forall_numbersOfItems, ← forall₂_and,
        Option.map_eq_some_iff]
      simp only [arr.injEq, exists_eq_right, rereadItems?_eq_some, List.forall₂_same]
      exact forall₂_congr fun d hd => ih d hd
  | obj entries ih =>
    cases room with
    | zero => simp [reread?, depth]
    | succ room =>
      rw [reread?, depth, numbers, Nat.add_le_add_iff_right, depthOfEntries_le, forall_numbersOfEntries, ← forall₂_and,
        Option.map_eq_some_iff]
      simp only [obj.injEq, exists_eq_right, rereadEntries?_eq_some, List.forall₂_same, true_and]
      exact forall₂_congr fun e he => ih e he

end RecordService.Json
