import RecordService.Plan.Shape

/-! # Growing shapes

A shape that grows along a chain of relations has what the change adds at the end of the chain, and keeps what it had
everywhere else (`Shape.Within`). What holds of the fields and relations of every record of a shape, chain by chain
(`Shape.Every`), holds of those of the grown shape if it holds of the chain and of what is added. -/

namespace RecordService

/-- The first relation of a name, changed, is the first of its name still, and the others are where they were. -/
theorem find?_modify_branch {α : Type} {name : String} (change : Branch α → Branch α)
    (hname : ∀ b, (change b).name = b.name) : ∀ {l : List (Branch α)} {place : Nat},
      l.findIdx? (·.name == name) = some place →
        ∃ b, l.find? (·.name == name) = some b ∧ ∀ other, (l.modify place change).find? (·.name == other) =
          if other = name then some (change b) else l.find? (·.name == other)
  | [], _, h => by simp at h
  | b :: rest, place, h => by
    rw [List.findIdx?_cons] at h
    by_cases hb : b.name = name
    · simp only [hb, beq_self_eq_true, if_true, Option.some.injEq] at h
      subst h
      refine ⟨b, by simp [hb], fun other => ?_⟩
      by_cases ho : other = name
      · simp [hname, hb, ho]
      · have hne : ¬b.name = other := fun heq => ho (heq.symm.trans hb)
        simp [hname, ho, hne]
    · have hb' : (b.name == name) = false := beq_eq_false_iff_ne.mpr hb
      simp only [hb', Bool.false_eq_true, if_false, Option.map_eq_some_iff] at h
      obtain ⟨k, hk, rfl⟩ := h
      obtain ⟨found, hfound, hrest⟩ := find?_modify_branch change hname hk
      refine ⟨found, by rw [List.find?_cons, hb', hfound], fun other => ?_⟩
      rw [List.modify_succ_cons, List.find?_cons, List.find?_cons, hrest]
      by_cases ho : other = name
      · simp [ho, hb']
      · simp [ho]

namespace Shape

/-- The relation of a name. -/
def branch? (s : Shape) (name : String) : Option (Branch Shape) :=
  s.relations.find? (·.name == name)

theorem at?_cons (s : Shape) (name : String) (rest : List String) :
    s.at? (name :: rest) = (s.branch? name).bind fun b => b.shape.at? rest := by
  rw [at?, below?, branch?, Option.bind_map]
  rfl

theorem at?_append (s : Shape) (before after : List String) :
    s.at? (before ++ after) = (s.at? before).bind (·.at? after) := by
  induction before generalizing s with
  | nil => rfl
  | cons name rest ih =>
    rw [List.cons_append, at?_cons, at?_cons, Option.bind_assoc]
    simp only [ih]

/-- The records at the end of a chain are those of a relation of the records before them. -/
theorem branch?_of_at? {s node : Shape} {chain : List String} {name : String}
    (h : s.at? (chain ++ [name]) = some node) :
    ∃ parent b, s.at? chain = some parent ∧ parent.branch? name = some b := by
  rw [at?_append] at h
  obtain ⟨parent, hparent, hnode⟩ := Option.bind_eq_some_iff.mp h
  rw [at?_cons] at hnode
  obtain ⟨b, hb, -⟩ := Option.bind_eq_some_iff.mp hnode
  exact ⟨parent, b, hparent, hb⟩

variable {change : Shape → Shape} {link : ShapeLink} {links : List ShapeLink} {s node : Shape}

/-- The relation that a shape has for the first link of a chain when it has grown. -/
def grown (change : Shape → Shape) (link : ShapeLink) (links : List ShapeLink) (s : Shape) : Branch Shape :=
  match s.branch? link.name with
  | some b => { b with shape := grow change links b.shape }
  | none => ⟨link.name, link.many, grow change links (ofKey link.keyName link.keySlot)⟩

theorem branch?_grow (change : Shape → Shape) (link : ShapeLink) (links : List ShapeLink) (s : Shape) (name : String) :
    (grow change (link :: links) s).branch? name =
      if name = link.name then some (grown change link links s) else s.branch? name := by
  rw [grow]
  cases hplace : s.relations.findIdx? (·.name == link.name) with
  | some place =>
    obtain ⟨b, hb, hother⟩ :=
      find?_modify_branch (fun b => { b with shape := grow change links b.shape }) (fun _ => rfl) hplace
    have hgrown : grown change link links s = { b with shape := grow change links b.shape } := by
      rw [grown, branch?, hb]
    rw [hgrown]
    exact hother name
  | none =>
    have hnone : s.branch? link.name = none :=
      List.find?_eq_none.mpr fun b hb => by simp [List.findIdx?_eq_none_iff.mp hplace b hb]
    rw [grown, hnone]
    simp only [branch?, List.find?_append]
    by_cases hname : name = link.name
    · rw [hname, if_pos rfl]
      rw [branch?] at hnone
      rw [hnone]
      simp
    · have hne : ¬link.name = name := fun heq => hname heq.symm
      rw [if_neg hname]
      simp [hne]

theorem fields_grow_cons (change : Shape → Shape) (link : ShapeLink) (links : List ShapeLink) (s : Shape) :
    (grow change (link :: links) s).fields = s.fields := by
  rw [grow]
  split <;> rfl

/-! ### What is added -/

/-- At the end of the chain stands a changed shape. -/
theorem at?_grow (change : Shape → Shape) : ∀ (links : List ShapeLink) (s : Shape),
    ∃ node, (grow change links s).at? (links.map (·.name)) = some (change node)
  | [], s => ⟨s, rfl⟩
  | link :: links, s => by
    rw [List.map_cons, at?_cons, branch?_grow, if_pos rfl, Option.bind_some, grown]
    split
    · exact at?_grow change links _
    · exact at?_grow change links _

/-! ### What is kept -/

/-- The other shape has every record of the one, with all of its fields and relations. -/
structure Within (s s' : Shape) : Prop where
  fields : ∀ chain node, s.at? chain = some node → ∃ node', s'.at? chain = some node' ∧ node.fields ⊆ node'.fields
  branches : ∀ chain node name b, s.at? chain = some node → node.branch? name = some b →
    ∃ node' b', s'.at? chain = some node' ∧ node'.branch? name = some b' ∧ b'.many = b.many

theorem Within.refl (s : Shape) : s.Within s :=
  ⟨fun _ node h => ⟨node, h, fun _ hf => hf⟩, fun _ node _ b h hb => ⟨node, b, h, hb, rfl⟩⟩

theorem Within.trans {s' s'' : Shape} (h : s.Within s') (h' : s'.Within s'') : s.Within s'' where
  fields chain node hnode := by
    obtain ⟨node', hnode', hsub⟩ := h.fields chain node hnode
    obtain ⟨node'', hnode'', hsub'⟩ := h'.fields chain node' hnode'
    exact ⟨node'', hnode'', fun f hf => hsub' (hsub hf)⟩
  branches chain node name b hnode hb := by
    obtain ⟨node', b', hnode', hb', hmany⟩ := h.branches chain node name b hnode hb
    obtain ⟨node'', b'', hnode'', hb'', hmany'⟩ := h'.branches chain node' name b' hnode' hb'
    exact ⟨node'', b'', hnode'', hb'', hmany'.trans hmany⟩

/-- A shape is within one with its fields and its relations, each of which may have grown. -/
theorem Within.of_branches {s' : Shape} (hfields : s.fields ⊆ s'.fields)
    (hbranches : ∀ name b, s.branch? name = some b → ∃ b', s'.branch? name = some b' ∧ b'.many = b.many ∧
      b.shape.Within b'.shape) : s.Within s' where
  fields chain node hnode := by
    cases chain with
    | nil =>
      cases hnode
      exact ⟨s', rfl, hfields⟩
    | cons name rest =>
      rw [at?_cons] at hnode
      obtain ⟨b, hb, hrest⟩ := Option.bind_eq_some_iff.mp hnode
      obtain ⟨b', hb', -, hwithin⟩ := hbranches name b hb
      obtain ⟨node', hnode', hsub⟩ := hwithin.fields rest node hrest
      refine ⟨node', ?_, hsub⟩
      rw [at?_cons, hb', Option.bind_some, hnode']
  branches chain node name b hnode hb := by
    cases chain with
    | nil =>
      cases hnode
      obtain ⟨b', hb', hmany, -⟩ := hbranches name b hb
      exact ⟨s', b', rfl, hb', hmany⟩
    | cons first rest =>
      rw [at?_cons] at hnode
      obtain ⟨c, hc, hrest⟩ := Option.bind_eq_some_iff.mp hnode
      obtain ⟨c', hc', -, hwithin⟩ := hbranches first c hc
      obtain ⟨node', b', hnode', hb', hmany⟩ := hwithin.branches rest node name b hrest hb
      refine ⟨node', b', ?_, hb', hmany⟩
      rw [at?_cons, hc', Option.bind_some, hnode']

/-- A change that only adds fields. -/
structure AddsFields (change : Shape → Shape) (added : List FieldSlot) : Prop where
  kept : ∀ s, s.fields ⊆ (change s).fields
  fields : ∀ s, ∀ f ∈ (change s).fields, f ∈ s.fields ∨ f ∈ added
  relations : ∀ s, (change s).relations = s.relations

theorem AddsFields.branch? {added : List FieldSlot} (h : AddsFields change added) (s : Shape) (name : String) :
    (change s).branch? name = s.branch? name := by
  rw [Shape.branch?, h.relations, Shape.branch?]

theorem addsFields_id : AddsFields id [] :=
  ⟨fun _ _ hf => hf, fun _ _ hf => Or.inl hf, fun _ => rfl⟩

theorem addsFields_addField (name : String) (slot : Nat) : AddsFields (addField name slot) [⟨name, slot⟩] where
  kept s f hf := by
    unfold addField
    split
    · exact hf
    · exact List.mem_append_left _ hf
  fields s f hf := by
    unfold addField at hf
    split at hf
    · exact Or.inl hf
    · exact List.mem_append.mp hf
  relations s := by
    unfold addField
    split <;> rfl

theorem mem_addField (name : String) (slot : Nat) (s : Shape) : ∃ f ∈ (addField name slot s).fields, f.name = name := by
  unfold addField
  split
  · rename_i hany
    obtain ⟨f, hf, hname⟩ := List.any_eq_true.mp hany
    exact ⟨f, hf, beq_iff_eq.mp hname⟩
  · exact ⟨⟨name, slot⟩, List.mem_append_right _ (List.mem_singleton.mpr rfl), rfl⟩

theorem within_grow {added : List FieldSlot} (h : AddsFields change added) : ∀ (links : List ShapeLink) (s : Shape),
    s.Within (grow change links s)
  | [], s => .of_branches (h.kept s) fun name b hb =>
      ⟨b, by rw [grow, h.branch?, hb], rfl, .refl b.shape⟩
  | link :: links, s => by
    refine .of_branches (fun f hf => by rw [fields_grow_cons]; exact hf) fun name b hb => ?_
    rw [branch?_grow]
    by_cases hname : name = link.name
    · rw [if_pos hname, grown, ← hname, hb]
      exact ⟨_, rfl, rfl, within_grow h links b.shape⟩
    · rw [if_neg hname]
      exact ⟨b, hb, rfl, .refl b.shape⟩

/-! ### What holds everywhere -/

/-- The one property holds of every field of the shape, the other of every relation, by the chain of relations to
it. -/
structure Every (F : List String → FieldSlot → Prop) (B : List String → String → Bool → Prop) (s : Shape) : Prop where
  fields : ∀ chain node, s.at? chain = some node → ∀ f ∈ node.fields, F chain f
  branches : ∀ chain node name b, s.at? chain = some node → node.branch? name = some b → B chain name b.many

variable {F F' : List String → FieldSlot → Prop} {B B' : List String → String → Bool → Prop}

theorem Every.imp (h : s.Every F B) (hF : ∀ chain f, F chain f → F' chain f)
    (hB : ∀ chain name many, B chain name many → B' chain name many) : s.Every F' B' :=
  ⟨fun chain node hnode f hf => hF chain f (h.fields chain node hnode f hf),
    fun chain node name b hnode hb => hB chain name b.many (h.branches chain node name b hnode hb)⟩

theorem every_iff : s.Every F B ↔ (∀ f ∈ s.fields, F [] f) ∧ ∀ name b, s.branch? name = some b →
    B [] name b.many ∧ b.shape.Every (fun chain => F (name :: chain)) (fun chain => B (name :: chain)) := by
  constructor
  · refine fun h => ⟨h.fields [] s rfl, fun name b hb => ⟨h.branches [] s name b rfl hb, ?_⟩⟩
    -- chains below a relation are those of its shape, one name longer
    have hat : ∀ chain, s.at? (name :: chain) = b.shape.at? chain := fun chain => by
      rw [at?_cons, hb, Option.bind_some]
    exact ⟨fun chain node hnode => h.fields (name :: chain) node ((hat chain).trans hnode),
      fun chain node other c hnode => h.branches (name :: chain) node other c ((hat chain).trans hnode)⟩
  · rintro ⟨hfields, hbranches⟩
    refine ⟨fun chain node hnode => ?_, fun chain node other c hnode hc => ?_⟩
    · cases chain with
      | nil =>
        cases hnode
        exact hfields
      | cons name rest =>
        rw [at?_cons] at hnode
        obtain ⟨b, hb, hrest⟩ := Option.bind_eq_some_iff.mp hnode
        exact (hbranches name b hb).2.fields rest node hrest
    · cases chain with
      | nil =>
        cases hnode
        exact (hbranches other c hc).1
      | cons name rest =>
        rw [at?_cons] at hnode
        obtain ⟨b, hb, hrest⟩ := Option.bind_eq_some_iff.mp hnode
        exact (hbranches name b hb).2.branches rest node other c hrest hc

theorem every_ofKey {name : String} {slot : Nat} (h : F [] ⟨name, slot⟩) : (ofKey name slot).Every F B := by
  refine every_iff.mpr ⟨fun f hf => ?_, fun other b hb => ?_⟩
  · rw [List.mem_singleton.mp hf]
    exact h
  · cases hb

theorem every_grow {added : List FieldSlot} (h : AddsFields change added) : ∀ {links : List ShapeLink} {s : Shape}
    {F : List String → FieldSlot → Prop} {B : List String → String → Bool → Prop}, s.Every F B →
    (∀ before link after, links = before ++ link :: after →
      B (before.map (·.name)) link.name link.many ∧
        F (before.map (·.name) ++ [link.name]) ⟨link.keyName, link.keySlot⟩) →
    (∀ f ∈ added, F (links.map (·.name)) f) → (grow change links s).Every F B
  | [], s, F, B, hs, _, hadded => by
    obtain ⟨hfields, hbranches⟩ := every_iff.mp hs
    refine every_iff.mpr ⟨fun f hf => ?_, fun name b hb => ?_⟩
    · rcases h.fields s f hf with hf | hf
      · exact hfields f hf
      · exact hadded f hf
    · rw [grow, h.branch?] at hb
      exact hbranches name b hb
  | link :: links, s, F, B, hs, hlinks, hadded => by
    obtain ⟨hfields, hbranches⟩ := every_iff.mp hs
    obtain ⟨hfirst, hkey⟩ := hlinks [] link links rfl
    have hgrow : ∀ {below : Shape},
        below.Every (fun chain => F (link.name :: chain)) (fun chain => B (link.name :: chain)) →
          (grow change links below).Every (fun chain => F (link.name :: chain))
            (fun chain => B (link.name :: chain)) := by
      intro below hbelow
      refine every_grow h hbelow (fun before next after heq => ?_) hadded
      exact hlinks (link :: before) next after (by rw [heq]; rfl)
    refine every_iff.mpr ⟨fun f hf => ?_, fun name b hb => ?_⟩
    · rw [fields_grow_cons] at hf
      exact hfields f hf
    · rw [branch?_grow] at hb
      split at hb
      · rename_i hname
        cases hb
        subst hname
        rw [grown]
        split
        · rename_i b hb
          exact ⟨(hbranches link.name b hb).1, hgrow (hbranches link.name b hb).2⟩
        · exact ⟨hfirst, hgrow (every_ofKey hkey)⟩
      · exact hbranches name b hb

/-- What holds of the key and the fields of every record, by the chain of relations to it, holds of those of the grown
shape if it holds of the records that the chain adds and the change keeps it at the end of the chain. -/
theorem nodes_grow {change : Shape → Shape} (hchange : ∀ s, (change s).relations = s.relations) :
    ∀ {links : List ShapeLink} {s : Shape} {P : List String → String → Nat → List FieldSlot → Prop},
      (∀ chain node, s.at? chain = some node → P chain node.keyName node.keySlot node.fields) →
      (∀ before link after, links = before ++ link :: after →
        P (before.map (·.name) ++ [link.name]) link.keyName link.keySlot [⟨link.keyName, link.keySlot⟩]) →
      (∀ node : Shape, P (links.map (·.name)) node.keyName node.keySlot node.fields →
        P (links.map (·.name)) (change node).keyName (change node).keySlot (change node).fields) →
      ∀ chain node, (grow change links s).at? chain = some node → P chain node.keyName node.keySlot node.fields
  | [], s, P, hs, _, hadded, chain, node, hnode => by
    cases chain with
    | nil =>
      cases hnode
      exact hadded s (hs [] s rfl)
    | cons name rest =>
      rw [at?_cons, branch?, grow, hchange, ← branch?, ← at?_cons] at hnode
      exact hs _ _ hnode
  | link :: links, s, P, hs, hlinks, hadded, chain, node, hnode => by
    have hbelow : ∀ below : Shape, (∀ chain node, below.at? chain = some node →
        P (link.name :: chain) node.keyName node.keySlot node.fields) → ∀ chain node,
          (grow change links below).at? chain = some node → P (link.name :: chain) node.keyName node.keySlot node.fields :=
      fun below h => nodes_grow hchange h
        (fun before next after heq => hlinks (link :: before) next after (by rw [heq]; rfl)) hadded
    cases chain with
    | nil =>
      cases hnode
      rw [grow]
      split <;> exact hs [] s rfl
    | cons name rest =>
      rw [at?_cons, branch?_grow] at hnode
      split at hnode
      · rename_i hname
        subst hname
        rw [Option.bind_some, grown] at hnode
        cases hb : s.branch? link.name with
        | some b =>
          rw [hb] at hnode
          refine hbelow b.shape (fun chain node h => hs _ _ ?_) rest node hnode
          rw [at?_cons, hb, Option.bind_some, h]
        | none =>
          rw [hb] at hnode
          refine hbelow (ofKey link.keyName link.keySlot) (fun chain node h => ?_) rest node hnode
          cases chain with
          | nil =>
            cases h
            exact hlinks [] link links rfl
          | cons other more => cases h
      · rw [← at?_cons] at hnode
        exact hs _ _ hnode

end Shape
end RecordService
