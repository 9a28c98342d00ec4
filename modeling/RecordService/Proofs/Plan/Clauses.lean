import RecordService.Proofs.Plan.Balance
import RecordService.Proofs.Plan.Traceless
import RecordService.Proofs.Sql.Reading

/-! # Clauses of a filter

A filter document compiles to the tree that it is read into, without the leaves that lead nowhere and without the
groups and negations that they leave empty (`Filter.compileAll_kept`). Its leaves are compiled one after the other, in
the order of the document (`Predicate.compileEach`): it is the first of them to fail, if any, that the document fails
with (`Filter.draft_compileAll`). -/

namespace RecordService
open Sql (Formula Reads Truth)

/-! ### Leaves in order -/

/-- A predicate and the test that it became. -/
structure Leaf where
  predicate : Predicate
  test : Test

/-- Compiles predicates one after the other and keeps those that lead somewhere. -/
def Predicate.compileEach (s : Setting) (usage : Usage) :
    List Predicate → Draft → Except CompileError (List Leaf × Draft)
  | [], d => .ok ([], d)
  | p :: rest, d => do
    let (test, d) ← p.compile s usage d
    let (leaves, d) ← compileEach s usage rest d
    return ((test.map (Leaf.mk p)).toList ++ leaves, d)

variable {s : Setting} {usage : Usage} {d d' d₁ : Draft}

theorem Predicate.compileEach_cons_eq_ok {p : Predicate} {rest : List Predicate} {leaves : List Leaf} :
    compileEach s usage (p :: rest) d = .ok (leaves, d') ↔
      ∃ test d₁ more, p.compile s usage d = .ok (test, d₁) ∧ compileEach s usage rest d₁ = .ok (more, d') ∧
        leaves = (test.map (Leaf.mk p)).toList ++ more := by
  simp only [compileEach, bind_eq_ok, pure_eq_ok, Prod.mk.injEq, Prod.exists]
  constructor
  · rintro ⟨test, d₁, htest, more, _, hrest, rfl, rfl⟩
    exact ⟨test, d₁, more, htest, hrest, rfl⟩
  · rintro ⟨test, d₁, more, htest, hrest, rfl⟩
    exact ⟨test, d₁, htest, more, _, hrest, rfl, rfl⟩

theorem Predicate.compileEach_append (a b : List Predicate) (d : Draft) :
    compileEach s usage (a ++ b) d =
      compileEach s usage a d >>= fun r => (compileEach s usage b r.2).map fun more => (r.1 ++ more.1, more.2) := by
  induction a generalizing d with
  | nil =>
    show compileEach s usage b d = (compileEach s usage b d).map fun more => ([] ++ more.1, more.2)
    cases compileEach s usage b d <;> rfl
  | cons p rest ih =>
    rw [List.cons_append, compileEach, compileEach]
    cases p.compile s usage d with
    | error e => rfl
    | ok r =>
      show (compileEach s usage (rest ++ b) r.2 >>= _) = _
      rw [ih]
      cases hrest : compileEach s usage rest r.2 with
      | error e => simp [bind, Except.bind, hrest]
      | ok own =>
        cases hb : compileEach s usage b own.2 with
        | error e => simp [bind, Except.bind, Except.map, hrest, hb, pure, Except.pure]
        | ok more => simp [bind, Except.bind, Except.map, hrest, hb, pure, Except.pure]

/-! ### The draft of a compilation

What a compilation fails with, or the draft that it ends in. -/

section Drafts

variable {ε α β δ : Type}

theorem draft_bind {x : Except ε (α × δ)} {next : α × δ → Except ε (β × δ)} {after : δ → Except ε δ}
    (h : ∀ a d, (next (a, d)).map (·.2) = after d) : (x >>= next).map (·.2) = x.map (·.2) >>= after := by
  cases x with
  | error e => rfl
  | ok r => exact h r.1 r.2

theorem draft_map {x : Except ε (α × δ)} {f : α → β} :
    (x >>= fun r => pure (f r.1, r.2)).map (·.2) = x.map (·.2) := by
  cases x <;> rfl

end Drafts

theorem Predicate.draft_compileEach_cons (p : Predicate) (rest : List Predicate) (d : Draft) :
    (compileEach s usage (p :: rest) d).map (·.2) =
      (p.compile s usage d).map (·.2) >>= fun d => (compileEach s usage rest d).map (·.2) :=
  draft_bind fun _ _ => draft_map

theorem Predicate.draft_compileEach_append (a b : List Predicate) (d : Draft) :
    (compileEach s usage (a ++ b) d).map (·.2) =
      (compileEach s usage a d).map (·.2) >>= fun d => (compileEach s usage b d).map (·.2) := by
  rw [compileEach_append]
  refine draft_bind fun _ d => ?_
  cases compileEach s usage b d <;> rfl

namespace Filter
open Predicate (compileEach)

mutual

theorem draft_compile : ∀ (node : Filter) (d : Draft),
    (node.compile s usage d).map (·.2) = (compileEach s usage node.leaves d).map (·.2)
  | all children, d => draft_map.trans (draft_compileAll children d)
  | any children, d => draft_map.trans (draft_compileAll children d)
  | not child, d => draft_map.trans (draft_compile child d)
  | leaf p, d => by
    rw [leaves, Predicate.draft_compileEach_cons, compile]
    refine draft_map.trans ?_
    cases p.compile s usage d <;> rfl

/-- Nodes fail as their leaves do, one after the other, or end in the same draft. -/
theorem draft_compileAll : ∀ (nodes : List Filter) (d : Draft),
    (compileAll s usage nodes d).map (·.2) = (compileEach s usage (leavesOfAll nodes) d).map (·.2)
  | [], d => rfl
  | node :: rest, d => by
    rw [leavesOfAll, Predicate.draft_compileEach_append, ← draft_compile node d]
    simp only [← draft_compileAll rest]
    exact draft_bind fun _ _ => draft_map

end

/-! ### What is left -/

mutual

/-- The node as a formula over its predicates. -/
def formula : Filter → Formula Predicate
  | all children => .group .and (formulas children)
  | any children => .group .or (formulas children)
  | not child => .not child.formula
  | leaf p => .atom p

def formulas : List Filter → List (Formula Predicate)
  | [] => []
  | node :: rest => node.formula :: formulas rest

end

end Filter

namespace Condition

mutual

/-- The condition of the tests of a formula. -/
def ofFormula : Formula Leaf → Condition
  | .atom l => .test l.test
  | .group c parts => .group c (ofFormulas parts)
  | .not part => .not (ofFormula part)

def ofFormulas : List (Formula Leaf) → List Condition
  | [] => []
  | part :: rest => ofFormula part :: ofFormulas rest

end

theorem ofFormulas_append (a b : List (Formula Leaf)) : ofFormulas (a ++ b) = ofFormulas a ++ ofFormulas b := by
  induction a with
  | nil => rfl
  | cons part rest ih => rw [List.cons_append, ofFormulas, ofFormulas, ih, List.cons_append]

theorem ofFormulas_toList (part : Option (Formula Leaf)) :
    ofFormulas part.toList = (part.map ofFormula).toList := by
  cases part <;> rfl

theorem ofFormula_groupOf (c : Sql.Connective) (parts : List (Formula Leaf)) :
    (Formula.groupOf c parts).map ofFormula = Filter.groupOf c (ofFormulas parts) := by
  cases parts <;> rfl

theorem ofFormula_not (part : Option (Formula Leaf)) :
    (part.map .not).map ofFormula = (part.map ofFormula).map .not := by
  cases part <;> rfl

end Condition

/-- Whether a predicate leads somewhere. -/
def Setting.keeps (s : Setting) (p : Predicate) : Bool :=
  !s.loses p.path

/-- A predicate that leads somewhere is kept with its test; any other is dropped. -/
theorem Predicate.compile_kept {p : Predicate} {test : Option Test} (h : p.compile s usage d = .ok (test, d')) :
    (test.map fun t => Formula.atom (Leaf.mk p t)).map (Formula.map Leaf.predicate) =
      (Formula.atom p).trim s.keeps := by
  rw [Formula.trim, Setting.keeps, Setting.loses]
  rcases compile_eq_ok.mp h with ⟨hlost, rfl, -⟩ | ⟨res, plan, t, plan', hres, -, rfl, -⟩
  · rw [hlost]
    rfl
  · rw [Setting.typeAt?_of_resolve? hres]
    rfl

namespace Filter
open Predicate (compileEach)

theorem leaf_kept (p : Predicate) (test : Option Test) :
    (test.map fun t => Formula.atom (Leaf.mk p t)).map Condition.ofFormula = test.map .test ∧
      Formula.atomsOfAll (test.map fun t => Formula.atom (Leaf.mk p t)).toList = (test.map (Leaf.mk p)).toList := by
  cases test <;> exact ⟨rfl, rfl⟩

mutual

theorem compile_kept : ∀ {node : Filter} {d d' : Draft} {c : Option Condition}, node.compile s usage d = .ok (c, d') →
    ∃ kept : Option (Formula Leaf), c = kept.map Condition.ofFormula ∧
      kept.map (Formula.map Leaf.predicate) = node.formula.trim s.keeps ∧
      compileEach s usage node.leaves d = .ok (Formula.atomsOfAll kept.toList, d')
  | all children, d, d', c, h => by
    obtain ⟨parts, hparts, rfl⟩ := compile_all_eq_ok.mp h
    obtain ⟨kept, rfl, htrim, heach⟩ := compileAll_kept hparts
    refine ⟨Formula.groupOf .and kept, (Condition.ofFormula_groupOf .and kept).symm, ?_, ?_⟩
    · rw [Formula.map_groupOf, htrim, formula, Formula.trim]
    · rw [Formula.atomsOfAll_groupOf]
      exact heach
  | any children, d, d', c, h => by
    obtain ⟨parts, hparts, rfl⟩ := compile_any_eq_ok.mp h
    obtain ⟨kept, rfl, htrim, heach⟩ := compileAll_kept hparts
    refine ⟨Formula.groupOf .or kept, (Condition.ofFormula_groupOf .or kept).symm, ?_, ?_⟩
    · rw [Formula.map_groupOf, htrim, formula, Formula.trim]
    · rw [Formula.atomsOfAll_groupOf]
      exact heach
  | not child, d, d', c, h => by
    obtain ⟨part, hpart, rfl⟩ := compile_not_eq_ok.mp h
    obtain ⟨kept, rfl, htrim, heach⟩ := compile_kept hpart
    refine ⟨kept.map .not, (Condition.ofFormula_not kept).symm, ?_, ?_⟩
    · rw [formula, Formula.trim, ← htrim]
      cases kept <;> rfl
    · rw [Formula.atomsOfAll_not]
      exact heach
  | leaf p, d, d', c, h => by
    obtain ⟨test, htest, rfl⟩ := compile_leaf_eq_ok.mp h
    obtain ⟨hcondition, hatoms⟩ := leaf_kept p test
    refine ⟨test.map fun t => .atom ⟨p, t⟩, hcondition.symm, Predicate.compile_kept htest, ?_⟩
    rw [hatoms]
    exact Predicate.compileEach_cons_eq_ok.mpr ⟨test, d', [], htest, rfl, (List.append_nil _).symm⟩

/-- Nodes compile to their formulas, trimmed to the leaves that lead somewhere, and the leaves to their tests. -/
theorem compileAll_kept : ∀ {nodes : List Filter} {d d' : Draft} {parts : List Condition},
    compileAll s usage nodes d = .ok (parts, d') →
    ∃ kept : List (Formula Leaf), parts = Condition.ofFormulas kept ∧
      Formula.mapAll Leaf.predicate kept = Formula.trimAll s.keeps (formulas nodes) ∧
      compileEach s usage (leavesOfAll nodes) d = .ok (Formula.atomsOfAll kept, d')
  | [], d, d', parts, h => by
    obtain ⟨rfl, rfl⟩ := compileAll_nil_eq_ok.mp h
    exact ⟨[], rfl, rfl, rfl⟩
  | node :: rest, d, d', parts, h => by
    obtain ⟨c, d₁, more, hnode, hrest, rfl⟩ := compileAll_cons_eq_ok.mp h
    obtain ⟨first, rfl, htrim, heach⟩ := compile_kept hnode
    obtain ⟨kept, rfl, htrims, heachs⟩ := compileAll_kept hrest
    refine ⟨first.toList ++ kept, ?_, ?_, ?_⟩
    · rw [Condition.ofFormulas_append, Condition.ofFormulas_toList]
    · rw [formulas, Formula.trimAll, ← htrim, ← htrims]
      cases first <;> rfl
    · rw [leavesOfAll, Formula.atomsOfAll_append, Predicate.compileEach_append, heach]
      show (compileEach s usage (leavesOfAll rest) d₁).map _ = _
      rw [heachs]
      rfl

end

end Filter

/-! ### The condition as a text -/

/-- The fragment of a leaf. -/
def Leaf.text (l : Leaf) : String :=
  l.test.render.sql

namespace Condition

mutual

theorem sql_render : ∀ f : Formula Leaf, (ofFormula f).render.sql = f.text Leaf.text
  | .atom l => rfl
  | .group c parts => by
    rw [ofFormula, render, Formula.text, ← sql_renderAll parts, ← Sql.Fragment.sql_join]
    rfl
  | .not part => by
    rw [ofFormula, render, Formula.text, ← sql_render part]
    rfl

theorem sql_renderAll : ∀ parts : List (Formula Leaf),
    (renderAll (ofFormulas parts)).map (·.sql) = Formula.texts Leaf.text parts
  | [] => rfl
  | part :: rest => by
    rw [ofFormulas, renderAll, List.map_cons, sql_render part, sql_renderAll rest, Formula.texts]

end

mutual

theorem tests_ofFormula : ∀ f : Formula Leaf, (ofFormula f).tests = f.atoms.map (·.test)
  | .atom _ => rfl
  | .group _ parts => testsOfAll_ofFormulas parts
  | .not part => tests_ofFormula part

theorem testsOfAll_ofFormulas : ∀ parts : List (Formula Leaf),
    testsOfAll (ofFormulas parts) = (Formula.atomsOfAll parts).map (·.test)
  | [] => rfl
  | part :: rest => by
    rw [ofFormulas, testsOfAll, tests_ofFormula part, testsOfAll_ofFormulas rest, Formula.atomsOfAll, List.map_append]

end

/-- Clauses that all have to hold stand in a row, with ANDs between them. -/
theorem sql_foldl (parts : List Condition) (out : Sql.Fragment) :
    ((parts.map fun part => (Sql.Connective.and, part.render)).foldl
        (fun out (c, f) => out ++ Sql.Fragment.raw c.text ++ f) out).sql =
      String.intercalate " AND " (out.sql :: (renderAll parts).map (·.sql)) := by
  induction parts generalizing out with
  | nil => exact String.intercalate_singleton.symm
  | cons part rest ih =>
    rw [List.map_cons, List.foldl_cons, ih, renderAll, List.map_cons, String.intercalate_cons_cons]
    cases rest with
    | nil =>
      simp only [renderAll, List.map_nil, String.intercalate_singleton]
      rfl
    | cons next more =>
      simp only [renderAll, List.map_cons, String.intercalate_cons_cons, Sql.Fragment.sql_append, String.append_assoc]
      rfl

theorem allOf_eq_none_iff (kept : List (Formula Leaf)) : allOf (ofFormulas kept) = none ↔ kept = [] := by
  cases kept with
  | nil => exact ⟨fun _ => rfl, fun _ => rfl⟩
  | cons part rest => exact ⟨fun h => (Option.some_ne_none _ h).elim, fun h => (List.cons_ne_nil _ _ h).elim⟩

/-- The fragment is the text of the clauses, which reads as their conjunction and as nothing else: on its own, and as an
operand of further ANDs. -/
structure Writes (f : Sql.Fragment) (clauses : List (Formula Leaf)) : Prop where
  text : f.sql = String.intercalate " AND " (clauses.map (Formula.text Leaf.text))
  tokens : f.sql = Formula.spell Leaf.text (Formula.interleave .and (Formula.tokensOfAll clauses))
  reads : ∀ (v : Leaf → Truth) (level : Sql.Level) (t : Truth), level = .conjunction ∨ level = .disjunction →
    (Reads v level (Formula.interleave .and (Formula.tokensOfAll clauses)) t ↔ t = Formula.valueOfAll v .and clauses)
  params : f.params = (Formula.atomsOfAll clauses).flatMap (·.test.render.params)

theorem writes_allOf {kept : List (Formula Leaf)} (hfull : Formula.FullAll kept) :
    ∀ f ∈ allOf (ofFormulas kept), Writes f kept := by
  intro f hf
  have hparams := params_allOf (ofFormulas kept)
  cases kept with
  | nil => cases hf
  | cons first rest =>
    -- the parts are put together from the left, which gives the same text as all at once
    have htext : f.sql = String.intercalate " AND " (Formula.texts Leaf.text (first :: rest)) := by
      obtain rfl := Option.some.inj hf
      have h := sql_foldl (ofFormulas rest) (ofFormula first).render
      rw [sql_render, sql_renderAll] at h
      exact h
    refine ⟨?_, ?_, fun v level t hlevel => ?_, ?_⟩
    · rw [htext, Formula.texts_eq]
    · rw [htext, ← Formula.spell_tokensOfAll]
      exact (Formula.spell_interleave Leaf.text .and _).symm
    · exact Formula.reads_iff (List.cons_ne_nil first rest) hfull hlevel
    · rw [show allOf (ofFormulas (first :: rest)) = some f from hf] at hparams
      simp only [Option.map_some, Option.getD_some, cellsOf] at hparams
      rw [hparams, testsOfAll_ofFormulas, List.flatMap_map]
      simp only [Test.params_render]

end Condition

/-! ### Documents -/

namespace Filter
open Predicate (compileEach)

/-- A node fails where a leaf of it is the first that does. -/
theorem compileAll_eq_error {nodes : List Filter} {e : CompileError}
    (h : compileEach s usage (leavesOfAll nodes) d = .error e) : compileAll s usage nodes d = .error e := by
  have hdraft : (compileAll s usage nodes d).map (·.2) = (compileEach s usage (leavesOfAll nodes) d).map (·.2) :=
    draft_compileAll nodes d
  rw [h] at hdraft
  cases hall : compileAll s usage nodes d with
  | error e' =>
    rw [hall] at hdraft
    injection hdraft with he
    rw [he]
  | ok r =>
    rw [hall] at hdraft
    cases hdraft

end Filter

theorem Predicate.compile_lost_strict {p : Predicate} (hpolicy : s.options.pathPolicy = .strict)
    (hlost : s.loses p.path = true) : p.compile s usage d = .error (.unresolvedPath s.root.name p.path) := by
  rw [compile_eq, Setting.resolveThen, Setting.resolve?_of_loses hlost, Setting.unresolved, hpolicy]
  rfl

/-- Under the strict policy, predicates fail at one that leads nowhere, unless one before it fails. -/
theorem Predicate.compileEach_lost_strict {p : Predicate} (hpolicy : s.options.pathPolicy = .strict)
    (hlost : s.loses p.path = true) (before after : List Predicate) :
    compileEach s usage (before ++ p :: after) d =
      compileEach s usage before d >>= fun _ => .error (.unresolvedPath s.root.name p.path) := by
  rw [compileEach_append]
  congr 1
  funext r
  rw [compileEach, compile_lost_strict hpolicy hlost]
  rfl

namespace Filter
open Predicate (compileEach)

/-- A document that compiles keeps the Boolean structure of its tree `nodes`, trimmed to the leaves that lead somewhere
(`kept`, with the test of each): there is a condition unless nothing is left, it is the text of what is left, and it
reads as that. The leaves that lead nowhere are reported in the order of the document. Under the strict policy the first
of them is the error, unless a leaf before it fails. -/
theorem compileJson_clauses (s : Setting) (usage : Usage) (filter : Json) (d : Draft) :
    (∀ parts d', compileJson s usage filter d = .ok (parts, d') →
      ∃ nodes kept, ofJson filter = .ok nodes ∧
        Formula.mapAll Leaf.predicate kept = Formula.trimAll s.keeps (formulas nodes) ∧
        compileEach s usage (predicates filter) d = .ok (Formula.atomsOfAll kept, d') ∧
        (Condition.allOf parts = none ↔ kept = []) ∧
        (∀ f ∈ Condition.allOf parts, Condition.Writes f kept) ∧
        d'.skipped = d.skipped ++ ((predicates filter).filter (!s.keeps ·)).map (·.path.text)) ∧
    (s.options.pathPolicy = .strict → ∀ nodes before p after, ofJson filter = .ok nodes →
      predicates filter = before ++ p :: after → s.keeps p = false →
        (∀ e, compileEach s usage before d = .error e → compileJson s usage filter d = .error e) ∧
        ∀ r, compileEach s usage before d = .ok r →
          compileJson s usage filter d = .error (.unresolvedPath s.root.name p.path)) := by
  refine ⟨fun parts d' h => ?_, fun hpolicy nodes before p after hnodes hleaves hlost => ?_⟩
  · obtain ⟨nodes, hnodes, hall⟩ := bind_eq_ok.mp h
    obtain ⟨kept, rfl, htrim, heach⟩ := compileAll_kept hall
    have hfull : Formula.FullAll (Formula.mapAll Leaf.predicate kept) := htrim ▸ Formula.full_trimAll s.keeps _
    refine ⟨nodes, kept, hnodes, htrim, ?_, Condition.allOf_eq_none_iff kept,
      Condition.writes_allOf (Formula.fullAll_mapAll _ kept hfull), ?_⟩
    · rw [← leavesOfAll_ofJson hnodes]
      exact heach
    · rw [(compileJson_adds filter).skipped h, Setting.reported, List.filter_map, List.map_map]
      simp only [Setting.keeps, Bool.not_not]
      rfl
  · have hp : s.loses p.path = true := by simpa [Setting.keeps] using hlost
    have heach : compileEach s usage (leavesOfAll nodes) d = _ :=
      (congrArg (compileEach s usage · d) ((leavesOfAll_ofJson hnodes).trans hleaves)).trans
        (Predicate.compileEach_lost_strict hpolicy hp before after)
    have hjson : compileJson s usage filter d = compileAll s usage nodes d := by
      rw [compileJson, hnodes]
      rfl
    rw [hjson]
    refine ⟨fun e he => compileAll_eq_error ?_, fun r hr => compileAll_eq_error ?_⟩
    · rw [heach, he]
      rfl
    · rw [heach, hr]
      rfl

theorem compileJson_clauses_blog :
    (∃ parts d' f kept, compileJson .blog .forFilter FindRequest.sample.filter ⟨.start "r", []⟩ = .ok (parts, d') ∧
      f ∈ Condition.allOf parts ∧ Condition.Writes f kept ∧ d'.skipped = ["nowhere"]) ∧
      compileJson { Setting.blog with options := .strict } .forFilter FindRequest.sample.filter ⟨.start "r", []⟩ =
        .error (.unresolvedPath "posts" ⟨["nowhere"]⟩) := by
  constructor
  · obtain ⟨⟨parts, d'⟩, h⟩ :=
      exists_eq_ok (x := compileJson .blog .forFilter FindRequest.sample.filter ⟨.start "r", []⟩) (by decide +kernel)
    obtain ⟨nodes, kept, -, -, -, -, hwrites, hskipped⟩ := (compileJson_clauses _ _ _ _).1 parts d' h
    have hsome : ((compileJson .blog .forFilter FindRequest.sample.filter ⟨.start "r", []⟩).toOption.bind
        (Condition.allOf ·.1)).isSome = true := by
      decide +kernel
    rw [h] at hsome
    obtain ⟨f, hf⟩ := Option.isSome_iff_exists.mp hsome
    refine ⟨parts, d', f, kept, h, hf, hwrites f hf, hskipped.trans ?_⟩
    decide +kernel
  · obtain ⟨nodes, hnodes⟩ := exists_eq_ok (x := ofJson FindRequest.sample.filter) (by decide +kernel)
    obtain ⟨r, hr⟩ := exists_eq_ok (x := compileEach { Setting.blog with options := .strict } .forFilter
      [⟨⟨["author", "name"]⟩, .contains, .str "x"⟩] ⟨.start "r", []⟩) (by decide +kernel)
    exact ((compileJson_clauses _ _ _ _).2 rfl nodes _ _ _ hnodes rfl (by decide +kernel)).2 r hr

end Filter
end RecordService
