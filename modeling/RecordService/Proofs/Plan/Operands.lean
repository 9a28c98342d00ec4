import RecordService.Proofs.Plan.Balance
import RecordService.Proofs.Plan.Stages
import RecordService.Proofs.Request.Alike

/-! # Operands leave the text alone

Statements bind operands and never contain them. What of an operand does show in the text is its shape
(`Operator.SameShape`): whether it is null, how many items a list has, whether it counts as true. Two requests that
differ in operands of the same shape are compiled alongside each other: they plan the same joins, drop the same paths
and write the same texts at every stage (`FindPlan.sql_independent_of_operands`). -/

namespace RecordService
open Sql

/-! ### Shapes -/

/-- Operands of an operator, on cells of the type, that give the same text. -/
def Operator.SameShape (op : Operator) (type : ScalarType) (a b : Json) : Prop :=
  match op with
  | .compare _ => a = .null ↔ b = .null
  | .isIn | .notIn => (Operand.list? a type).map List.length = (Operand.list? b type).map List.length
  | .isNull => a.truthy = b.truthy
  | .eqSet =>
    (Operand.distinct [] ((Operand.list? a type).getD [])).length =
      (Operand.distinct [] ((Operand.list? b type).getD [])).length
  | .between | .contains | .startsWith | .endsWith | .count _ => True

/-- Operands of the same shape at the paths of a table. Paths that lead nowhere ask nothing of an operand. -/
def Catalog.SameShape (catalog : Catalog) (table : String) : OperandRel := fun path op a b =>
  ∀ root type, catalog.table? table = some root → catalog.typeAt? root path = some type → op.SameShape type a b

/-- Operands of the same shape at the paths of a setting. -/
def Setting.SameShape (s : Setting) : OperandRel := fun path op a b =>
  ∀ type, s.typeAt? path = some type → op.SameShape type a b

/-! ### Texts of fragments -/

theorem Sql.placeholders_congr {a b : List Cell} (h : a.length = b.length) : placeholders a = placeholders b := by
  unfold placeholders
  rw [List.map_const', List.map_const', h]

namespace Sql.Fragment
theorem sql_wrap_congr {f g : Fragment} (h : f.sql = g.sql) (before after : String) :
    (f.wrap before after).sql = (g.wrap before after).sql :=
  congrArg (fun text => before ++ text ++ after) h

theorem sql_append_congr {f f' g g' : Fragment} (h : f.sql = f'.sql) (h' : g.sql = g'.sql) :
    (f ++ g).sql = (f' ++ g').sql := by
  rw [sql_append, sql_append, h, h']

theorem sql_whereClause_congr {a b : Option Fragment} (h : a.map (·.sql) = b.map (·.sql)) :
    (whereClause a).sql = (whereClause b).sql := by
  cases a with
  | none =>
    cases b with
    | none => rfl
    | some g => cases h
  | some f =>
    cases b with
    | none => cases h
    | some g =>
      show " WHERE " ++ f.sql ++ "" = " WHERE " ++ g.sql ++ ""
      rw [show f.sql = g.sql from Option.some.inj h]

theorem sql_ofClauses_congr {as bs : List (Connective × Fragment)}
    (h : as.map (fun c => (c.1, c.2.sql)) = bs.map fun c => (c.1, c.2.sql)) :
    (ofClauses as).map (·.sql) = (ofClauses bs).map (·.sql) := by
  have hfold : ∀ {as bs : List (Connective × Fragment)} {f g : Fragment}, f.sql = g.sql →
      as.map (fun c => (c.1, c.2.sql)) = bs.map (fun c => (c.1, c.2.sql)) →
      (as.foldl (fun out c => out ++ raw c.1.text ++ c.2) f).sql =
        (bs.foldl (fun out c => out ++ raw c.1.text ++ c.2) g).sql := by
    intro as
    induction as with
    | nil =>
      intro bs f g hfg h
      rw [List.map_eq_nil_iff.mp h.symm]
      exact hfg
    | cons a as ih =>
      intro bs f g hfg h
      cases bs with
      | nil => cases h
      | cons b bs =>
        simp only [List.map_cons, List.cons.injEq, Prod.mk.injEq] at h
        rw [List.foldl_cons, List.foldl_cons]
        refine ih ?_ h.2
        show f.sql ++ a.1.text ++ a.2.sql = g.sql ++ b.1.text ++ b.2.sql
        rw [hfg, h.1.1, h.1.2]
  cases as with
  | nil =>
    rw [List.map_eq_nil_iff.mp h.symm]
  | cons a as =>
    cases bs with
    | nil => cases h
    | cons b bs =>
      simp only [List.map_cons, List.cons.injEq, Prod.mk.injEq] at h
      exact congrArg some (hfold h.1.2 h.2)
end Sql.Fragment

/-! ### Tests -/

namespace Test

theorem sql_member {col : ColumnRef} {negated : Bool} {as bs : List Cell} (h : as.length = bs.length) :
    (member col negated as).render.sql = (member col negated bs).render.sql := by
  show _ ++ placeholders as ++ _ = _ ++ placeholders bs ++ _
  rw [placeholders_congr h]

theorem sql_setEq {links : LinkTable} {scratch : String} {parent : ColumnRef} {as bs : List Cell}
    (h : as.length = bs.length) :
    (setEq links scratch parent as).render.sql = (setEq links scratch parent bs).render.sql := by
  rw [render_setEq, render_setEq, placeholders_congr h, h]
  cases as with
  | nil =>
    rw [List.eq_nil_of_length_eq_zero h.symm]
  | cons a as =>
    cases bs with
    | nil => cases h
    | cons b bs => rfl

end Test

namespace Predicate

variable {path : Path} {op : Operator} {a b : Json} {col : ColumnRef} {type : ScalarType} {t u : Test}

/-- A comparison tests for null, or compares with the cell of its operand. -/
theorem columnTest_compare {c : Comparison} (h : columnTest ⟨path, .compare c, a⟩ col type = .ok t) :
    a = .null ∧ c = .eq ∧ t = .isNull col false ∨ a = .null ∧ c = .neq ∧ t = .isNull col true ∨
      ¬(a = .null ∧ (c = .eq ∨ c = .neq)) ∧ t = .compare col c (.coerce a type) := by
  unfold columnTest at h
  split at h <;> simp_all

theorem columnTest_list {negated : Bool}
    (h : columnTest ⟨path, if negated then .notIn else .isIn, a⟩ col type = .ok t) :
    ∃ values, Operand.list? a type = some values ∧
      t = if values.isEmpty then .constant negated else .member col negated values := by
  cases negated
  all_goals
    simp only [columnTest, if_true, Bool.false_eq_true, if_false] at h
    cases hl : Operand.list? a type with
    | none => simp [hl] at h
    | some values =>
      cases values with
      | nil =>
        simp only [hl, Except.ok.injEq] at h
        exact ⟨[], rfl, h.symm⟩
      | cons v rest =>
        simp only [hl, Except.ok.injEq] at h
        exact ⟨v :: rest, rfl, h.symm⟩

theorem sql_columnTest_compare {c : Comparison} (hnull : a = .null ↔ b = .null)
    (ha : columnTest ⟨path, .compare c, a⟩ col type = .ok t) (hb : columnTest ⟨path, .compare c, b⟩ col type = .ok u) :
    t.render.sql = u.render.sql := by
  rcases columnTest_compare ha with ⟨han, hc, rfl⟩ | ⟨han, hc, rfl⟩ | ⟨hna, rfl⟩
  · rcases columnTest_compare hb with ⟨-, -, rfl⟩ | ⟨-, hc', -⟩ | ⟨hnb, -⟩
    · rfl
    · simp [hc] at hc'
    · exact absurd ⟨hnull.mp han, Or.inl hc⟩ hnb
  · rcases columnTest_compare hb with ⟨-, hc', -⟩ | ⟨-, -, rfl⟩ | ⟨hnb, -⟩
    · simp [hc] at hc'
    · rfl
    · exact absurd ⟨hnull.mp han, Or.inr hc⟩ hnb
  · rcases columnTest_compare hb with ⟨hbn, hc', -⟩ | ⟨hbn, hc', -⟩ | ⟨-, rfl⟩
    · exact absurd ⟨hnull.mpr hbn, Or.inl hc'⟩ hna
    · exact absurd ⟨hnull.mpr hbn, Or.inr hc'⟩ hna
    · rfl

theorem sql_columnTest_list (negated : Bool)
    (hl : (Operand.list? a type).map List.length = (Operand.list? b type).map List.length)
    (ha : columnTest ⟨path, if negated then .notIn else .isIn, a⟩ col type = .ok t)
    (hb : columnTest ⟨path, if negated then .notIn else .isIn, b⟩ col type = .ok u) :
    t.render.sql = u.render.sql := by
  obtain ⟨as, has, rfl⟩ := columnTest_list ha
  obtain ⟨bs, hbs, rfl⟩ := columnTest_list hb
  rw [has, hbs] at hl
  have hlen : as.length = bs.length := Option.some.inj hl
  have hempty : as.isEmpty = bs.isEmpty := by
    rw [Bool.eq_iff_iff, List.isEmpty_iff_length_eq_zero, List.isEmpty_iff_length_eq_zero, hlen]
  rw [hempty]
  split
  · rfl
  · exact Test.sql_member hlen

theorem sql_columnTest (h : op.SameShape type a b) (ha : columnTest ⟨path, op, a⟩ col type = .ok t)
    (hb : columnTest ⟨path, op, b⟩ col type = .ok u) : t.render.sql = u.render.sql := by
  cases op with
  | compare c => exact sql_columnTest_compare h ha hb
  | isIn => exact sql_columnTest_list false h ha hb
  | notIn => exact sql_columnTest_list true h ha hb
  | between =>
    simp only [columnTest] at ha hb
    split at ha
    · split at hb
      · cases ha
        cases hb
        rfl
      · cases hb
    · cases ha
  | isNull =>
    have htruthy : a.truthy = b.truthy := h
    simp only [columnTest, Except.ok.injEq, htruthy] at ha hb
    rw [← ha, ← hb]
  | contains | startsWith | endsWith =>
    simp only [columnTest] at ha hb
    split at ha
    · split at hb
      · cases ha
        cases hb
        rfl
      · cases hb
    · cases ha
  | count c => cases ha
  | eqSet => cases ha

theorem sql_countTest {c : Comparison} {links : LinkTable} {scratch : String} {parent : ColumnRef}
    (ha : countTest ⟨path, op, a⟩ c links scratch parent = .ok t)
    (hb : countTest ⟨path, op, b⟩ c links scratch parent = .ok u) : t.render.sql = u.render.sql := by
  have hsql : ∀ {v : Json}, ∀ {test : Test}, countTest ⟨path, op, v⟩ c links scratch parent = .ok test →
      ∃ value, test = .count links scratch parent c value := by
    intro v test h
    unfold countTest at h
    split at h
    · cases h
      exact ⟨_, rfl⟩
    · cases h
      exact ⟨_, rfl⟩
    · cases h
  obtain ⟨x, rfl⟩ := hsql ha
  obtain ⟨y, rfl⟩ := hsql hb
  rfl

theorem sql_setTest {links : LinkTable} {scratch : String} {parent : ColumnRef}
    (h : Operator.eqSet.SameShape type a b) (ha : setTest ⟨path, op, a⟩ type links scratch parent = .ok t)
    (hb : setTest ⟨path, op, b⟩ type links scratch parent = .ok u) : t.render.sql = u.render.sql := by
  unfold setTest at ha hb
  split at ha
  · rename_i as has
    split at hb
    · rename_i bs hbs
      cases ha
      cases hb
      have hlen : (Operand.distinct [] ((Operand.list? a type).getD [])).length =
          (Operand.distinct [] ((Operand.list? b type).getD [])).length := h
      rw [has, hbs] at hlen
      exact Test.sql_setEq hlen
    · cases hb
  · cases ha

theorem sql_testOf {usage : Usage} {plan plan₁ plan₂ : JoinPlan} {res : Resolved} (h : op.SameShape res.type a b)
    (ha : testOf ⟨path, op, a⟩ usage plan res = .ok (t, plan₁))
    (hb : testOf ⟨path, op, b⟩ usage plan res = .ok (u, plan₂)) : t.render.sql = u.render.sql ∧ plan₁ = plan₂ := by
  cases res with
  | column hops tableAlias column =>
    obtain ⟨hta, rfl⟩ := testOf_column_eq_ok.mp ha
    obtain ⟨htb, rfl⟩ := testOf_column_eq_ok.mp hb
    exact ⟨sql_columnTest h hta htb, rfl⟩
  | relation hops parentPath parentAlias parent r target =>
    -- the operator is the same in both, so the tests are of one kind
    cases op with
    | count c =>
      obtain ⟨_, hca, -, hta, rfl⟩ | ⟨⟨⟩, -⟩ | ⟨⟨⟩, -⟩ := testOf_relation_eq_ok.mp ha
      obtain ⟨_, hcb, -, htb, rfl⟩ | ⟨⟨⟩, -⟩ | ⟨⟨⟩, -⟩ := testOf_relation_eq_ok.mp hb
      cases hca
      cases hcb
      exact ⟨sql_countTest hta htb, rfl⟩
    | eqSet =>
      obtain ⟨_, ⟨⟩, -⟩ | ⟨-, -, hta, rfl⟩ | ⟨⟨⟩, -⟩ := testOf_relation_eq_ok.mp ha
      obtain ⟨_, ⟨⟩, -⟩ | ⟨-, -, htb, rfl⟩ | ⟨⟨⟩, -⟩ := testOf_relation_eq_ok.mp hb
      exact ⟨sql_setTest h hta htb, rfl⟩
    | _ =>
      obtain ⟨_, ⟨⟩, -⟩ | ⟨⟨⟩, -⟩ | ⟨hta, rfl⟩ := testOf_relation_eq_ok.mp ha
      obtain ⟨_, ⟨⟩, -⟩ | ⟨⟨⟩, -⟩ | ⟨htb, rfl⟩ := testOf_relation_eq_ok.mp hb
      exact ⟨sql_columnTest h hta htb, rfl⟩

/-- Predicates that are alike are compiled to tests of the same text, after which the drafts are the same. -/
theorem sql_compile {s : Setting} {usage : Usage} {d d₁ d₂ : Draft} {t u : Option Test} (h : s.SameShape path op a b)
    (ha : compile s usage ⟨path, op, a⟩ d = .ok (t, d₁)) (hb : compile s usage ⟨path, op, b⟩ d = .ok (u, d₂)) :
    t.map (·.render.sql) = u.map (·.render.sql) ∧ d₁ = d₂ := by
  rcases compile_eq_ok.mp ha with ⟨htype, rfl, hd⟩ | ⟨res, plan, test, plan₁, hres, htest, rfl, rfl⟩
  · rcases compile_eq_ok.mp hb with ⟨-, rfl, hd'⟩ | ⟨res', plan', test', plan₂, hres', -, -, -⟩
    · rw [hd] at hd'
      exact ⟨rfl, Except.ok.inj hd'⟩
    · simp [Setting.typeAt?_of_resolve? hres'] at htype
  · have htype := Setting.typeAt?_of_resolve? hres
    rcases compile_eq_ok.mp hb with ⟨htype', -, -⟩ | ⟨res', plan', test', plan₂, hres', htest', rfl, rfl⟩
    · simp [htype] at htype'
    · cases hres.symm.trans hres'
      obtain ⟨hsql, rfl⟩ := sql_testOf (h res.type htype) htest htest'
      exact ⟨congrArg some hsql, rfl⟩

end Predicate
/-! ### Filters -/

namespace Condition

/-- The texts of conditions. -/
def texts (parts : List Condition) : List String :=
  parts.map (·.render.sql)

theorem texts_append (a b : List Condition) : texts (a ++ b) = texts a ++ texts b := by
  simp [texts]

theorem isEmpty_congr {a b : List Condition} (h : texts a = texts b) : a.isEmpty = b.isEmpty := by
  have hlen : (texts a).length = (texts b).length := by rw [h]
  rw [Bool.eq_iff_iff, List.isEmpty_iff_length_eq_zero, List.isEmpty_iff_length_eq_zero]
  simp only [texts, List.length_map] at hlen
  rw [hlen]

theorem sql_group (c : Connective) (parts : List Condition) :
    (group c parts).render.sql = "(" ++ String.intercalate c.text (texts parts) ++ ")" := by
  rw [render, renderAll_eq, texts]
  show "(" ++ (Fragment.join c.text (parts.map render)).sql ++ ")" = _
  rw [Fragment.sql_join, List.map_map]
  rfl

theorem sql_not (part : Condition) : (not part).render.sql = "NOT (" ++ part.render.sql ++ ")" := by
  rw [render]
  rfl

theorem texts_groupOf {c : Connective} {a b : List Condition} (h : texts a = texts b) :
    texts (Filter.groupOf c a).toList = texts (Filter.groupOf c b).toList := by
  unfold Filter.groupOf
  rw [isEmpty_congr h]
  split
  · rfl
  · show [(group c a).render.sql] = [(group c b).render.sql]
    rw [sql_group, sql_group, h]

theorem texts_not {a b : Option Condition} (h : texts a.toList = texts b.toList) :
    texts (a.map not).toList = texts (b.map not).toList := by
  cases a with
  | none =>
    cases b with
    | none => rfl
    | some d => cases h
  | some c =>
    cases b with
    | none => cases h
    | some d =>
      show [(not c).render.sql] = [(not d).render.sql]
      rw [sql_not, sql_not, show c.render.sql = d.render.sql from List.head_eq_of_cons_eq h]

theorem texts_test {t u : Option Test} (h : t.map (·.render.sql) = u.map (·.render.sql)) :
    texts (t.map test).toList = texts (u.map test).toList := by
  have htexts : ∀ v : Option Test, texts (v.map test).toList = (v.map (·.render.sql)).toList := by
    intro v
    cases v with
    | none => rfl
    | some v => simp [texts, render]
  rw [htexts, htexts, h]

theorem sql_allOf {a b : List Condition} (h : texts a = texts b) :
    (allOf a).map (·.sql) = (allOf b).map (·.sql) := by
  refine Fragment.sql_ofClauses_congr ?_
  rw [List.map_map, List.map_map]
  have hpair := congrArg (List.map fun text => (Connective.and, text)) h
  rwa [texts, texts, List.map_map, List.map_map] at hpair

theorem sql_where_allOf {a b : List Condition} (h : texts a = texts b) :
    (Fragment.whereClause (allOf a)).sql = (Fragment.whereClause (allOf b)).sql :=
  Fragment.sql_whereClause_congr (sql_allOf h)

end Condition

namespace Filter

variable {s : Setting} {usage : Usage}

mutual

/-- Nodes that are alike are compiled to conditions of the same text, after which the drafts are the same. -/
theorem Alike.compile : ∀ {f g : Filter} {d d₁ d₂ : Draft} {c c' : Option Condition}, Alike s.SameShape f g →
    f.compile s usage d = .ok (c, d₁) → g.compile s usage d = .ok (c', d₂) →
      Condition.texts c.toList = Condition.texts c'.toList ∧ d₁ = d₂
  | _, _, d, d₁, d₂, c, c', .all hab, hf, hg => by
    obtain ⟨as, has, rfl⟩ := compile_all_eq_ok.mp hf
    obtain ⟨bs, hbs, rfl⟩ := compile_all_eq_ok.mp hg
    obtain ⟨htexts, hd⟩ := hab.compileAll has hbs
    exact ⟨Condition.texts_groupOf htexts, hd⟩
  | _, _, d, d₁, d₂, c, c', .any hab, hf, hg => by
    obtain ⟨as, has, rfl⟩ := compile_any_eq_ok.mp hf
    obtain ⟨bs, hbs, rfl⟩ := compile_any_eq_ok.mp hg
    obtain ⟨htexts, hd⟩ := hab.compileAll has hbs
    exact ⟨Condition.texts_groupOf htexts, hd⟩
  | _, _, d, d₁, d₂, c, c', .not hab, hf, hg => by
    obtain ⟨a, ha, rfl⟩ := compile_not_eq_ok.mp hf
    obtain ⟨b, hb, rfl⟩ := compile_not_eq_ok.mp hg
    obtain ⟨htexts, hd⟩ := hab.compile ha hb
    exact ⟨Condition.texts_not htexts, hd⟩
  | _, _, d, d₁, d₂, c, c', .leaf hab, hf, hg => by
    obtain ⟨t, ht, rfl⟩ := compile_leaf_eq_ok.mp hf
    obtain ⟨u, hu, rfl⟩ := compile_leaf_eq_ok.mp hg
    obtain ⟨hsql, hd⟩ := Predicate.sql_compile hab ht hu
    exact ⟨Condition.texts_test hsql, hd⟩

theorem AlikeAll.compileAll : ∀ {fs gs : List Filter} {d d₁ d₂ : Draft} {parts parts' : List Condition},
    AlikeAll s.SameShape fs gs → compileAll s usage fs d = .ok (parts, d₁) →
      compileAll s usage gs d = .ok (parts', d₂) → Condition.texts parts = Condition.texts parts' ∧ d₁ = d₂
  | _, _, d, d₁, d₂, parts, parts', .nil, hf, hg => by
    obtain ⟨rfl, rfl⟩ := compileAll_nil_eq_ok.mp hf
    obtain ⟨rfl, rfl⟩ := compileAll_nil_eq_ok.mp hg
    exact ⟨rfl, rfl⟩
  | _, _, d, d₁, d₂, parts, parts', .cons hab hrest, hf, hg => by
    obtain ⟨a, da, as, ha, has, rfl⟩ := compileAll_cons_eq_ok.mp hf
    obtain ⟨b, db, bs, hb, hbs, rfl⟩ := compileAll_cons_eq_ok.mp hg
    obtain ⟨htext, rfl⟩ := hab.compile ha hb
    obtain ⟨htexts, hd⟩ := hrest.compileAll has hbs
    exact ⟨by rw [Condition.texts_append, Condition.texts_append, htext, htexts], hd⟩

end

theorem texts_compileJson {a b : Json} {d d₁ d₂ : Draft} {as bs : List Condition} (h : FilterAlike s.SameShape a b)
    (ha : compileJson s usage a d = .ok (as, d₁)) (hb : compileJson s usage b d = .ok (bs, d₂)) :
    Condition.texts as = Condition.texts bs ∧ d₁ = d₂ := by
  obtain ⟨fs, hfs, hf⟩ := bind_eq_ok.mp ha
  obtain ⟨gs, hgs, hg⟩ := bind_eq_ok.mp hb
  exact (h.ofJson hfs hgs).compileAll hf hg

end Filter

/-! ### Aggregates -/

/-- Compiled aggregates that differ in what their conditions bind alone. -/
structure AggregateTerm.SameText (t u : AggregateTerm) : Prop where
  call : t.call = u.call
  condition : Condition.texts t.condition = Condition.texts u.condition
  label : t.label = u.label
  targetJoins : t.targetJoins = u.targetJoins
  conditionJoins : t.conditionJoins = u.conditionJoins

namespace AggregateRequest

variable {s : Setting}

theorem Alike.compile {q r : AggregateRequest} {d d₁ d₂ : Draft} {t u : AggregateTerm} (h : q.Alike s.SameShape r)
    (hq : q.compile s d = .ok (t, d₁)) (hr : r.compile s d = .ok (u, d₂)) : t.SameText u ∧ d₁ = d₂ := by
  obtain ⟨call, plan, condition, d₃, htarget, hcondition, rfl, rfl⟩ := compile_eq_ok.mp hq
  obtain ⟨call', plan', condition', d₄, htarget', hcondition', rfl, rfl⟩ := compile_eq_ok.mp hr
  have hsame : q.target s d.plan.record = r.target s d.plan.record := by
    simp only [target, ofRecords, h.function, h.path]
  rw [hsame, htarget'] at htarget
  cases htarget
  obtain ⟨htexts, rfl⟩ := Filter.texts_compileJson h.condition hcondition hcondition'
  exact ⟨⟨rfl, htexts, h.label, rfl, rfl⟩, rfl⟩

theorem compileAll_alike : ∀ {qs rs : List AggregateRequest} {d d₁ d₂ : Draft} {ts us : List AggregateTerm},
    List.Forall₂ (Alike s.SameShape) qs rs → compileAll s qs d = .ok (ts, d₁) → compileAll s rs d = .ok (us, d₂) →
      List.Forall₂ AggregateTerm.SameText ts us ∧ d₁ = d₂
  | _, _, d, d₁, d₂, ts, us, .nil, hq, hr => by
    cases hq
    cases hr
    exact ⟨.nil, rfl⟩
  | _, _, d, d₁, d₂, ts, us, .cons hab hrest, hq, hr => by
    obtain ⟨t, dt, ts', ht, hts, rfl⟩ := compileAll_cons_eq_ok.mp hq
    obtain ⟨u, du, us', hu, hus, rfl⟩ := compileAll_cons_eq_ok.mp hr
    obtain ⟨hterm, rfl⟩ := hab.compile ht hu
    obtain ⟨hterms, hd⟩ := compileAll_alike hrest hts hus
    exact ⟨.cons hterm hterms, hd⟩

end AggregateRequest
/-! ### Queries -/

theorem SemiJoin.sql_render_congr {key : ColumnRef} {source : Source} {as bs : List Condition}
    (h : Condition.texts as = Condition.texts bs) :
    (SemiJoin.render ⟨key, source, as⟩).sql = (SemiJoin.render ⟨key, source, bs⟩).sql := by
  rw [SemiJoin.render, SemiJoin.render]
  exact Fragment.sql_wrap_congr (Condition.sql_where_allOf h) _ _

theorem KeyPage.sql_render_congr {p : KeyPage} {filter : List Condition}
    (h : Condition.texts p.filter = Condition.texts filter) :
    p.render.sql = (KeyPage.render { p with filter }).sql := by
  rw [KeyPage.render, KeyPage.render]
  exact Fragment.sql_wrap_congr
    (Fragment.sql_append_congr (Fragment.sql_append_congr rfl (Condition.sql_where_allOf h)) rfl) _ _

/-- Ways to cut the rows that differ in what the filter binds alone. -/
inductive Paging.SameText : Paging → Paging → Prop
  | rows {window : Window} : SameText (.rows window) (.rows window)
  | keys {page : KeyPage} {filter : List Condition} : Condition.texts page.filter = Condition.texts filter →
      SameText (.keys page) (.keys { page with filter })

namespace RowQuery

variable {q : RowQuery} {filter : List Condition} {paging : Paging}

theorem sql_condition_congr (hf : Condition.texts q.filter = Condition.texts filter) (hp : q.paging.SameText paging) :
    q.condition.map (·.sql) = (RowQuery.condition { q with filter, paging }).map (·.sql) := by
  have hall := Condition.sql_allOf hf
  unfold condition
  generalize q.paging = before at hp
  cases hp with
  | rows => exact hall
  | @keys page filter' hpage =>
    have hsql := KeyPage.sql_render_congr hpage
    cases hq : Condition.allOf q.filter with
    | none =>
      cases hq' : Condition.allOf filter with
      | none => exact congrArg some hsql
      | some g => simp [hq, hq'] at hall
    | some f =>
      cases hq' : Condition.allOf filter with
      | none => simp [hq, hq'] at hall
      | some g =>
        have hfg : f.sql = g.sql := by simpa [hq, hq'] using hall
        show some (f.sql ++ Connective.and.text ++ page.render.sql) =
          some (g.sql ++ Connective.and.text ++ (KeyPage.render { page with filter := filter' }).sql)
        rw [hfg, hsql]

theorem sql_statement_congr (hf : Condition.texts q.filter = Condition.texts filter) (hp : q.paging.SameText paging) :
    q.statement.sql = (RowQuery.statement { q with filter, paging }).sql := by
  have hwindow : q.windowClause = RowQuery.windowClause { q with filter, paging } := by
    unfold windowClause
    generalize q.paging = before at hp
    cases hp with
    | rows => rfl
    | keys _ => rfl
  have hwhere := Fragment.sql_whereClause_congr (sql_condition_congr hf hp)
  show _ ++ (Fragment.whereClause q.condition).sql ++ (q.orderClause ++ q.windowClause) = _
  rw [hwhere, hwindow]
  rfl

end RowQuery

theorem AggregateCall.sql_render_congr (call : AggregateCall) {a b : Option Fragment}
    (h : a.map (·.sql) = b.map (·.sql)) : (call.render a).sql = (call.render b).sql := by
  cases a with
  | none =>
    cases b with
    | none => rfl
    | some g => cases h
  | some f =>
    cases b with
    | none => cases h
    | some g =>
      have hfg : f.sql = g.sql := Option.some.inj h
      simp only [render]
      split
      · exact Fragment.sql_wrap_congr hfg _ _
      · exact Fragment.sql_wrap_congr hfg _ _

theorem AggregateSelect.sql_render_congr {call : AggregateCall} {rows rows' : RowChoice} {source : Source}
    {records records' : Option SemiJoin} {label label' : String}
    (hrows : rows.render.map (·.sql) = rows'.render.map (·.sql))
    (hrecords : records.map (·.render.sql) = records'.map (·.render.sql)) :
    (render ⟨call, rows, source, records, label⟩).sql = (render ⟨call, rows', source, records', label'⟩).sql := by
  have hwhere : (Fragment.whereClause (records.map (·.render))).sql =
      (Fragment.whereClause (records'.map (·.render))).sql :=
    Fragment.sql_whereClause_congr (by rwa [Option.map_map, Option.map_map])
  rw [render_eq, render_eq]
  exact Fragment.sql_append_congr (Fragment.sql_wrap_congr (call.sql_render_congr hrows) _ _) hwhere

theorem AggregateQuery.sql_columns_congr : ∀ {as bs : List AggregateSelect} (n : Nat),
    as.map (·.render.sql) = bs.map (·.render.sql) →
      ((as.zipIdx n).map fun (a, place) => a.render.wrap "(" (") AS " ++ quoteName ("a" ++ toString place))).map (·.sql) =
        ((bs.zipIdx n).map fun (a, place) => a.render.wrap "(" (") AS " ++ quoteName ("a" ++ toString place))).map
          (·.sql)
  | [], bs, n, h => by rw [List.map_eq_nil_iff.mp h.symm]
  | a :: as, [], n, h => by cases h
  | a :: as, b :: bs, n, h => by
    rw [List.map_cons, List.map_cons, List.cons.injEq] at h
    rw [List.zipIdx_cons, List.zipIdx_cons, List.map_cons, List.map_cons, List.map_cons, List.map_cons,
      sql_columns_congr (n + 1) h.2]
    exact congrArg (· :: _) (Fragment.sql_wrap_congr h.1 _ _)

theorem AggregateQuery.sql_statement_congr {as bs : List AggregateSelect}
    (h : as.map (·.render.sql) = bs.map (·.render.sql)) :
    (statement ⟨as⟩).sql = (statement ⟨bs⟩).sql := by
  rw [statement, statement]
  refine Fragment.sql_wrap_congr ?_ "SELECT " ""
  rw [Fragment.sql_join, Fragment.sql_join, sql_columns_congr 0 h]

/-! ### Plans -/

/-- Compiled parts that differ in what their conditions bind alone. -/
structure CompiledParts.SameText (c c' : CompiledParts) : Prop where
  projection : c.projection = c'.projection
  filter : Condition.texts c.filter = Condition.texts c'.filter
  sort : c.sort = c'.sort
  aggregates : List.Forall₂ AggregateTerm.SameText c.aggregates c'.aggregates
  draft : c.draft = c'.draft

namespace CompiledParts

variable {s : Setting} {c c' : CompiledParts}

theorem compile_alike {a b : FindRequest} {qs rs : List AggregateRequest} (h : a.Alike s.SameShape b)
    (hqr : List.Forall₂ (AggregateRequest.Alike s.SameShape) qs rs) (ha : compile s a qs = .ok c)
    (hb : compile s b rs = .ok c') : c.SameText c' := by
  obtain ⟨d₁, d₂, d₃, hproj, hfilter, hsort, haggs⟩ := compile_eq_ok.mp ha
  obtain ⟨e₁, e₂, e₃, hproj', hfilter', hsort', haggs'⟩ := compile_eq_ok.mp hb
  rw [h.fields, hproj'] at hproj
  obtain ⟨hp, rfl⟩ := Prod.mk.inj (Except.ok.inj hproj)
  obtain ⟨hf, rfl⟩ := Filter.texts_compileJson h.filter hfilter hfilter'
  rw [h.sort, hsort'] at hsort
  obtain ⟨hk, rfl⟩ := Prod.mk.inj (Except.ok.inj hsort)
  obtain ⟨ht, hd⟩ := AggregateRequest.compileAll_alike hqr haggs haggs'
  exact ⟨hp.symm, hf, hk.symm, ht, hd⟩

theorem SameText.sql_rowQuery (h : c.SameText c') (window : Window) :
    (c.rowQuery s window).statement.sql = (c'.rowQuery s window).statement.sql := by
  obtain ⟨projection, filter, sort, aggregates, draft⟩ := c
  obtain ⟨projection', filter', sort', aggregates', draft'⟩ := c'
  obtain ⟨rfl, hfilter, rfl, -, rfl⟩ := h
  have hpaging : (rowQuery ⟨projection, filter, sort, aggregates, draft⟩ s window).paging.SameText
      (rowQuery ⟨projection, filter', sort, aggregates', draft⟩ s window).paging := by
    unfold rowQuery
    dsimp only
    split
    · exact .keys hfilter
    · exact .rows
  exact RowQuery.sql_statement_congr hfilter hpaging

theorem SameText.sql_countQuery (h : c.SameText c') :
    (c.countQuery s).statement.sql = (c'.countQuery s).statement.sql := by
  obtain ⟨projection, filter, sort, aggregates, draft⟩ := c
  obtain ⟨projection', filter', sort', aggregates', draft'⟩ := c'
  obtain ⟨rfl, hfilter, rfl, -, rfl⟩ := h
  exact Fragment.sql_append_congr rfl (Condition.sql_where_allOf hfilter)

theorem SameText.sql_filtered (h : c.SameText c') :
    (c.filtered s).map (·.render.sql) = (c'.filtered s).map (·.render.sql) := by
  obtain ⟨projection, filter, sort, aggregates, draft⟩ := c
  obtain ⟨projection', filter', sort', aggregates', draft'⟩ := c'
  obtain ⟨rfl, hfilter, rfl, -, rfl⟩ := h
  unfold filtered
  rw [Condition.isEmpty_congr hfilter]
  split
  · rfl
  · exact congrArg some (SemiJoin.sql_render_congr hfilter)

theorem SameText.sql_aggregateSelect (h : c.SameText c') {t u : AggregateTerm} (htu : t.SameText u) :
    (c.aggregateSelect s t).render.sql = (c'.aggregateSelect s u).render.sql := by
  have hrecords := h.sql_filtered (s := s)
  obtain ⟨call, condition, label, targetJoins, conditionJoins⟩ := t
  obtain ⟨call', condition', label', targetJoins', conditionJoins'⟩ := u
  obtain ⟨rfl, hcondition, rfl, rfl, rfl⟩ := htu
  obtain ⟨projection, filter, sort, aggregates, draft⟩ := c
  obtain ⟨projection', filter', sort', aggregates', draft'⟩ := c'
  obtain ⟨rfl, -, rfl, -, rfl⟩ := h
  unfold aggregateSelect
  dsimp only
  rw [Condition.isEmpty_congr hcondition]
  split
  · exact AggregateSelect.sql_render_congr (congrArg some (SemiJoin.sql_render_congr hcondition)) hrecords
  · exact AggregateSelect.sql_render_congr (Condition.sql_allOf hcondition) hrecords

theorem aggregateSelect_output (c : CompiledParts) (s : Setting) (t : AggregateTerm) :
    ((c.aggregateSelect s t).call, (c.aggregateSelect s t).label) = (t.call, t.label) := by
  rcases c.aggregateSelect_eq s t with h | h <;> rw [h]

theorem SameText.isEmpty_aggregates (h : c.SameText c') : c.aggregates.isEmpty = c'.aggregates.isEmpty := by
  rw [Bool.eq_iff_iff, List.isEmpty_iff_length_eq_zero, List.isEmpty_iff_length_eq_zero, h.aggregates.length_eq]

theorem SameText.sql_aggregateQuery (h : c.SameText c') :
    (c.aggregateQuery s).map (·.statement.sql) = (c'.aggregateQuery s).map (·.statement.sql) := by
  have hparts : (c.aggregates.map (c.aggregateSelect s)).map (·.render.sql) =
      (c'.aggregates.map (c'.aggregateSelect s)).map (·.render.sql) := by
    rw [List.map_map, List.map_map, ← List.forall₂_eq_eq_eq, List.forall₂_map_left_iff, List.forall₂_map_right_iff]
    exact h.aggregates.imp fun _ _ htu => h.sql_aggregateSelect htu
  unfold aggregateQuery
  rw [h.isEmpty_aggregates]
  split
  · rfl
  · exact congrArg some (AggregateQuery.sql_statement_congr hparts)

theorem SameText.outputs (h : c.SameText c') :
    (c.aggregateQuery s).map (fun q => q.parts.map fun a => (a.call, a.label)) =
      (c'.aggregateQuery s).map fun q => q.parts.map fun a => (a.call, a.label) := by
  have hparts : (c.aggregates.map (c.aggregateSelect s)).map (fun a => (a.call, a.label)) =
      (c'.aggregates.map (c'.aggregateSelect s)).map fun a => (a.call, a.label) := by
    rw [List.map_map, List.map_map, ← List.forall₂_eq_eq_eq, List.forall₂_map_left_iff, List.forall₂_map_right_iff]
    refine h.aggregates.imp fun t u htu => ?_
    rw [Function.comp_apply, Function.comp_apply, aggregateSelect_output, aggregateSelect_output, htu.call, htu.label]
  unfold aggregateQuery
  rw [h.isEmpty_aggregates]
  split
  · rfl
  · exact congrArg some hparts

end CompiledParts

theorem Setting.sameShape_eq {catalog : Catalog} {table : String} {options : CompileOptions} {s : Setting}
    (hs : FindPlan.setting catalog table options = .ok s) : catalog.SameShape table = s.SameShape := by
  obtain ⟨-, root, hroot, rfl⟩ := FindPlan.setting_eq_ok.mp hs
  funext path op a b
  refine propext ⟨fun h type htype => h root type hroot htype, fun h root' type hroot' htype => ?_⟩
  cases hroot.symm.trans hroot'
  exact h type htype

/-- The texts of a statement that there may be, with its label. -/
theorem texts_labelled {α : Type} {x y : Option α} {statement : α → Statement} (label : String)
    (h : x.map (fun q => (statement q).sql) = y.map fun q => (statement q).sql) :
    ((x.map fun q => (label, statement q)).toList.map fun st => (st.1, st.2.sql)) =
      (y.map fun q => (label, statement q)).toList.map fun st => (st.1, st.2.sql) := by
  cases x with
  | none =>
    cases y with
    | none => rfl
    | some v => cases h
  | some u =>
    cases y with
    | none => cases h
    | some v => exact congrArg (fun text => [(label, text)]) (Option.some.inj h)

/-- No operand reaches the text of a statement: of two requests that are alike up to operands of the same shape, and
that both compile, all statements have the same text, and everything else but the cells they bind is the same too. -/
theorem FindPlan.sql_independent_of_operands {catalog : Catalog} {table : String} {a b : FindRequest}
    {options : CompileOptions} {p q : FindPlan} (h : a.Alike (catalog.SameShape table) b)
    (ha : FindPlan.compile catalog table a options = .ok p) (hb : FindPlan.compile catalog table b options = .ok q) :
    p.statements.map (fun st => (st.1, st.2.sql)) = q.statements.map (fun st => (st.1, st.2.sql)) ∧
      p.projection = q.projection ∧ p.window = q.window ∧
      p.aggregate.map (fun x => x.parts.map fun y => (y.call, y.label)) =
        q.aggregate.map (fun x => x.parts.map fun y => (y.call, y.label)) ∧
      p.skipped = q.skipped := by
  obtain ⟨counts, qs, s, c, hcounts, hqs, hs, hc, rfl⟩ := compile_eq_ok.mp ha
  obtain ⟨counts', rs, s', c', hcounts', hrs, hs', hc', rfl⟩ := compile_eq_ok.mp hb
  rw [h.counts, hcounts'] at hcounts
  cases hcounts
  rw [hs] at hs'
  cases hs'
  rw [Setting.sameShape_eq hs] at h
  have hparts := CompiledParts.compile_alike h (h.aggregate.ofJson hqs hrs) hc hc'
  have hwindow : Window.ofPage a.page a.limit options.defaultLimit = Window.ofPage b.page b.limit options.defaultLimit := by
    rw [h.page, h.limit]
  rw [hwindow]
  refine ⟨?_, hparts.projection, rfl, hparts.outputs, congrArg Draft.skipped hparts.draft⟩
  have hcount : (if counts.filtered then some (c.countQuery s) else none).map (·.statement.sql) =
      (if counts.filtered then some (c'.countQuery s) else none).map (·.statement.sql) := by
    split
    · exact congrArg some hparts.sql_countQuery
    · rfl
  simp only [statements, CompiledParts.plan, List.map_append, List.map_cons, List.map_nil, hparts.sql_rowQuery,
    texts_labelled "filterCount" hcount, texts_labelled "aggregate" hparts.sql_aggregateQuery]

/-- A request with other operands: a text with quotes and a question mark in it, a list instead of a text. -/
def FindRequest.sampleTwin : FindRequest where
  filter := .obj [("author", .obj [("name", .obj [("contains", .str "\x27 OR \"?\" --")])]), ("nowhere", .null),
    ("or", .arr [.obj [("open?", .bool false)], .obj [("tags", .obj [("_eq_set", .arr [.int 7, .int 8])])]])]
  fields := ["title", "tags.label"]
  sort := ["-author.name"]
  page := none
  limit := some 5
  counts := some "*"
  aggregate := .obj [("count", .obj [("field", .str "tags"), ("condition", .obj [("id", .obj [("gt", .str "x")])])])]

theorem FindRequest.sample_alike : FindRequest.sample.Alike (Catalog.blog.SameShape "posts") .sampleTwin := by
  have hauthor : Filter.Key.ofText "author" = .field "author" := by decide +kernel
  have hname : Filter.Key.ofText "name" = .field "name" := by decide +kernel
  have hcontains : Filter.Key.ofText "contains" = .op .contains := by decide +kernel
  have hnowhere : Filter.Key.ofText "nowhere" = .field "nowhere" := by decide +kernel
  have hopen : Filter.Key.ofText "open?" = .field "open?" := by decide +kernel
  have htags : Filter.Key.ofText "tags" = .field "tags" := by decide +kernel
  have heqSet : Filter.Key.ofText "_eq_set" = .op .eqSet := by decide +kernel
  have hid : Filter.Key.ofText "id" = .field "id" := by decide +kernel
  have hgt : Filter.Key.ofText "gt" = .op (.compare .gt) := by decide +kernel
  have hlost : ((Catalog.blog.table? "posts").bind (Catalog.blog.typeAt? · (Path.root.child "nowhere"))) = none := by
    decide +kernel
  refine ⟨.obj (.cons ?_ (.cons ?_ (.cons ?_ .nil))), rfl, rfl, rfl, rfl, rfl, .obj (.cons ⟨rfl, ?_⟩ .nil)⟩
  · exact .field hauthor (.cons (.field hname (.cons (.operand hcontains fun _ _ _ _ => trivial) .nil)) .nil)
  · -- This path leads nowhere, so a number may stand for null.
    refine .value hnowhere nofun nofun fun root type hroot htype => ?_
    simp [hroot, htype] at hlost
  · refine .combineItems (by decide +kernel) (.cons (.cons ?_ .nil) (.cons (.cons ?_ .nil) .nil))
    · exact .value hopen nofun nofun fun _ _ _ _ => ⟨nofun, nofun⟩
    · refine .field htags (.cons (.operand heqSet fun _ type _ _ => ?_) .nil)
      unfold Operator.SameShape
      cases type <;> decide +kernel
  · refine .one (.obj (.cons ⟨rfl, rfl⟩ (.cons ⟨rfl, ?_⟩ .nil)))
    exact .obj (.cons (.field hid (.cons (.operand hgt fun _ _ _ _ => ⟨nofun, nofun⟩) .nil)) .nil)

/-- The statements of the two requests bind different cells in the same texts. -/
theorem sql_independent_of_operands_blog :
    ∃ p q, FindPlan.compile .blog "posts" .sample .standard = .ok p ∧
      FindPlan.compile .blog "posts" .sampleTwin .standard = .ok q ∧
      p.statements.map (fun st => (st.1, st.2.sql)) = q.statements.map (fun st => (st.1, st.2.sql)) ∧
      p.data.statement.params ≠ q.data.statement.params := by
  obtain ⟨p, hp⟩ := exists_eq_ok (x := FindPlan.compile .blog "posts" .sample .standard) (by decide +kernel)
  obtain ⟨q, hq⟩ := exists_eq_ok (x := FindPlan.compile .blog "posts" .sampleTwin .standard) (by decide +kernel)
  have hparams : (FindPlan.compile .blog "posts" .sample .standard).toOption.map (fun p => p.data.statement.params) ≠
      (FindPlan.compile .blog "posts" .sampleTwin .standard).toOption.map (fun q => q.data.statement.params) := by
    decide +kernel
  rw [hp, hq] at hparams
  exact ⟨p, q, hp, hq, (FindPlan.sql_independent_of_operands FindRequest.sample_alike hp hq).1,
    fun h => hparams (congrArg some h)⟩

end RecordService
