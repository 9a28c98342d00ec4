import RecordService.Plan.Resolve
import RecordService.Request.Filter

/-! # Conditions

A filter becomes a tree of conditions over columns (`Condition`), whose leaves are tests that bind their operands as
parameters (`Test`). Leaves whose path leads nowhere are dropped, and with them the groups and negations that are
left empty. Text operators compare folded text by a pattern in which the operand stands for itself; the counting
operators look at the links through a subquery and join nothing. -/

namespace RecordService

/-- A test of one row. -/
inductive Test where
  | isNull (column : Sql.ColumnRef) (negated : Bool)
  | compare (column : Sql.ColumnRef) (comparison : Comparison) (value : Cell)
  | member (column : Sql.ColumnRef) (negated : Bool) (values : List Cell)
  /-- Membership in an empty list, decided at once. -/
  | constant (holds : Bool)
  | between (column : Sql.ColumnRef) (low high : Cell)
  | like (column : Sql.ColumnRef) (pattern : String)
  /-- The number of links of the row whose key is `parent`. -/
  | count (links : LinkTable) (scratch : String) (parent : Sql.ColumnRef) (comparison : Comparison) (value : Cell)
  /-- The set of links of the row whose key is `parent`. -/
  | setEq (links : LinkTable) (scratch : String) (parent : Sql.ColumnRef) (ids : List Cell)
deriving DecidableEq, Repr

inductive Condition where
  | test (t : Test)
  | group (connective : Sql.Connective) (parts : List Condition)
  | not (part : Condition)
deriving Repr

namespace Test

/-- The link table under the scratch alias, restricted to the links of the parent. -/
def linksOf (links : LinkTable) (scratch : String) (parent : Sql.ColumnRef) : String :=
  let own : Sql.ColumnRef := ⟨scratch, links.parentKey⟩
  s!" FROM {Sql.quoteName links.table} AS {Sql.quoteName scratch} WHERE {own.text} = {parent.text}"

/-- The test as SQL. -/
def render : Test → Sql.Fragment
  | isNull col negated => .raw (col.text ++ if negated then " IS NOT NULL" else " IS NULL")
  | compare col c value => ⟨s!"{col.text} {c.sql} ?", [value]⟩
  | member col negated values =>
    let keyword := if negated then "NOT IN" else "IN"
    ⟨s!"{col.text} {keyword} ({Sql.placeholders values})", values⟩
  | constant holds => .raw (if holds then "1 = 1" else "1 = 0")
  | between col low high => ⟨s!"{col.text} BETWEEN ? AND ?", [low, high]⟩
  | like col pattern => ⟨s!"unaccent({col.text}) LIKE unaccent(?) ESCAPE '\\'", [.text pattern]⟩
  | count links scratch parent c value =>
    ⟨s!"(SELECT COUNT(*){linksOf links scratch parent}) {c.sql} ?", [value]⟩
  | setEq links scratch parent ids =>
    if ids.isEmpty then .raw s!"NOT EXISTS (SELECT 1{linksOf links scratch parent})"
    else
      let own : Sql.ColumnRef := ⟨scratch, links.parentKey⟩
      let target : Sql.ColumnRef := ⟨scratch, links.targetKey⟩
      let n := toString ids.length
      let key := target.text
      ⟨s!"EXISTS (SELECT 1{linksOf links scratch parent} GROUP BY {own.text} HAVING COUNT(DISTINCT {key}) = {n}" ++
        s!" AND COUNT(DISTINCT CASE WHEN {key} IN ({Sql.placeholders ids}) THEN {key} END) = {n})", ids⟩

end Test

namespace Condition

mutual

/-- The condition as SQL: a group in parentheses even when it has one part, a negation around parentheses. -/
def render : Condition → Sql.Fragment
  | test t => t.render
  | group c parts => (Sql.Fragment.join c.text (renderAll parts)).wrap "(" ")"
  | not part => part.render.wrap "NOT (" ")"

def renderAll : List Condition → List Sql.Fragment
  | [] => []
  | part :: rest => part.render :: renderAll rest

end

/-- Conditions that all have to hold, as one condition without parentheses of its own. -/
def allOf (parts : List Condition) : Option Sql.Fragment :=
  Sql.Fragment.ofClauses (parts.map fun part => (.and, part.render))

end Condition

/-! ### Operands -/

namespace Operand

/-- The cells of a list: an array, or a comma-separated text. -/
def list? (operand : Json) (type : ScalarType) : Option (List Cell) :=
  match operand with
  | .arr items => some (items.map (Cell.coerce · type))
  | .str s => some ((Text.pieces ',' s).map fun item => Cell.coerce (.str item) type)
  | _ => none

/-- The text of a scalar operand. -/
def text? : Json → Option String
  | .str s => some s
  | .num n => some n.text
  | .bool b => some (if b then "true" else "false")
  | _ => none

/-- A text with the wildcards of a pattern escaped. -/
def escapePattern (text : String) : String :=
  String.ofList (text.toList.flatMap fun c => if c == '%' || c == '_' || c == '\\' then ['\\', c] else [c])

/-- The cells of a list without those whose identity occurred before. -/
def distinct (seen : List String) : List Cell → List Cell
  | [] => []
  | c :: rest =>
    if seen.contains c.identity then distinct seen rest else c :: distinct (c.identity :: seen) rest

end Operand

/-- The pattern of a text operator. -/
def Operator.pattern (op : Operator) (text : String) : String :=
  let escaped := Operand.escapePattern text
  match op with
  | .contains => "%" ++ escaped ++ "%"
  | .startsWith => escaped ++ "%"
  | _ => "%" ++ escaped

/-- The test that a predicate puts to a column of the type. -/
def Predicate.columnTest (p : Predicate) (col : Sql.ColumnRef) (type : ScalarType) : Except CompileError Test :=
  let malformed (expected : Expected) : Except CompileError Test :=
    .error (.malformedOperand p.path p.op.name expected)
  match p.op, p.operand with
  | .compare .eq, .null => .ok (.isNull col false)
  | .compare .neq, .null => .ok (.isNull col true)
  | .compare _, .arr _ => malformed .scalar
  | .compare _, .obj _ => malformed .scalar
  | .compare c, operand => .ok (.compare col c (.coerce operand type))
  | .isIn, operand =>
    match Operand.list? operand type with
    | none => malformed .list
    | some [] => .ok (.constant false)
    | some values => .ok (.member col false values)
  | .notIn, operand =>
    match Operand.list? operand type with
    | none => malformed .list
    | some [] => .ok (.constant true)
    | some values => .ok (.member col true values)
  | .between, operand =>
    match Operand.list? operand type with
    | some [low, high] => .ok (.between col low high)
    | _ => malformed .pair
  | .isNull, operand => .ok (.isNull col !operand.truthy)
  | .contains, operand | .startsWith, operand | .endsWith, operand =>
    match Operand.text? operand with
    | some text => .ok (.like col (p.op.pattern text))
    | none => malformed .text
  | .count _, _ => .error (.notToMany p.path p.op)
  | .eqSet, _ => .error (.notToMany p.path p.op)

/-- The test that compares the number of links. -/
def Predicate.countTest (p : Predicate) (c : Comparison) (links : LinkTable) (scratch : String)
    (parent : Sql.ColumnRef) : Except CompileError Test :=
  match Cell.coerce p.operand .int with
  | .int i => .ok (.count links scratch parent c (.int i))
  | .float x => .ok (.count links scratch parent c (.float x))
  | _ => .error (.malformedOperand p.path p.op.name .number)

/-- The test that compares the set of links. -/
def Predicate.setTest (p : Predicate) (type : ScalarType) (links : LinkTable) (scratch : String)
    (parent : Sql.ColumnRef) : Except CompileError Test :=
  match Operand.list? p.operand type with
  | some ids => .ok (.setEq links scratch parent (Operand.distinct [] ids))
  | none => .error (.malformedOperand p.path p.op.name .list)

/-- Compiles a predicate: nothing if its path leads nowhere. A relation that is not counted is joined and stands for
its target's primary key. -/
def Predicate.compile (s : Setting) (usage : Usage) (p : Predicate) (d : Draft) :
    Except CompileError (Option Test × Draft) :=
  match s.resolve? d.plan p.path usage with
  | none => do
    let d ← s.unresolved d p.path
    return (none, d)
  | some (.column _ tableAlias column, plan) => do
    let test ← p.columnTest ⟨tableAlias, column.name⟩ column.type
    return (some test, { d with plan })
  | some (.relation _ parentPath parentAlias _ r target, plan) =>
    let parent : Sql.ColumnRef := ⟨parentAlias, r.joinKey⟩
    match p.op with
    | .count c =>
      if !r.isMany then .error (.notToMany p.path p.op)
      else do
        let (scratch, plan) := plan.scratch
        let test ← p.countTest c (r.links target) scratch parent
        return (some test, { d with plan })
    | .eqSet =>
      if !r.isMany then .error (.notToMany p.path p.op)
      else do
        let (scratch, plan) := plan.scratch
        let test ← p.setTest target.primaryType (r.links target) scratch parent
        return (some test, { d with plan })
    | _ => do
      let (hop, plan) := plan.cross parentPath parentAlias r target usage
      let test ← p.columnTest ⟨hop.tableAlias, target.primaryKey⟩ target.primaryType
      return (some test, { d with plan })

namespace Filter

/-- A group of what is left, if anything is. -/
def groupOf (c : Sql.Connective) (parts : List Condition) : Option Condition :=
  if parts.isEmpty then none else some (.group c parts)

mutual

/-- Compiles a node: nothing if nothing of it is left. -/
def compile (s : Setting) (usage : Usage) : Filter → Draft → Except CompileError (Option Condition × Draft)
  | all children, d => do
    let (parts, d) ← compileAll s usage children d
    return (groupOf .and parts, d)
  | any children, d => do
    let (parts, d) ← compileAll s usage children d
    return (groupOf .or parts, d)
  | not child, d => do
    let (part, d) ← compile s usage child d
    return (part.map .not, d)
  | leaf p, d => do
    let (test, d) ← p.compile s usage d
    return (test.map .test, d)

/-- Compiles nodes in order and keeps what is left. -/
def compileAll (s : Setting) (usage : Usage) :
    List Filter → Draft → Except CompileError (List Condition × Draft)
  | [], d => .ok ([], d)
  | node :: rest, d => do
    let (part, d) ← compile s usage node d
    let (parts, d) ← compileAll s usage rest d
    return (part.toList ++ parts, d)

end

/-- Compiles a filter document to the conditions that all have to hold. -/
def compileJson (s : Setting) (usage : Usage) (filter : Json) (d : Draft) :
    Except CompileError (List Condition × Draft) := do
  let nodes ← ofJson filter
  compileAll s usage nodes d

end Filter
end RecordService
