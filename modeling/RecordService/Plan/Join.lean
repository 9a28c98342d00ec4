import RecordService.Sql.Fragment

/-! # Join plans

Every relation path of a request gets one join and one alias, in the order in which the paths are first needed. A
join keeps the parts of the request that need it (`Usage`), so that a statement renders only the joins of its own
parts. While a recording runs, the plan also notes which joins are reached. -/

namespace RecordService

/-- The parts of a request that need a join. -/
structure Usage where
  projection : Bool
  filter : Bool
  sort : Bool
  aggregate : Bool
deriving DecidableEq, Repr

namespace Usage

def forProjection : Usage := ⟨true, false, false, false⟩
def forFilter : Usage := ⟨false, true, false, false⟩
def forSort : Usage := ⟨false, false, true, false⟩
def forAggregate : Usage := ⟨false, false, false, true⟩

/-- The parts of the statement that fetches rows. -/
def forRows : Usage := ⟨true, true, true, false⟩

def union (u v : Usage) : Usage :=
  ⟨u.projection || v.projection, u.filter || v.filter, u.sort || v.sort, u.aggregate || v.aggregate⟩

/-- Whether some part is in both. -/
def meets (u v : Usage) : Bool :=
  (u.projection && v.projection) || (u.filter && v.filter) || (u.sort && v.sort) || (u.aggregate && v.aggregate)

end Usage

/-- The junction of a join, under its own alias. -/
structure LinkHop where
  table : String
  tableAlias : String
  sourceKey : String
  targetKey : String
deriving DecidableEq, Repr

/-- One planned join. -/
structure Join where
  parentAlias : String
  relation : String
  tableAlias : String
  /-- The dotted relation path from the root. -/
  path : String
  table : String
  many : Bool
  primaryKey : String
  usage : Usage
  parentKey : String
  targetKey : String
  link : Option LinkHop
deriving DecidableEq, Repr

/-- A table under an alias, joined where two columns agree. -/
def joinClause (table tableAlias : String) (left right : Sql.ColumnRef) : String :=
  s!" LEFT JOIN {Sql.quoteName table} AS {Sql.quoteName tableAlias} ON {left.text} = {right.text}"

/-- The join clause, or the two clauses through the junction. -/
def Join.text (j : Join) : String :=
  let parent : Sql.ColumnRef := ⟨j.parentAlias, j.parentKey⟩
  match j.link with
  | some link =>
    joinClause link.table link.tableAlias ⟨link.tableAlias, link.sourceKey⟩ parent ++
      joinClause j.table j.tableAlias ⟨j.tableAlias, j.targetKey⟩ ⟨link.tableAlias, link.targetKey⟩
  | none => joinClause j.table j.tableAlias ⟨j.tableAlias, j.targetKey⟩ parent

/-- The joins of a request, in order of first need. -/
structure JoinPlan where
  root : String
  /-- The place of each path that is planned. -/
  byPath : List (String × Nat)
  joins : List Join
  /-- How many aliases of subqueries have been given out. -/
  scratches : Nat
  /-- The joins reached since the recording began, if one runs. -/
  recording : Option (List Nat)
deriving DecidableEq, Repr

/-- The dotted path of a relation of the table at `parent`. -/
def extendPath (parent name : String) : String :=
  if parent.isEmpty then name else parent ++ "." ++ name

namespace JoinPlan

def start (root : String) : JoinPlan :=
  ⟨root, [], [], 0, none⟩

/-- The place of the join of a path. -/
def index? (p : JoinPlan) (path : String) : Option Nat :=
  p.byPath.lookup path

/-- The alias of the join at a place. -/
def placeAlias? (p : JoinPlan) (place : Nat) : Option String :=
  (p.joins[place]?).map (·.tableAlias)

/-- The alias of a path that is planned already. -/
def alias? (p : JoinPlan) (path : String) : Option String :=
  (p.index? path).bind p.placeAlias?

/-- Notes that the join at a place has been reached. -/
def touch (p : JoinPlan) (place : Nat) : JoinPlan :=
  { p with recording := p.recording.map fun seen => if seen.contains place then seen else seen ++ [place] }

/-- The alias of the join at a place. -/
def joinAlias (place : Nat) : String :=
  "j" ++ toString place

/-- The alias of the junction that goes with a join. -/
def linkAlias (tableAlias : String) : String :=
  tableAlias ++ "_link"

/-- A new join of a relation. -/
def newJoin (place : Nat) (path parentAlias : String) (r : Relation) (target : Table) (usage : Usage) : Join :=
  let tableAlias := joinAlias place
  { parentAlias, relation := r.name, tableAlias, path, table := target.name, many := r.isMany
    primaryKey := target.primaryKey, usage, parentKey := r.joinKey, targetKey := r.inverseJoinKey
    link := r.junction.map fun j => ⟨j.table, linkAlias tableAlias, j.sourceKey, j.targetKey⟩ }

/-- The alias of a relation below a path. The first call for a path plans its join and notes its place; every later one
only adds its usage. -/
def join (p : JoinPlan) (parentPath parentAlias : String) (r : Relation) (target : Table) (usage : Usage) :
    String × JoinPlan :=
  let path := extendPath parentPath r.name
  match p.index? path with
  | some place =>
    let p := p.touch place
    ((p.placeAlias? place).getD "",
      { p with joins := p.joins.modify place fun j => { j with usage := j.usage.union usage } })
  | none =>
    let place := p.joins.length
    let p := p.touch place
    (joinAlias place,
      { p with
        byPath := (path, place) :: p.byPath
        joins := p.joins ++ [newJoin place path parentAlias r target usage] })

/-- The joins that some part of the usage needs. -/
def joinsFor (p : JoinPlan) (usage : Usage) : List Join :=
  p.joins.filter (·.usage.meets usage)

/-- Whether a join that the usage needs leads to many records. -/
def hasMany (p : JoinPlan) (usage : Usage) : Bool :=
  (p.joinsFor usage).any (·.many)

/-- The joins at the given places, in the order of the plan. -/
def joinsAt (p : JoinPlan) (places : List Nat) : List Join :=
  (p.joins.zipIdx.filter fun (_, place) => places.contains place).map (·.1)

/-- Whether a join at one of the places leads to many records. -/
def anyMany (p : JoinPlan) (places : List Nat) : Bool :=
  places.any fun place => (p.joins[place]?).any (·.many)

/-- Begins to note which joins are reached. -/
def record (p : JoinPlan) : JoinPlan :=
  { p with recording := some [] }

/-- Puts a place before the first one that is not smaller. -/
def insertPlace (place : Nat) : List Nat → List Nat
  | [] => [place]
  | first :: rest => if place ≤ first then place :: first :: rest else first :: insertPlace place rest

/-- The places in ascending order. -/
def sortPlaces (places : List Nat) : List Nat :=
  places.foldr insertPlace []

/-- Ends the recording: the places reached, in ascending order. -/
def recorded (p : JoinPlan) : List Nat × JoinPlan :=
  (sortPlaces (p.recording.getD []), { p with recording := none })

/-- An alias for a subquery, never given out again. -/
def scratch (p : JoinPlan) : String × JoinPlan :=
  ("s" ++ toString p.scratches, { p with scratches := p.scratches + 1 })

end JoinPlan

/-- Join clauses in a row. -/
def joinsText (joins : List Join) : String :=
  String.join (joins.map Join.text)

end RecordService
