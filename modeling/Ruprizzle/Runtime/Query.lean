import Ruprizzle.Runtime.Reads

namespace Ruprizzle.Runtime

structure JoinSpec (S : Type) where
  kind : JoinKind
  rightTable : String
  rightColumns : List String
  rightAlias : Option String
  on : FilterNode S
  rightDeletedAt : Option String

-- A common table expression as it is given to a query.
inductive CteQuery (S : Type)
  | with_ (name : String) (query : S)
  | withRecursive (name : String) (anchor recursive : S)

structure Cte (R : Type) where
  name : String
  compiled : R
  recursive : Bool

structure SelectQuery (S : Type) where
  model : Model
  filter : FilterNode S
  projection : List String
  order : List OrderBy
  limit : Option Nat
  offset : Option Nat
  distinct : Bool
  ctes : List (CteQuery S)
  join : Option (JoinSpec S)
  withDeleted : Bool
  onlyDeleted : Bool

inductive SetOp
  | union | unionAll | intersect | except
  deriving DecidableEq, Repr

def SetOp.sql : SetOp → String
  | union => "UNION"
  | unionAll => "UNION ALL"
  | intersect => "INTERSECT"
  | except => "EXCEPT"

structure SetOpQuery (S : Type) where
  op : SetOp
  left : SelectQuery S
  right : SelectQuery S
  limit : Option Nat
  offset : Option Nat

structure AggregateQuery (S : Type) where
  model : Model
  filter : FilterNode S
  aggregates : List AggregateEntry
  groupBy : List String
  having : FilterNode S
  order : List OrderBy
  limit : Option Nat
  offset : Option Nat
  ctes : List (CteQuery S)

variable {S R : Type}

-- What both the compiler and the reading of its statements do with pushes is
-- left open here: the queries are built for any way to assemble pushes.

def CteQuery.compile (assemble : List (Push R) → R) (inner : S → R) : CteQuery S → Cte R
  | with_ name query => ⟨name, inner query, false⟩
  | withRecursive name anchor recursive =>
      ⟨name, assemble [.str "(", .renumbered (inner anchor), .str ") UNION ALL (",
        .renumbered (inner recursive), .str ")"], true⟩

def pushCte (cte : Cte R) : List (Push R) :=
  [.quoted cte.name, .str " AS (", .renumbered cte.compiled, .str ")"]

def ctePrefix (ctes : List (Cte R)) (main : R) : List (Push R) :=
  List.flatten [
    [.str (if ctes.any Cte.recursive then "WITH RECURSIVE " else "WITH ")],
    separated ", " (ctes.map pushCte), [.str " ", .renumbered main]]

def withCtePrefix (assemble : List (Push R) → R) (ctes : List (Cte R)) (main : R) : R :=
  if ctes.isEmpty then main else assemble (ctePrefix ctes main)

-- SQLite takes no SELECT in parentheses as an operand.
def setOp (d : Dialect) (op : SetOp) (left right : R) : List (Push R) :=
  if d = .sqlite then
    [.str "SELECT * FROM (", .renumbered left, .str ") AS __rz_l ", .str op.sql,
      .str " SELECT * FROM (", .renumbered right, .str ") AS __rz_r"]
  else
    [.str "(", .renumbered left, .str ") ", .str op.sql, .str " (", .renumbered right, .str ")"]

def paged (assemble : List (Push R) → R) (clause : String) (n : Option Nat) (main : R) : R :=
  match n with
  | some n => assemble [.renumbered main, .str clause, .str (toString n)]
  | none => main

namespace SelectQuery

def joinSupported (d : Dialect) (q : SelectQuery S) : Bool :=
  match q.join with
  | some join =>
      match join.kind with
      | .right => d ≠ .sqlite
      | .full => d = .postgres
      | _ => true
  | none => true

-- The rows that a soft delete hides, or the others.
def effectiveFilter (q : SelectQuery S) : FilterNode S :=
  match q.model.deletedAtColumn with
  | some col =>
      if q.withDeleted then q.filter
      else Filter.and q.filter (.null q.model.table col q.onlyDeleted)
  | none => q.filter

def joinOn (q : SelectQuery S) (join : JoinSpec S) : FilterNode S :=
  match join.rightDeletedAt with
  | some column =>
      if q.withDeleted then join.on
      else .and [join.on, .null (join.rightAlias.getD join.rightTable) column false]
  | none => join.on

def pushes (d : Dialect) (q : SelectQuery S) : List (Push S) :=
  match q.join with
  | some join =>
      joinSelectWithColumns d q.model.table q.model.columns join.rightTable join.rightColumns
        join.rightAlias join.kind (q.joinOn join) q.effectiveFilter q.order q.limit q.offset
        q.distinct
  | none =>
      select d q.model q.projection q.effectiveFilter q.order q.limit q.offset q.distinct

variable (assemble : List (Push R) → R) (inner : S → R)

def main (d : Dialect) (q : SelectQuery S) : R := assemble ((q.pushes d).map (Push.map inner))

def cteList (q : SelectQuery S) : List (Cte R) := q.ctes.map (CteQuery.compile assemble inner)

def whole (d : Dialect) (q : SelectQuery S) : R :=
  withCtePrefix assemble (q.cteList assemble inner) (q.main assemble inner d)

-- A join that the dialect does not support is an error.
def toSql (d : Dialect) (q : SelectQuery S) : Option R :=
  if q.joinSupported d then some (q.whole assemble inner d) else none

end SelectQuery

def SetOpQuery.toSql (assemble : List (Push R) → R) (inner : S → R) (d : Dialect)
    (q : SetOpQuery S) : Option R :=
  if q.left.joinSupported d ∧ q.right.joinSupported d ∧
      (d = .mysql → q.op ≠ .intersect ∧ q.op ≠ .except) then
    let ctes := q.left.cteList assemble inner ++ q.right.cteList assemble inner
    let main := assemble (setOp d q.op (q.left.main assemble inner d) (q.right.main assemble inner d))
    some (paged assemble " OFFSET " q.offset
      (paged assemble " LIMIT " q.limit (withCtePrefix assemble ctes main)))
  else none

-- The statements of the builders.
inductive Statement (S : Type)
  | select (q : SelectQuery S)
  | count (q : SelectQuery S)
  | exists_ (q : SelectQuery S)
  | setOp (q : SetOpQuery S)
  | aggregate (q : AggregateQuery S)
  | partitioned (m : Model) (partitionBy : String) (filter : FilterNode S) (order : List OrderBy)
      (take : Nat)
  | insert (m : Model) (values : List (String × Value)) (returning : List String)
  | insertMany (m : Model) (rows : List (List (String × Value))) (returning : List String)
  | upsert (m : Model) (values : List (String × Value)) (conflict updated returning : List String)
  | update (m : Model) (sets : List SetExpr) (filter : FilterNode S) (returning : List String)
  | delete (m : Model) (filter : FilterNode S) (returning : List String)

-- None is the error that a builder returns instead of a statement.
def Statement.toSql (assemble : List (Push R) → R) (inner : S → R) (d : Dialect) :
    Statement S → Option R
  | .select q => q.toSql assemble inner d
  | .count q =>
      if q.joinSupported d then
        some (withCtePrefix assemble (q.cteList assemble inner)
          (assemble ((Runtime.count d q.model.table q.effectiveFilter).map (Push.map inner))))
      else none
  | .exists_ q =>
      if q.joinSupported d then
        some (withCtePrefix assemble (q.cteList assemble inner)
          (assemble ((Runtime.exists_ d q.model.table q.effectiveFilter).map (Push.map inner))))
      else none
  | .setOp q => q.toSql assemble inner d
  | .aggregate q =>
      some (withCtePrefix assemble (q.ctes.map (CteQuery.compile assemble inner))
        (assemble ((aggregateSelect d q.model.table q.aggregates q.filter q.groupBy q.having
          q.order q.limit q.offset).map (Push.map inner))))
  | .partitioned m partitionBy filter order take =>
      some (assemble ((selectPartitioned d m partitionBy filter order take).map (Push.map inner)))
  | .insert m values returning =>
      some (assemble ((Runtime.insert d m.table values returning).map (Push.map inner)))
  | .insertMany m rows returning =>
      some (assemble ((Runtime.insertMany d m.table rows returning).map (Push.map inner)))
  | .upsert m values conflict updated returning =>
      some (assemble ((Runtime.upsert d m.table values conflict updated returning).map
        (Push.map inner)))
  | .update m sets filter returning =>
      some (assemble ((updateWithSets d m.table sets filter returning).map (Push.map inner)))
  | .delete m filter returning =>
      some (assemble ((Runtime.delete d m.table filter returning).map (Push.map inner)))

-- The queries that can stand inside of others, by how deep they are nested.
-- Building a subquery of an unsupported join panics, so there is none.
def Select (d : Dialect) : Nat → Type
  | 0 => Empty
  | n + 1 => {q : SelectQuery (Select d n) // q.joinSupported d = true}

def Select.whole (assemble : List (Push R) → R) {d : Dialect} : (n : Nat) → Select d n → R
  | 0, q => nomatch q
  | n + 1, q => q.val.whole assemble (Select.whole assemble n) d

end Ruprizzle.Runtime
