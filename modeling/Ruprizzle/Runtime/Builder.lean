import Ruprizzle.Runtime.Query

namespace Ruprizzle.Runtime

-- The builders, one call after another. The calls that take an option are the
-- call or none, after and before are a filter, an order and a limit, and include
-- leaves the statement as it is.
inductive SelectCall (S : Type)
  | filter (f : FilterNode S)
  | orFilter (f : FilterNode S)
  | orderBy (order : OrderBy)
  | limit (n : Nat)
  | offset (n : Nat)
  | distinct
  | with_ (cte : CteQuery S)
  | join (kind : JoinKind) (right : Model) (alias_ : Option String) (on : FilterNode S)
  | columns (names : List String)
  | withDeleted
  | onlyDeleted

variable {S : Type}

namespace SelectQuery

def new (m : Model) : SelectQuery S :=
  ⟨m, .and [], [], [], none, none, false, [], none, false, false⟩

def call (q : SelectQuery S) : SelectCall S → SelectQuery S
  | .filter f => { q with filter := Filter.and q.filter f }
  | .orFilter f => { q with filter := Filter.or q.filter f }
  | .orderBy order => { q with order := q.order ++ [order] }
  | .limit n => { q with limit := some n }
  | .offset n => { q with offset := some n }
  | .distinct => { q with distinct := true }
  | .with_ cte => { q with ctes := q.ctes ++ [cte] }
  | .join kind right alias_ on =>
      { q with
        projection := []
        join := some ⟨kind, right.table, right.columns, alias_, on, right.deletedAtColumn⟩ }
  | .columns names => { q with projection := names, join := none }
  | .withDeleted => { q with withDeleted := true, onlyDeleted := false }
  | .onlyDeleted => { q with withDeleted := false, onlyDeleted := true }

def built (m : Model) (calls : List (SelectCall S)) : SelectQuery S := calls.foldl call (new m)

-- The scope is settled here, and the join is left behind.
def aggregate (q : SelectQuery S) (entries : List AggregateEntry) : AggregateQuery S where
  model := q.model
  filter := q.effectiveFilter
  aggregates := entries
  groupBy := []
  having := .and []
  order := q.order
  limit := q.limit
  offset := q.offset
  ctes := q.ctes

end SelectQuery

structure GroupedQuery (S : Type) where
  inner : SelectQuery S
  groupBy : List String
  having : FilterNode S

inductive HavingCall (S : Type)
  | having (f : FilterNode S)
  | orHaving (f : FilterNode S)

def HavingCall.apply (having : FilterNode S) : HavingCall S → FilterNode S
  | .having f => Filter.and having f
  | .orHaving f => Filter.or having f

def SelectQuery.groupBy (q : SelectQuery S) (columns : List String) (calls : List (HavingCall S)) :
    GroupedQuery S :=
  ⟨q, columns, calls.foldl HavingCall.apply (.and [])⟩

-- What is taken over is the filter of the query as it was given.
def GroupedQuery.aggregate (g : GroupedQuery S) (entries : List AggregateEntry) :
    AggregateQuery S where
  model := g.inner.model
  filter := g.inner.filter
  aggregates := entries
  groupBy := g.groupBy
  having := g.having
  order := g.inner.order
  limit := g.inner.limit
  offset := g.inner.offset
  ctes := g.inner.ctes

inductive AggregateCall (S : Type)
  | filter (f : FilterNode S)
  | orFilter (f : FilterNode S)
  | having (call : HavingCall S)
  | orderBy (order : OrderBy)
  | limit (n : Nat)
  | offset (n : Nat)

namespace AggregateQuery

def call (a : AggregateQuery S) : AggregateCall S → AggregateQuery S
  | .filter f => { a with filter := Filter.and a.filter f }
  | .orFilter f => { a with filter := Filter.or a.filter f }
  | .having call => { a with having := call.apply a.having }
  | .orderBy order => { a with order := a.order ++ [order] }
  | .limit n => { a with limit := some n }
  | .offset n => { a with offset := some n }

def calls (a : AggregateQuery S) (calls : List (AggregateCall S)) : AggregateQuery S :=
  calls.foldl call a

end AggregateQuery

-- The ways to end a chain. A side of a set operation is compiled like a query by
-- itself, less its common table expressions.
inductive Terminal (S : Type)
  | fetch
  | count
  | exists_
  | page (size : Nat)
  | leftOf (op : SetOp) (right : SelectQuery S)
  | rightOf (op : SetOp) (left : SelectQuery S)
  | aggregate (entries : List AggregateEntry) (calls : List (AggregateCall S))
  | grouped (columns : List String) (having : List (HavingCall S)) (entries : List AggregateEntry)
      (calls : List (AggregateCall S))

-- One row more than the page has, the primary key being the last to order by.
def SelectQuery.page (q : SelectQuery S) (size : Nat) : SelectQuery S :=
  (q.call (.orderBy ⟨q.model.table, q.model.primaryKey, false, none, false, none⟩)).call
    (.limit (min (size + 1) (2 ^ 64 - 1)))

def Terminal.statement (q : SelectQuery S) : Terminal S → Statement S
  | .fetch => .select q
  | .count => .count q
  | .exists_ => .exists_ q
  | .page size => .select (q.page size)
  | .leftOf op right => .setOp ⟨op, q, right, none, none⟩
  | .rightOf op left => .setOp ⟨op, left, q, none, none⟩
  | .aggregate entries calls => .aggregate ((q.aggregate entries).calls calls)
  | .grouped columns having entries calls =>
      .aggregate (((q.groupBy columns having).aggregate entries).calls calls)

-- The parents of a delete that cascades, by their keys.
def parentCalls (m : Model) (filter : FilterNode S) : List (SelectCall S) :=
  [.filter filter, .columns [m.primaryKey]]

end Ruprizzle.Runtime
