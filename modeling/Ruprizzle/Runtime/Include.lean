import Ruprizzle.Data.Batches
import Ruprizzle.Runtime.Binds
import Ruprizzle.Runtime.Counting
import Ruprizzle.Runtime.Inserts
import Ruprizzle.Runtime.Scope

namespace Ruprizzle.Runtime

open Batches

-- Relations of rows that are fetched already: further queries for all of them
-- together, whose rows are handed out by their keys. Rows stand for the values
-- they are decoded to; what is included in these in turn leaves them in place.

-- Room is left for what the filter binds.
def chunkSize (d : Dialect) : Nat := max (maxQueryParams d - 10) 1

-- A window is ordered by the primary key where nothing else is asked for.
def windowOrder (m : Model) (order : List OrderBy) : List OrderBy :=
  if order.isEmpty then [⟨m.table, m.primaryKey, false, none, false, none⟩] else order

-- A database, how many values a subquery binds, and when one row may stand
-- before another one in an answer.
structure Answers (S : Type) where
  engine : Engine
  db : Database
  d : Dialect
  reading : S → List Word
  size : S → Nat
  before : List OrderBy → Row → Row → Prop
  unordered : ∀ a b, before [] a b
  reflexive : ∀ order a, before order a a
  sortable : ∀ order rows, ∃ sorted : List Row, sorted.Perm rows ∧ sorted.Pairwise (before order)

variable {S M Key CKey : Type}

namespace Answers

variable (answers : Answers S)

-- The rows of a query without a limit, in the order asked for. A statement that
-- binds too many values is an error.
def Returns (q : SelectQuery S) (rows : List Row) : Prop :=
  binds answers.size (q.pushes answers.d) ≤ maxQueryParams answers.d ∧
    (alone rows).Perm (q.rows answers.engine answers.db answers.d answers.reading) ∧
    rows.Pairwise (answers.before q.order)

def taken (limit : Option Nat) (rows : List Row) : List Row :=
  match limit with
  | some n => rows.take n
  | none => rows

-- The rows of a statement of selectPartitioned: of each partition the first ones,
-- in an order that the window asks for. Every dialect has windows.
def Partitions [DecidableEq Key] (m : Model) (column : String) (key : Row → Key)
    (filter : FilterNode S) (order : List OrderBy) (n : Nat) (rows : List Row) : Prop :=
  binds answers.size (selectPartitioned answers.d m column filter order n)
      ≤ maxQueryParams answers.d ∧
    ∀ k, ∃ sorted : List Row,
      sorted.Perm ((tableRows answers.engine answers.db answers.d answers.reading m filter).filter
        fun row => key row = k) ∧
      sorted.Pairwise (answers.before (windowOrder m order)) ∧
      rows.filter (fun row => key row = k) = sorted.take n

end Answers

-- What IncludeList and IncludeOne are made of. The key of a parent is compared
-- with a column of the child.
structure Include (S M Key : Type) where
  getKey : M → Key
  child : Model
  childColumn : String
  childKey : Row → Key
  toValue : Key → Value
  filter : FilterNode S
  order : List OrderBy
  limit : Option Nat

-- The filters of a query in chunks.
def inSet (m : Model) (column : String) (toValue : Key → Value) (keys : List Key) : FilterNode S :=
  .in_ m.table column (keys.map toValue) false

def liveRows (m : Model) : FilterNode S :=
  match m.deletedAtColumn with
  | some column => .null m.table column false
  | none => .and []

def chunkCalls (m : Model) (column : String) (toValue : Key → Value) (filter : FilterNode S)
    (order : List OrderBy) (keys : List Key) : List (SelectCall S) :=
  .filter (inSet m column toValue keys) ::
    (if filter.isTrivial then [] else [.filter filter]) ++ order.map .orderBy

section

variable (answers : Answers S) [DecidableEq Key] [DecidableEq CKey]

namespace Include

variable (inc : Include S M Key)

-- The whole child table instead of a list of keys.
def fast (fullTable : Bool) (fullTableLimit : Int) : Bool :=
  fullTable && decide (0 < fullTableLimit) && inc.filter.isTrivial && inc.order.isEmpty &&
    inc.limit.isNone &&
    decide (((SelectQuery.new inc.child : SelectQuery S).counted answers.engine answers.db answers.d
      answers.reading : Int) ≤ fullTableLimit)

def combined (keys : List Key) : FilterNode S :=
  Filter.and (Filter.and inc.filter (liveRows inc.child))
    (inSet inc.child inc.childColumn inc.toValue keys)

-- What is fetched for one chunk of keys.
def Fetches (keys : List Key) (rows : List Row) : Prop :=
  match inc.limit with
  | some n => answers.Partitions inc.child inc.childColumn inc.childKey (inc.combined keys)
      inc.order n rows
  | none => answers.Returns (SelectQuery.built inc.child
      (chunkCalls inc.child inc.childColumn inc.toValue inc.filter inc.order keys)) rows

def FetchChildren (fullTable : Bool) (fullTableLimit : Int) (keys : List Key)
    (children : List Row) : Prop :=
  if inc.fast answers fullTable fullTableLimit then
    answers.Returns (SelectQuery.new inc.child) children
  else
    ∃ batches, List.Forall₂ (inc.Fetches answers) (chunks (chunkSize answers.d) (dedup keys)) batches ∧
      children = batches.flatten

-- What load sets on each parent of a list relation, in the order of the parents.
def LoadsList (fullTable : Bool) (fullTableLimit : Int) (parents : List M)
    (buckets : List (List Row)) : Prop :=
  ∃ children, inc.FetchChildren answers fullTable fullTableLimit (parents.map inc.getKey) children ∧
    buckets = distribute (positions inc.getKey parents) inc.childKey parents.length children

-- The first child of a key is kept in the map.
def LoadsOne (fullTable : Bool) (fullTableLimit : Int) (parents : List M)
    (children' : List (Option Row)) : Prop :=
  ∃ children, inc.FetchChildren answers fullTable fullTableLimit (parents.map inc.getKey) children ∧
    children' = parents.map fun p => children.find? fun row => inc.childKey row = inc.getKey p

end Include

-- A relation through a join model.
structure IncludeMany (S M Key CKey : Type) where
  getKey : M → Key
  join : Model
  joinOwner : Row → Key
  joinTarget : Row → CKey
  joinOwnerCol : String
  joinTargetCol : String
  child : Model
  childKey : Row → CKey
  targetPk : String
  toValue : Key → Value
  targetValue : CKey → Value
  filter : FilterNode S
  order : List OrderBy
  limit : Option Nat

namespace IncludeMany

variable (inc : IncludeMany S M Key CKey)

def joinOrder : List OrderBy :=
  [⟨inc.join.table, inc.joinOwnerCol, false, none, false, none⟩,
    ⟨inc.join.table, inc.joinTargetCol, false, none, false, none⟩]

def FetchesJoins (keys : List Key) (rows : List Row) : Prop :=
  answers.Returns (SelectQuery.built inc.join
    (.filter (inSet inc.join inc.joinOwnerCol inc.toValue keys) :: inc.joinOrder.map .orderBy)) rows

def FetchesTargets (keys : List CKey) (rows : List Row) : Prop :=
  answers.Returns (SelectQuery.built inc.child
    (chunkCalls inc.child inc.targetPk inc.targetValue inc.filter inc.order keys)) rows

-- The parents that a target is linked to, once for each link.
def childToParents (parents : List M) (joinRows : List Row) (target : CKey) : List Nat :=
  (joinRows.filter fun j => inc.joinTarget j = target).flatMap fun j =>
    positions inc.getKey parents (inc.joinOwner j)

def Loads (parents : List M) (buckets : List (List Row)) : Prop :=
  ∃ joinBatches,
    List.Forall₂ (inc.FetchesJoins answers)
      (chunks (chunkSize answers.d) (dedup (parents.map inc.getKey))) joinBatches ∧
  let joinRows := joinBatches.flatten
  ∃ batches,
    List.Forall₂ (inc.FetchesTargets answers)
      (chunks (chunkSize answers.d) (dedup (joinRows.map inc.joinTarget))) batches ∧
    buckets = (distribute (inc.childToParents parents joinRows) inc.childKey parents.length
      batches.flatten).map (Answers.taken inc.limit)

end IncludeMany

end

end Ruprizzle.Runtime
