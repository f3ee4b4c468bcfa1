import Ruprizzle.Data.F64
import Ruprizzle.Dialect.Sql

namespace Ruprizzle.Runtime

-- A number of a document, by what the two accessors the code asks it for say.
structure JsonNumber where
  asI64 : Option Int
  asF64 : Option F64
  deriving DecidableEq, Repr

inductive Json
  | null
  | bool (b : Bool)
  | number (n : JsonNumber)
  | string (s : String)
  | array (items : List Json)
  | object (members : List (String × Json))
  deriving Repr

-- An owned value bound to a statement. The types of other crates are kept as
-- the texts they stand for, which no function here reads.
inductive Value
  | null
  | bool (b : Bool)
  | i32 (i : Int)
  | i64 (i : Int)
  | f64 (x : F64)
  | decimal (text : String)
  | str (s : String)
  | uuid (text : String)
  | dateTime (text : String)
  | date (text : String)
  | time (text : String)
  | json (v : Json)
  | bytes (b : List UInt8)
  | array (values : List Value)
  deriving Repr

def Value.isNull : Value → Bool
  | null => true
  | _ => false

inductive JsonPathSegment
  | key (k : String)
  | index (i : Nat)
  deriving DecidableEq, Repr

abbrev JsonPath := List JsonPathSegment

inductive CmpOp
  | eq | ne | gt | gte | lt | lte | like | ilike
  deriving DecidableEq, Repr

inductive JsonFilterOp
  | cmp (op : CmpOp)
  | contains
  | hasKey
  deriving DecidableEq, Repr

inductive ArrayFilterOp
  | has | contains | containedBy | overlaps | isEmpty | isNotEmpty
  deriving DecidableEq, Repr

inductive SpatialOp
  | withinRadius | intersects | contains | within
  deriving DecidableEq, Repr

-- The parts of a raw fragment split it around its placeholders, which the
-- constructor of the source asserts.
structure RawFragment where
  parts : List String
  binds : List Value
  split : parts.length = binds.length + 1

-- S is what a subquery is: a compiled statement for the compiler, a query as
-- built for what is said about all of them.
inductive FilterNode (S : Type)
  | cmp (table column : String) (op : CmpOp) (value : Value)
  | between (table column : String) (lo hi : Value)
  | null (table column : String) (negated : Bool)
  | in_ (table column : String) (values : List Value) (negated : Bool)
  | inSubquery (table column : String) (subquery : S) (negated : Bool)
  | columnCmp (leftTable leftCol : String) (op : CmpOp) (rightTable rightCol : String)
  | exists_ (childTable childCol parentTable parentCol : String) (filter : FilterNode S)
      (negated : Bool)
  | existsSubquery (subquery : S) (negated : Bool)
  | and (nodes : List (FilterNode S))
  | or (nodes : List (FilterNode S))
  | not (node : FilterNode S)
  | raw (fragment : RawFragment)
  | json (table column : String) (path : JsonPath) (text : Bool) (op : JsonFilterOp) (value : Value)
  | array (table column : String) (op : ArrayFilterOp) (values : List Value)
  | fullTextMatch (table column : String) (query : String)
  | spatial (table column : String) (op : SpatialOp) (geometry : String) (distance : Option F64)

namespace FilterNode

variable {S : Type}

-- The empty conjunction, which every statement leaves out.
def isTrivial : FilterNode S → Bool
  | and [] => true
  | _ => false

theorem eq_and_nil {f : FilterNode S} (h : f.isTrivial = true) : f = .and [] := by
  cases f with
  | and nodes =>
      cases nodes with
      | nil => rfl
      | cons node rest => simp [isTrivial] at h
  | _ => simp [isTrivial] at h

def flattenAnd (nodes : List (FilterNode S)) : FilterNode S :=
  .and (nodes.flatMap fun
    | .and children => children
    | other => [other])

def flattenOr (nodes : List (FilterNode S)) : FilterNode S :=
  .or (nodes.flatMap fun
    | .or children => children
    | other => [other])

end FilterNode

-- The builder's combinators. The empty cases of flattenAnd and flattenOr are
-- what they return there.
namespace Filter

variable {S : Type}

def and (f g : FilterNode S) : FilterNode S := FilterNode.flattenAnd [f, g]

def or (f g : FilterNode S) : FilterNode S := FilterNode.flattenOr [f, g]

def not (f : FilterNode S) : FilterNode S := .not f

def all (filters : List (FilterNode S)) : FilterNode S := FilterNode.flattenAnd filters

def any (filters : List (FilterNode S)) : FilterNode S := FilterNode.flattenOr filters

end Filter

end Ruprizzle.Runtime
