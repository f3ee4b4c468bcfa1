import Ruprizzle.Runtime.Compile

namespace Ruprizzle.Runtime

-- What the code knows of a model at run time.
structure Model where
  table : String
  columns : List String
  primaryKey : String
  deletedAtColumn : Option String
  deriving DecidableEq, Repr

structure OrderBy where
  table : String
  column : String
  desc : Bool
  jsonPath : Option JsonPath
  text : Bool
  spatialDistance : Option String
  deriving DecidableEq, Repr

inductive AggregateKind
  | sum | avg | min | max | count | countDistinct
  deriving DecidableEq, Repr

def AggregateKind.sqlFn : AggregateKind → String
  | sum => "SUM"
  | avg => "AVG"
  | min => "MIN"
  | max => "MAX"
  | count => "COUNT"
  | countDistinct => "COUNT"

structure AggregateEntry where
  kind : AggregateKind
  table : String
  column : String
  alias_ : String
  deriving DecidableEq, Repr

inductive SetExpr
  | column (column : String) (value : Value)
  | jsonSet (column : String) (path : JsonPath) (value : Value)
  deriving Repr

inductive JoinKind
  | inner | left | right | full
  deriving DecidableEq, Repr

def joinKindSql (d : Dialect) : JoinKind → String
  | .inner => "INNER JOIN"
  | .left => "LEFT JOIN"
  | .right => "RIGHT JOIN"
  | .full => if d = .postgres then "FULL OUTER JOIN" else "FULL JOIN"

variable {S : Type}

-- AVG of whole numbers is cast, so that it decodes as a float.
def pushAverage (d : Dialect) (table column : String) : List (Push S) :=
  match d with
  | .postgres => pushColumn table column ++ [Push.str "::double precision"]
  | .mysql => [Push.str "CAST("] ++ pushColumn table column ++ [Push.str " AS DOUBLE)"]
  | .sqlite => [Push.str "CAST("] ++ pushColumn table column ++ [Push.str " AS REAL)"]

def pushAggregate (d : Dialect) (agg : AggregateEntry) : List (Push S) :=
  List.flatten [
    [.str agg.kind.sqlFn, .str "("],
    if agg.kind = .countDistinct then [.str "DISTINCT "] else [],
    if agg.kind = .avg then pushAverage d agg.table agg.column
      else pushColumn agg.table agg.column,
    [.str ")", .str " AS ", .quoted agg.alias_]]

def pushOrderKey (d : Dialect) (o : OrderBy) : List (Push S) :=
  match o.spatialDistance, o.jsonPath with
  | some geometry, _ => [Push.str "ST_Distance("] ++ pushColumn o.table o.column ++
      [Push.str ", ST_GeomFromText(", Push.bind (.str geometry),
        Push.str (if d = .postgres then ", 4326))" else "))")]
  | none, some path => pushJsonExpr d o.table o.column path o.text
  | none, none => pushColumn o.table o.column

def pushOrderItem (d : Dialect) (o : OrderBy) : List (Push S) :=
  pushOrderKey d o ++ [Push.str (if o.desc then " DESC" else " ASC")]

def pushOrder (d : Dialect) (order : List OrderBy) : List (Push S) :=
  separated ", " (order.map (pushOrderItem d))

-- The clauses that a statement may end in, each left out when it says nothing.

def pushWhere (d : Dialect) (clause : String) (filter : FilterNode S) : List (Push S) :=
  if filter.isTrivial then [] else .str clause :: pushFilter d filter

def pushOrderBy (d : Dialect) (order : List OrderBy) : List (Push S) :=
  if order.isEmpty then [] else .str " ORDER BY " :: pushOrder d order

def pushNumber (clause : String) : Option Nat → List (Push S)
  | some n => [.str clause, .str (toString n)]
  | none => []

def pushPage (limit offset : Option Nat) : List (Push S) :=
  pushNumber " LIMIT " limit ++ pushNumber " OFFSET " offset

def pushColumns (table : String) (columns : List String) : List (Push S) :=
  separated ", " (columns.map (pushColumn table))

def pushNames (names : List String) : List (Push S) :=
  separated ", " (names.map fun name => [.quoted name])

-- MySQL has no such clause.
def pushReturning (d : Dialect) (returning : List String) : List (Push S) :=
  if d = .mysql ∨ returning.isEmpty then []
  else .str " RETURNING " :: separated ", " (returning.map fun col =>
    if col = "*" then [.str "*"] else [.quoted col])

def pushSelectKeyword (distinct : Bool) : List (Push S) :=
  .str "SELECT " :: if distinct then [.str "DISTINCT "] else []

def select (d : Dialect) (m : Model) (projection : List String) (filter : FilterNode S)
    (order : List OrderBy) (limit offset : Option Nat) (distinct : Bool) : List (Push S) :=
  let projection := if projection.isEmpty then m.columns else projection
  List.flatten [
    pushSelectKeyword distinct,
    if projection.isEmpty then [.str "*"] else pushColumns m.table projection,
    [.str " FROM ", .quoted m.table],
    pushWhere d " WHERE " filter, pushOrderBy d order, pushPage limit offset]

-- Every column of a table, where the columns are not known.
def pushAllColumns (table : String) (columns : List String) : List (Push S) :=
  if columns.isEmpty then [.quoted table, .str ".*"] else pushColumns table columns

def pushAlias : Option String → List (Push S)
  | some name => [.str " AS ", .quoted name]
  | none => []

def joinSelectWithColumns (d : Dialect) (leftTable : String) (leftColumns : List String)
    (rightTable : String) (rightColumns : List String) (rightAlias : Option String)
    (joinKind : JoinKind) (on filter : FilterNode S) (order : List OrderBy)
    (limit offset : Option Nat) (distinct : Bool) : List (Push S) :=
  let rightQualifier := rightAlias.getD rightTable
  List.flatten [
    pushSelectKeyword distinct, pushAllColumns leftTable leftColumns,
    [.str ", "], pushAllColumns rightQualifier rightColumns,
    [.str " FROM ", .quoted leftTable],
    [.str " ", .str (joinKindSql d joinKind), .str " ", .quoted rightTable],
    pushAlias rightAlias,
    [.str " ON "], pushFilter d on,
    pushWhere d " WHERE " filter, pushOrderBy d order, pushPage limit offset]

def pushGroupBy (table : String) (groupBy : List String) : List (Push S) :=
  if groupBy.isEmpty then [] else .str " GROUP BY " :: pushColumns table groupBy

def aggregateSelect (d : Dialect) (table : String) (aggregates : List AggregateEntry)
    (filter : FilterNode S) (groupBy : List String) (having : FilterNode S)
    (order : List OrderBy) (limit offset : Option Nat) : List (Push S) :=
  List.flatten [
    [.str "SELECT "], separated ", " (aggregates.map (pushAggregate d)),
    [.str " FROM ", .quoted table],
    pushWhere d " WHERE " filter, pushGroupBy table groupBy, pushWhere d " HAVING " having,
    pushOrderBy d order, pushPage limit offset]

def count (d : Dialect) (table : String) (filter : FilterNode S) : List (Push S) :=
  .str "SELECT COUNT(*) FROM " :: .quoted table :: pushWhere d " WHERE " filter

def exists_ (d : Dialect) (table : String) (filter : FilterNode S) : List (Push S) :=
  List.flatten [
    [.str "SELECT 1 FROM ", .quoted table], pushWhere d " WHERE " filter, [.str " LIMIT 1"]]

def rowNumberAlias : String := "__rz_rn"

-- A window without an order is given the primary key's.
def pushWindowOrder (d : Dialect) (m : Model) (order : List OrderBy) : List (Push S) :=
  if order.isEmpty then pushColumn m.table m.primaryKey ++ [Push.str " ASC"] else pushOrder d order

def selectPartitioned (d : Dialect) (m : Model) (partitionBy : String) (filter : FilterNode S)
    (order : List OrderBy) (take : Nat) : List (Push S) :=
  List.flatten [
    [.str "SELECT * FROM (SELECT "], pushAllColumns m.table m.columns,
    [.str ", ROW_NUMBER() OVER (PARTITION BY "], pushColumn m.table partitionBy,
    [.str " ORDER BY "], pushWindowOrder d m order,
    [.str ") AS ", .quoted rowNumberAlias, .str " FROM ", .quoted m.table],
    pushWhere d " WHERE " filter,
    [.str ") AS ", .quoted "__rz_partitioned"],
    [.str " WHERE ", .quoted rowNumberAlias, .str " <= ", .str (toString take)],
    [.str " ORDER BY ", .quoted rowNumberAlias, .str " ASC"]]

def pushInsertInto (table : String) (columns : List String) : List (Push S) :=
  .str "INSERT INTO " :: .quoted table :: .str " (" :: pushNames columns

def pushRow (values : List Value) : List (Push S) := .str "(" :: pushBinds values ++ [Push.str ")"]

def insert (d : Dialect) (table : String) (values : List (String × Value))
    (returning : List String) : List (Push S) :=
  List.flatten [
    pushInsertInto table (values.map Prod.fst),
    [.str ") VALUES "], pushRow (values.map Prod.snd), pushReturning d returning]

def insertMany (d : Dialect) (table : String) (rows : List (List (String × Value)))
    (returning : List String) : List (Push S) :=
  match rows with
  | [] => []
  | first :: _ =>
      List.flatten [
        pushInsertInto table (first.map Prod.fst),
        [.str ") VALUES "], separated ", " (rows.map fun row => pushRow (row.map Prod.snd)),
        pushReturning d returning]

-- The names of the conflict target are written as they are.
def pushOnConflict (excluded : String) (conflict update : List String) : List (Push S) :=
  List.flatten [
    [.str "ON CONFLICT ("], separated ", " (conflict.map fun c => [.str c]),
    if update.isEmpty then [.str ") DO NOTHING"]
    else .str ") DO UPDATE SET " :: separated ", " (update.map fun c =>
      [.quoted c, .str excluded, .quoted c])]

def upsertClause (d : Dialect) (conflict update : List String) : List (Push S) :=
  match d with
  | .postgres => pushOnConflict " = EXCLUDED." conflict update
  | .sqlite => pushOnConflict " = excluded." conflict update
  | .mysql => .str "ON DUPLICATE KEY UPDATE " ::
      if update.isEmpty then
        let first := conflict.head?.getD "1"
        [.quoted first, .str " = ", .quoted first]
      else separated ", " (update.map fun c =>
        [.quoted c, .str " = VALUES(", .quoted c, .str ")"])

def upsert (d : Dialect) (table : String) (values : List (String × Value))
    (conflict update returning : List String) : List (Push S) :=
  List.flatten [
    pushInsertInto table (values.map Prod.fst),
    [.str ") VALUES "], pushRow (values.map Prod.snd),
    [.str " "], upsertClause d conflict update, pushReturning d returning]

def pushSet (d : Dialect) : SetExpr → List (Push S)
  | .column column value => [.quoted column, .str " = ", .bind value]
  | .jsonSet column path value =>
      match d with
      | .postgres => [.quoted column, .str " = jsonb_set(", .quoted column, .str ", ",
          .str (jsonPathArray path), .str "::text[], ", .bind value, .str "::jsonb)"]
      | .sqlite => [.quoted column, .str " = json_set(", .quoted column, .str ", ",
          .str (inQuotes (jsonPathWithKey path none)), .str ", ", .bind value, .str ")"]
      | .mysql => [.quoted column, .str " = JSON_SET(", .quoted column, .str ", ",
          .str (inQuotes (jsonPathWithKey path none)), .str ", ", .bind value, .str ")"]

def updateWithSets (d : Dialect) (table : String) (sets : List SetExpr) (filter : FilterNode S)
    (returning : List String) : List (Push S) :=
  List.flatten [
    [.str "UPDATE ", .quoted table, .str " SET "], separated ", " (sets.map (pushSet d)),
    pushWhere d " WHERE " filter, pushReturning d returning]

def delete (d : Dialect) (table : String) (filter : FilterNode S) (returning : List String) :
    List (Push S) :=
  List.flatten [
    [.str "DELETE FROM ", .quoted table],
    pushWhere d " WHERE " filter, pushReturning d returning]

end Ruprizzle.Runtime
