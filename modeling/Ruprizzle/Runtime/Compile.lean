import Ruprizzle.Runtime.Filter

namespace Ruprizzle.Runtime

-- A compile function is what it pushes, in order: text, a quoted identifier, a
-- bound value, a subquery, a statement put in with its placeholders renumbered.
-- Compiler.push carries a push out.
inductive Push (S : Type)
  | str (s : String)
  | quoted (name : String)
  | bind (value : Value)
  | subquery (s : S)
  | renumbered (s : S)

variable {S : Type}

def separated (sep : String) : List (List (Push S)) → List (Push S)
  | [] => []
  | [item] => item
  | item :: rest => item ++ .str sep :: separated sep rest

def pushColumn (table column : String) : List (Push S) := [.quoted table, .str ".", .quoted column]

def pushBinds (values : List Value) : List (Push S) :=
  separated ", " (values.map fun v => [.bind v])

def CmpOp.sql : CmpOp → String
  | eq => "="
  | ne => "!="
  | gt => ">"
  | gte => ">="
  | lt => "<"
  | lte => "<="
  | like => "LIKE"
  | ilike => "ILIKE"

-- A text between the single quotes that the code pushes around it.
def inQuotes (s : String) : String := "'" ++ s ++ "'"

def isKeyStart (c : Char) : Bool := c.isAlpha || c = '_'

def isKeyChar (c : Char) : Bool := c.isAlphanum || c = '_'

-- Backslashes and double quotes are escaped inside a quoted key.
def escapedKey (k : String) : String :=
  String.ofList ('"' :: (k.toList.flatMap fun c => if c = '\\' ∨ c = '"' then ['\\', c] else [c]) ++
    ['"'])

def jsonPathKey (k : String) : String :=
  if k.isEmpty || !(k.toList.head?.any isKeyStart) || !k.toList.all isKeyChar then escapedKey k
  else k

def JsonPathSegment.dotted : JsonPathSegment → String
  | key k => "." ++ jsonPathKey k
  | index n => "[" ++ toString n ++ "]"

-- The dot and bracket notation of SQLite and MySQL, with an optional extra key.
def jsonPathWithKey (path : JsonPath) (extra : Option String) : String :=
  "$" ++ "".intercalate (path.map JsonPathSegment.dotted) ++
    match extra with
    | some k => "." ++ jsonPathKey k
    | none => ""

def JsonPathSegment.element : JsonPathSegment → String
  | key k => escapedKey k
  | index n => toString n

def jsonPathArray (path : JsonPath) : String :=
  inQuotes ("\x7b" ++ ",".intercalate (path.map JsonPathSegment.element) ++ "\x7d")

def jsonStringLiteral (s : String) : String := String.ofList (Text.doubled '\x27' s.toList)

-- SQLite extracts a scalar as its own storage class and MySQL compares a
-- string without its quotes, so the bind is unwrapped.
def jsonCmpValue (d : Dialect) (text : Bool) (value : Value) : Value :=
  if text ∨ d = .postgres then value
  else match value with
    | .json v =>
        let number (n : JsonNumber) : Value :=
          match n.asI64, n.asF64 with
          | some i, _ => .i64 i
          | none, some x => .f64 x
          | none, none => .json v
        match d, v with
        | .sqlite, .null => .null
        | .sqlite, .bool b => .bool b
        | .sqlite, .number n => number n
        | .sqlite, .string s => .str s
        | .mysql, .string s => .str s
        | .mysql, .number n => number n
        | _, _ => value
    | _ => value

def pushJsonExprPostgres (table column : String) (path : JsonPath) (text : Bool) :
    List (Push S) :=
  pushColumn table column ++
    match path with
    | [] => []
    | [.key k] => [.str (if text then "->>" else "->"), .str (inQuotes (jsonStringLiteral k))]
    | [.index i] => [.str (if text then "->>" else "->"), .str (toString i)]
    | path => [.str (if text then "#>>" else "#>"), .str (jsonPathArray path)]

def pushJsonExprSqlite (table column : String) (path : JsonPath) (text : Bool) : List (Push S) :=
  if path.isEmpty then pushColumn table column
  else if text then
    pushColumn table column ++ [Push.str "->>", Push.str (inQuotes (jsonPathWithKey path none))]
  else
    .str "json_extract(" :: pushColumn table column ++
      [Push.str ", ", Push.str (inQuotes (jsonPathWithKey path none)), Push.str ")"]

def pushJsonExprMysql (table column : String) (path : JsonPath) (text : Bool) : List (Push S) :=
  if path.isEmpty then pushColumn table column
  else
    .str (if text then "JSON_UNQUOTE(JSON_EXTRACT(" else "JSON_EXTRACT(") ::
      pushColumn table column ++
      [Push.str ", ", Push.str (inQuotes (jsonPathWithKey path none)), Push.str (if text then "))" else ")")]

def pushJsonExpr (d : Dialect) (table column : String) (path : JsonPath) (text : Bool) :
    List (Push S) :=
  match d with
  | .sqlite => pushJsonExprSqlite table column path text
  | .mysql => pushJsonExprMysql table column path text
  | .postgres => pushJsonExprPostgres table column path text

def pushJsonType (table column : String) (path : JsonPath) (extra : Option String) :
    List (Push S) :=
  .str "json_type(" :: pushColumn table column ++
    [Push.str ", ", Push.str (inQuotes (jsonPathWithKey path extra)), Push.str ") IS NOT NULL"]

def pushJsonContains (d : Dialect) (table column : String) (path : JsonPath) (value : Value) :
    List (Push S) :=
  match d with
  | .postgres => pushJsonExpr d table column path false ++
      [Push.str " @> ", Push.bind value, Push.str "::jsonb"]
  | .mysql => .str "JSON_CONTAINS(" :: pushColumn table column ++
      [Push.str ", ", Push.bind value, Push.str ", ", Push.str (inQuotes (jsonPathWithKey path none)), Push.str ")"]
  -- No containment on SQLite: an object asks for its top-level keys.
  | .sqlite =>
      match value with
      | .json (.object (member :: members)) =>
          .str "(" :: separated " AND " ((member :: members).map fun (k, _) =>
            pushJsonType table column path (some k)) ++ [Push.str ")"]
      | _ => pushJsonType table column path none

def keyOf : Value → Option String
  | .str k => some k
  | _ => none

def pushJsonHasKey (d : Dialect) (table column : String) (path : JsonPath) (value : Value) :
    List (Push S) :=
  match d with
  -- The path is left out here: only a top-level key is asked for.
  | .postgres => pushJsonExpr d table column [] false ++ [Push.str " ? ", Push.bind value]
  | .mysql => .str "JSON_CONTAINS_PATH(" :: pushColumn table column ++
      [Push.str ", 'one', ", Push.str (inQuotes (jsonPathWithKey path (keyOf value))), Push.str ")"]
  | .sqlite => pushJsonType table column path (keyOf value)

def pushJsonArray (values : List Value) : List (Push S) :=
  .str "JSON_ARRAY(" :: pushBinds values ++ [Push.str ")"]

def pushArrayOpPostgres (table column : String) (op : ArrayFilterOp) (values : List Value) :
    List (Push S) :=
  match op with
  | .has => .bind (values.head?.getD .null) :: .str " = ANY(" :: pushColumn table column ++ [Push.str ")"]
  | .contains => pushColumn table column ++ [Push.str " @> ", Push.bind (.array values)]
  | .containedBy => pushColumn table column ++ [Push.str " <@ ", Push.bind (.array values)]
  | .overlaps => pushColumn table column ++ [Push.str " && ", Push.bind (.array values)]
  | .isEmpty => .str "(cardinality(" :: pushColumn table column ++
      .str ") IS NULL OR cardinality(" :: pushColumn table column ++ [Push.str ") = 0)"]
  | .isNotEmpty => .str "cardinality(" :: pushColumn table column ++ [Push.str ") > 0"]

def pushArrayOpMysql (table column : String) (op : ArrayFilterOp) (values : List Value) :
    List (Push S) :=
  match op with
  | .has => .str "JSON_CONTAINS(" :: pushColumn table column ++ .str ", " ::
      (match values with
        | value :: _ => pushJsonArray [value]
        | [] => [.str "JSON_ARRAY()"]) ++ [Push.str ", '$')"]
  | .contains => .str "JSON_CONTAINS(" :: pushColumn table column ++ .str ", " ::
      pushJsonArray values ++ [Push.str ", '$')"]
  | .containedBy => .str "JSON_CONTAINS(" :: pushJsonArray values ++ .str ", " ::
      pushColumn table column ++ [Push.str ", '$')"]
  | .overlaps => .str "JSON_OVERLAPS(" :: pushColumn table column ++ .str ", " ::
      pushJsonArray values ++ [Push.str ")"]
  | .isEmpty => .str "(JSON_LENGTH(" :: pushColumn table column ++
      .str ") IS NULL OR JSON_LENGTH(" :: pushColumn table column ++ [Push.str ") = 0)"]
  | .isNotEmpty => .str "JSON_LENGTH(" :: pushColumn table column ++ [Push.str ") > 0"]

-- A question to the elements of a JSON array column.
def pushJsonEach (table column test : String) (tail : List (Push S)) : List (Push S) :=
  .str "EXISTS (SELECT 1 FROM json_each(" :: pushColumn table column ++
    .str (") WHERE json_each.value " ++ test) :: tail

def pushArrayOpSqlite (table column : String) (op : ArrayFilterOp) (values : List Value) :
    List (Push S) :=
  match op with
  | .has => pushJsonEach table column "= " [.bind (values.head?.getD .null), .str ")"]
  | .contains =>
      if values.isEmpty then [.str "1"]
      else separated " AND " (values.map fun value =>
        pushJsonEach table column "= " [.bind value, .str ")"])
  | .containedBy =>
      if values.isEmpty then
        .str "(json_array_length(" :: pushColumn table column ++ [Push.str ") = 0)"]
      else .str "NOT " :: pushJsonEach table column "NOT IN (" (pushBinds values ++ [Push.str "))"])
  | .overlaps =>
      if values.isEmpty then [.str "0"]
      else pushJsonEach table column "IN (" (pushBinds values ++ [Push.str "))"])
  | .isEmpty => .str "(json_array_length(" :: pushColumn table column ++
      .str ") IS NULL OR json_array_length(" :: pushColumn table column ++ [Push.str ") = 0)"]
  | .isNotEmpty => .str "json_array_length(" :: pushColumn table column ++ [Push.str ") > 0"]

def pushArrayOp (d : Dialect) (table column : String) (op : ArrayFilterOp) (values : List Value) :
    List (Push S) :=
  match d with
  | .postgres => pushArrayOpPostgres table column op values
  | .mysql => pushArrayOpMysql table column op values
  | .sqlite => pushArrayOpSqlite table column op values

def pushFullTextMatch (d : Dialect) (table column query : String) : List (Push S) :=
  match d with
  | .postgres => .str "to_tsvector('english', " :: pushColumn table column ++
      [Push.str ") @@ plainto_tsquery('english', ", Push.bind (.str query), Push.str ")"]
  | .mysql => .str "MATCH(" :: pushColumn table column ++
      [Push.str ") AGAINST(", Push.bind (.str query), Push.str " IN NATURAL LANGUAGE MODE)"]
  | .sqlite => pushColumn table column ++ [Push.str " MATCH ", Push.bind (.str query)]

-- A spatial function over a column and a geometry.
def pushSpatialCall (d : Dialect) (function table column geometry : String) : List (Push S) :=
  .str (function ++ "(") :: pushColumn table column ++
    [Push.str ", ST_GeomFromText(", Push.bind (.str geometry),
      Push.str (if d = .postgres then ", 4326)" else ")")]

def pushSpatialOp (d : Dialect) (table column : String) (op : SpatialOp) (geometry : String)
    (distance : Option F64) : List (Push S) :=
  match op, d with
  | .withinRadius, .postgres => pushSpatialCall d "ST_DWithin" table column geometry ++
      [Push.str ", ", Push.bind (.f64 (distance.getD F64.zero)), Push.str ")"]
  | .withinRadius, _ => pushSpatialCall d "ST_Distance" table column geometry ++
      [Push.str ") <= ", Push.bind (.f64 (distance.getD F64.zero))]
  | .intersects, _ => pushSpatialCall d "ST_Intersects" table column geometry ++ [Push.str ")"]
  | .contains, _ => pushSpatialCall d "ST_Contains" table column geometry ++ [Push.str ")"]
  | .within, _ => pushSpatialCall d "ST_Within" table column geometry ++ [Push.str ")"]

-- The parts of a fragment with a bind after each that has one.
def pushRaw : List String → List Value → List (Push S)
  | [], _ => []
  | part :: parts, [] => .str part :: pushRaw parts []
  | part :: parts, value :: values => .str part :: .bind value :: pushRaw parts values

mutual

def pushFilter (d : Dialect) : FilterNode S → List (Push S)
  | .cmp table column op value => pushColumn table column ++ [Push.str " ", Push.str op.sql, Push.str " ",
      if value.isNull ∧ op = .eq then .str "IS NULL"
      else if value.isNull ∧ op = .ne then .str "IS NOT NULL"
      else .bind value]
  | .between table column lo hi =>
      pushColumn table column ++ [Push.str " BETWEEN ", Push.bind lo, Push.str " AND ", Push.bind hi]
  | .null table column negated =>
      pushColumn table column ++ [Push.str (if negated then " IS NOT NULL" else " IS NULL")]
  | .in_ table column values negated =>
      pushColumn table column ++ .str (if negated then " NOT IN (" else " IN (") ::
        pushBinds values ++ [Push.str ")"]
  | .inSubquery table column subquery negated =>
      pushColumn table column ++ [Push.str (if negated then " NOT IN (" else " IN ("),
        Push.subquery subquery, Push.str ")"]
  | .columnCmp leftTable leftCol op rightTable rightCol =>
      pushColumn leftTable leftCol ++ [Push.str " ", Push.str op.sql, Push.str " "] ++
        pushColumn rightTable rightCol
  | .and [] => [.str "TRUE"]
  | .and [node] => pushFilter d node
  | .and nodes => .str "(" :: pushFilters d " AND " nodes ++ [Push.str ")"]
  | .or [] => [.str "FALSE"]
  | .or [node] => pushFilter d node
  | .or nodes => .str "(" :: pushFilters d " OR " nodes ++ [Push.str ")"]
  | .not node => .str "NOT (" :: pushFilter d node ++ [Push.str ")"]
  | .exists_ childTable childCol parentTable parentCol filter negated =>
      .str (if negated then "NOT EXISTS (SELECT 1 FROM " else "EXISTS (SELECT 1 FROM ") ::
        .quoted childTable :: .str " WHERE " :: pushColumn childTable childCol ++ .str " = " ::
        pushColumn parentTable parentCol ++
        (if filter.isTrivial then [] else .str " AND " :: pushFilter d filter) ++ [Push.str ")"]
  | .existsSubquery subquery negated =>
      [.str (if negated then "NOT EXISTS (" else "EXISTS ("), .subquery subquery, .str ")"]
  | .raw fragment => pushRaw fragment.parts fragment.binds
  | .json table column path text (.cmp op) value =>
      pushJsonExpr d table column path text ++ [Push.str " ", Push.str op.sql, Push.str " ",
        Push.bind (jsonCmpValue d text value)]
  | .json table column path _ .contains value => pushJsonContains d table column path value
  | .json table column path _ .hasKey value => pushJsonHasKey d table column path value
  | .array table column op values => pushArrayOp d table column op values
  | .fullTextMatch table column query => pushFullTextMatch d table column query
  | .spatial table column op geometry distance =>
      pushSpatialOp d table column op geometry distance

def pushFilters (d : Dialect) (sep : String) : List (FilterNode S) → List (Push S)
  | [] => []
  | [node] => pushFilter d node
  | node :: rest => pushFilter d node ++ .str sep :: pushFilters d sep rest

end

end Ruprizzle.Runtime
