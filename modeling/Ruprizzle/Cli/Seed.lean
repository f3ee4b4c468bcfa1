import Mathlib.Data.List.Sort
import Ruprizzle.Runtime.Cascades
import Ruprizzle.Runtime.Compiler
import Ruprizzle.Runtime.Decoding

namespace Ruprizzle.Seed

open Runtime hiding Model

-- The members of an object as they are written, with names that may be repeated.
abbrev Object := List (String × Json)

-- serde_json::Map: of the members with one name the last one is kept, and the names are
-- walked through in their order.
def get (members : Object) (name : String) : Option Json :=
  (members.reverse.find? fun e => e.1 = name).map Prod.snd

def keys (members : Object) : List String :=
  (members.map Prod.fst).insertionSort fun a b => a ≤ b

def named (model : Model) (name : String) : Bool := model.name.str = name || model.table = name

def fieldNamed (field : Field) (name : String) : Bool :=
  field.name.str = name || field.column = name

def findRows (root : Object) (model : Model) : Option Json :=
  (get root model.name.str).or (get root model.table)

-- What other crates make of a text.
structure Readers where
  decimal : String → Except String String
  dateTime : String → Except String String
  date : String → Except String String
  time : String → Except String String
  uuid : String → Except String String

def jsonString : Json → Except String String
  | .string s => .ok s
  | _ => .error "seed value must be a string"

def jsonBool (field : Field) : Json → Except String Bool
  | .bool b => .ok b
  | _ => .error ("seed value for `" ++ field.name.str ++ "` must be boolean")

def jsonI64 (field : Field) (value : Json) : Except String Int :=
  let refused := .error ("seed value for `" ++ field.name.str ++ "` must be an integer")
  match value with
  | .number n => n.asI64.elim refused .ok
  | _ => refused

def jsonF64 (field : Field) (value : Json) : Except String F64 :=
  let refused := .error ("seed value for `" ++ field.name.str ++ "` must be a number")
  match value with
  | .number n => n.asF64.elim refused .ok
  | _ => refused

def jsonToValue (readers : Readers) (value : Json) (field : Field) : Except String Value :=
  match value with
  | .null => .ok .null
  | _ =>
    let scalar := match field.kind with
      | .scalar scalar => scalar
      | .enum _ | .relation _ | .list _ => .string
    match scalar with
    | .string => (jsonString value).map .str
    | .boolean => (jsonBool field value).map .bool
    | .int => ((jsonI64 field value).bind Numeric.tryIntoI32).map .i32
    | .bigInt => (jsonI64 field value).map .i64
    | .float => (jsonF64 field value).map .f64
    | .decimal => ((jsonString value).bind readers.decimal).map .decimal
    | .dateTime => ((jsonString value).bind readers.dateTime).map .dateTime
    | .date => ((jsonString value).bind readers.date).map .date
    | .time => ((jsonString value).bind readers.time).map .time
    | .uuid => ((jsonString value).bind readers.uuid).map .uuid
    | .json => .ok (.json value)
    | .bytes => (jsonString value).map fun s => .bytes (s.toList.flatMap String.utf8EncodeChar)
    | .point | .polygon | .multiPolygon | .lineString => (jsonString value).map .str

-- An insert that updates the row it conflicts with.
structure Upsert where
  table : String
  values : List (String × Value)
  primaryKey : List String
  update : List String

namespace Upsert

def assignments (d : Dialect) (columns : List String) (value : String → String) : String :=
  ", ".intercalate (columns.map fun column =>
    d.quoteIdent column ++ " = " ++ value (d.quoteIdent column))

def mysqlUpsertClause (u : Upsert) : String :=
  if u.update.isEmpty then
    let column := Dialect.mysql.quoteIdent (u.primaryKey.headD "id")
    "ON DUPLICATE KEY UPDATE " ++ column ++ " = " ++ column
  else "ON DUPLICATE KEY UPDATE " ++
    assignments .mysql u.update fun quoted => "VALUES(" ++ quoted ++ ")"

def clause (d : Dialect) (u : Upsert) : String :=
  let conflict := ", ".intercalate (u.primaryKey.map d.quoteIdent)
  if d = .mysql then u.mysqlUpsertClause
  else if u.update.isEmpty then "ON CONFLICT (" ++ conflict ++ ") DO NOTHING"
  else "ON CONFLICT (" ++ conflict ++ ") DO UPDATE SET " ++
    assignments d u.update fun quoted => "excluded." ++ quoted

def sql (d : Dialect) (u : Upsert) : String :=
  let placeholders := (List.range u.values.length).map fun index =>
    String.ofList (placeholder d index)
  "INSERT INTO " ++ d.quoteIdent u.table ++ " (" ++
    ", ".intercalate (u.values.map fun e => d.quoteIdent e.1) ++ ") VALUES (" ++
    ", ".intercalate placeholders ++ ") " ++ u.clause d

example : sql .postgres ⟨"users", [("id", .i32 1), ("name", .str "Ada")], ["id"], ["name"]⟩ =
    "INSERT INTO \"users\" (\"id\", \"name\") VALUES ($1, $2) " ++
      "ON CONFLICT (\"id\") DO UPDATE SET \"name\" = excluded.\"name\"" := by decide +kernel

end Upsert

-- What a row object has for a field.
def listed (row : Object) (field : Field) : Option Json :=
  (get row field.name.str).or (get row field.column)

def fieldValues (readers : Readers) (row : Object) :
    List Field → Except String (List (String × Value))
  | [] => .ok []
  | field :: rest =>
      match listed row field with
      | none => fieldValues readers row rest
      | some value =>
          (jsonToValue readers value field).bind fun v =>
            (fieldValues readers row rest).map fun more => (field.column, v) :: more

def primaryKeyColumns (model : Model) : Except String (List String) :=
  model.primaryKey.fields.mapM fun name =>
    match model.fields.get? name with
    | some field => .ok field.column
    | none => .error ("primary-key field `" ++ name.str ++ "` is missing from `" ++
        model.name.str ++ "`")

def compileRow (readers : Readers) (model : Model) (row : Object) : Except String Upsert :=
  match (keys row).find? fun key => !model.fields.values.any (fieldNamed · key) with
  | some key => .error ("seed column `" ++ key ++ "` does not exist on `" ++ model.name.str ++ "`")
  | none =>
    (fieldValues readers row model.scalarFields).bind fun values =>
      if values.isEmpty then
        .error ("seed row for `" ++ model.name.str ++ "` has no known columns")
      else
        (primaryKeyColumns model).bind fun primaryKey =>
          match primaryKey.find? fun key => key ∉ values.map Prod.fst with
          | some key => .error ("seed row for `" ++ model.name.str ++
              "` must include primary key `" ++ key ++ "`")
          | none => .ok
              { table := model.table
                values
                primaryKey
                update := (values.map Prod.fst).filter (· ∉ primaryKey) }

-- What a database does with an upsert. It may refuse what is to be stored in a column, a
-- row, or a state that a statement leads to, and its foreign keys may answer a change; a
-- conflict is one in the columns of a unique index. Which of several rows an upsert takes
-- is up to it.
structure Server where
  d : Dialect
  begins : Option String
  commits : Database → Option String
  stores : String → String → Value → Except String Value
  generates : String → String → Value → Bool
  fill : Database → String → (String → Option Value) → Except String Row
  fills : ∀ db t given new, fill db t given = .ok new →
    ∀ c v, given c = some v → generates t c v = false → new c = v
  indexes : String → List (List String)
  noIndex : String
  same : String → String → Value → Value → Bool
  same_self : ∀ t c v, v.isNull = false → same t c v v = true
  picks : List Row → (Row → Bool) → Option Nat
  picks_some : ∀ rows p i, picks rows p = some i → ∃ row, rows[i]? = some row ∧ p row = true
  picks_none : ∀ rows p, picks rows p = none → ∀ row ∈ rows, p row = false
  acts : Database → String → Row → Row → Database
  checks : Database → Option String
  enforces : ∀ db, checks db = none → ∀ t, ∀ index ∈ indexes t,
    (db t).Pairwise fun a b => ¬ ∀ c ∈ index, same t c (a c) (b c) = true

def cell (values : List (String × Value)) (column : String) : Option Value :=
  (values.find? fun e => e.1 = column).map Prod.snd

def conflicts (s : Server) (table : String) (indexes : List (List String)) (new row : Row) : Bool :=
  indexes.any fun index => index.all fun c => s.same table c (row c) (new c)

namespace Upsert

variable (s : Server) (u : Upsert)

def given : Except String (List (String × Value)) :=
  u.values.mapM fun e => (s.stores u.table e.1 e.2).map fun v => (e.1, v)

-- DO UPDATE SET; with nothing to set the row stays as it is.
def put (given : String → Option Value) (row : Row) : Row := fun c =>
  if c ∈ u.update then (given c).getD (row c) else row c

-- ON CONFLICT names an index, ON DUPLICATE KEY takes any.
def targets : Except String (List (List String)) :=
  if s.d = .mysql then .ok (s.indexes u.table)
  else if u.primaryKey ∈ s.indexes u.table then .ok [u.primaryKey]
  else .error s.noIndex

def change (db : Database) (given : String → Option Value) (old : Row) (i : Nat) : Database :=
  s.acts (db.set u.table ((db u.table).modify i (u.put given))) u.table old (u.put given old)

def write (db : Database) (given : String → Option Value) (indexes : List (List String))
    (new : Row) : Database :=
  match s.picks (db u.table) (conflicts s u.table indexes new) with
  | none => db.add u.table [new]
  | some i => match (db u.table)[i]? with
    | some old => u.change s db given old i
    | none => db

def execute (db : Database) : Except String Database :=
  (u.given s).bind fun given =>
    (s.fill db u.table (cell given)).bind fun new =>
      (u.targets s).bind fun indexes =>
        let next := u.write s db (cell given) indexes new
        match s.checks next with
        | some e => .error e
        | none => .ok next

end Upsert

section Apply

variable (s : Server) (readers : Readers)

def applyRow (model : Model) (run : Nat × Database) (row : Json) : Except String (Nat × Database) :=
  match row with
  | .object object =>
      (compileRow readers model object).bind fun u =>
        (u.execute s run.2).map fun next => (run.1 + 1, next)
  | _ => .error ("seed row for `" ++ model.name.str ++ "` must be an object")

def applyModel (root : Object) (run : Nat × Database) (model : Model) :
    Except String (Nat × Database) :=
  match findRows root model with
  | none => .ok run
  | some (.array rows) => rows.foldlM (applyRow s readers model) run
  | some _ => .error ("seed entry for `" ++ model.name.str ++ "` must be an array")

-- In one transaction: a run on the side that takes the place of the database at the end.
def applyTo (schema : Schema) (root : Object) (db : Database) : Except String Nat × Database :=
  match (keys root).find? fun name => !schema.models.values.any (named · name) with
  | some name => (.error ("seed entry `" ++ name ++ "` does not match a schema model or table"), db)
  | none =>
    match s.begins with
    | some e => (.error e, db)
    | none =>
      match schema.models.values.foldlM (applyModel s readers root) (0, db) with
      | .error e => (.error e, db)
      | .ok (applied, next) =>
        match s.commits next with
        | some e => (.error e, db)
        | none => (.ok applied, next)

-- The text is read by serde_json, which has an error for anything else.
def apply (schema : Schema) (document : Except String Object) (db : Database) :
    Except String Nat × Database :=
  match document with
  | .error e => (.error e, db)
  | .ok root => applyTo s readers schema root db

end Apply

end Ruprizzle.Seed
