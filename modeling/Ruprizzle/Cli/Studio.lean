import Ruprizzle.Dialect.Common
import Ruprizzle.Runtime.Decoding

namespace Ruprizzle.Studio

open Ruprizzle.Runtime (RusqliteValue)

-- The names of types in casts.

def sqliteTypeName : ScalarType → String
  | .string | .decimal | .dateTime | .date | .time | .uuid | .json => "TEXT"
  | .point | .polygon | .multiPolygon | .lineString => "TEXT"
  | .int | .bigInt | .boolean => "INTEGER"
  | .float => "REAL"
  | .bytes => "BLOB"

def mysqlTypeName : ScalarType → String
  | .string => "CHAR(255)"
  | .int | .bigInt => "SIGNED"
  | .float => "DOUBLE"
  | .decimal => "DECIMAL(65,30)"
  | .boolean => "UNSIGNED"
  | .dateTime => "DATETIME(6)"
  | .date => "DATE"
  | .time => "TIME"
  | .uuid => "CHAR(36)"
  | .json => "JSON"
  | .bytes => "BINARY"
  | .point => "POINT"
  | .polygon => "POLYGON"
  | .multiPolygon => "MULTIPOLYGON"
  | .lineString => "LINESTRING"

def castName : Dialect → ScalarType → String
  | .postgres, ty => Dialect.pgTypeName ty
  | .mysql, ty => mysqlTypeName ty
  | .sqlite, ty => sqliteTypeName ty

def scalarOf (field : Field) : Option ScalarType :=
  match field.kind with
  | .scalar ty => some ty
  | .enum _ => some .string
  | .list _ | .relation _ => none

def isEditable (field : Field) : Bool := field.hasColumn && (scalarOf field).isSome

abbrev Row (V : Type) := String → V

abbrev Database (V : Type) := String → List (Row V)

-- What a database does: the text of a value, as it is cast and read, the value a text is
-- cast to, or stands for where a column expects one, what a column keeps of a value, and
-- equality, which holds of no NULL. It may refuse each of these, and a state.
structure Engine (V : Type) where
  d : Dialect
  null : V
  toText : V → Except String (Option String)
  cast : String → String → Except String V
  text : Field → String → Except String V
  keeps : Field → V → Except String V
  same : Field → V → V → Bool
  same_null : ∀ f v, same f null v = false
  same_symm : ∀ f v w, same f v w = true → same f w v = true
  same_trans : ∀ f v w x, same f v w = true → same f w x = true → same f v x = true
  checks : Database V → Option String

structure CellInfo where
  columnName : String
  value : String
  isId : Bool
  isNull : Bool
  isRelation : Bool
  relationTarget : String
  editable : Bool
  optional : Bool
  deriving DecidableEq, Repr

structure RowInfo where
  id : String
  cells : List CellInfo
  deriving DecidableEq, Repr

inductive Response
  | status (code : Nat) (text : String)
  | cell (rowId : String) (c : CellInfo)
  deriving DecidableEq, Repr

structure AppState where
  schema : Schema
  allowWrites : Bool
  connected : Bool

def AppState.writable (state : AppState) : Bool := state.allowWrites && state.connected

def writeRefusal (state : AppState) : Response :=
  if state.allowWrites then
    .status 503 ("Studio has no database connection, so nothing can be written. " ++
      "Start studio with a --database-url.")
  else
    .status 403 ("Mutating operations are disabled in read-only mode. " ++
      "Start studio with --allow-writes to permit mutations.")

def primaryKey (model : Model) : Option Field :=
  model.fields.values.find? fun f => f.attrs.isId && f.hasColumn

-- The model that a foreign key column points at.
def relationTarget (model : Model) (field : Field) : Option String :=
  model.fields.values.findSome? fun nav =>
    nav.relation.bind fun relation =>
      if relation.fields.any (· = field.name) then some relation.target.str else none

section Handlers

variable {V : Type} (s : Engine V)

-- The value of the placeholder as it stands in a statement.
def bindExpr (field : Field) (text : String) : Except String V :=
  match scalarOf field with
  | some .string | none => s.text field text
  | some ty => s.cast (castName s.d ty) text

def cellInfo (model : Model) (field : Field) (value : Option String) : CellInfo :=
  { columnName := field.name.str
    value := value.getD ""
    isId := field.attrs.isId
    isNull := value.isNone
    isRelation := (relationTarget model field).isSome
    relationTarget := (relationTarget model field).getD ""
    editable := model.scalarFields.any (·.attrs.isId) && isEditable field && !field.attrs.isId
    optional := field.optional }

def rowInfo (model : Model) (row : Row V) : Except String RowInfo :=
  (model.scalarFields.mapM fun f => (s.toText (row f.column)).map fun value => (f, value)).map
    fun values =>
      { id := ((values.find? fun e => e.1.attrs.isId).bind Prod.snd).getD ""
        cells := values.map fun e => cellInfo model e.1 e.2 }

-- WHERE the column of the key is equal to a value.
def hits (idField : Field) (key : V) (row : Row V) : Bool := s.same idField (row idField.column) key

def put (field : Field) (value : V) (row : Row V) : Row V := fun c =>
  if c = field.column then value else row c

def setRows (db : Database V) (table : String) (rows : List (Row V)) : Database V := fun t =>
  if t = table then rows else db t

def guarded (next : Database V) : Except String (Database V) :=
  match s.checks next with
  | some e => .error e
  | none => .ok next

def update (db : Database V) (table : String) (field : Field) (value : V) (idField : Field)
    (key : V) : Except String (Nat × Database V) :=
  if (db table).any (hits s idField key) then
    (s.keeps field value).bind fun kept =>
      (guarded s (setRows db table ((db table).map fun row =>
        if hits s idField key row then put field kept row else row))).map fun next =>
          ((db table).countP (hits s idField key), next)
  else .ok (0, db)

def delete (db : Database V) (table : String) (idField : Field) (key : V) :
    Except String (Nat × Database V) :=
  let remaining := (db table).filter fun row => !hits s idField key row
  (guarded s (setRows db table remaining)).map fun next =>
    ((db table).countP (hits s idField key), next)

-- The cell is read again, so that it shows what the database kept.
def readBack (db : Database V) (model : Model) (idField field : Field) (rowId : String) :
    Response :=
  let rows := (bindExpr s idField rowId).bind fun key =>
    ((db model.table).filter (hits s idField key)).mapM (rowInfo s model)
  match rows with
  | .error e => .status 500 ("The update succeeded but reading the cell back failed: " ++ e)
  | .ok rows =>
    match rows.head?.bind fun row => row.cells.find? fun c => c.columnName = field.name.str with
    | some c => .cell rowId c
    | none => .status 500 "The update succeeded but the cell could not be read back."

def patchCell (state : AppState) (db : Database V) (modelName rowId column : String)
    (value : Option String) : Response × Database V :=
  if !state.writable then (writeRefusal state, db)
  else match state.schema.models.get? ⟨modelName⟩ with
  | none => (.status 404 "Model not found", db)
  | some model =>
    match primaryKey model with
    | none => (.status 400
        "This model has no single-column primary key, so Studio cannot edit its rows.", db)
    | some idField =>
      match model.fields.values.find? fun f => f.name.str = column && isEditable f with
      | none => (.status 400 "Column not found, or not editable through Studio.", db)
      | some field =>
        let raw := value.getD ""
        -- An emptied optional column is written as NULL.
        let bound := if raw.isEmpty && field.optional then .ok s.null else bindExpr s field raw
        let result := bound.bind fun v =>
          (bindExpr s idField rowId).bind fun key => update s db model.table field v idField key
        match result with
        | .error e => (.status 400 ("Update failed: " ++ e), db)
        | .ok (0, next) =>
            (.status 404 ("No row with " ++ idField.column ++ " = " ++ rowId ++ " was updated."),
              next)
        | .ok (_, next) => (readBack s next model idField field rowId, next)

def deleteRow (state : AppState) (db : Database V) (modelName rowId : String) :
    Response × Database V :=
  if !state.writable then (writeRefusal state, db)
  else match state.schema.models.get? ⟨modelName⟩ with
  | none => (.status 404 "Model not found", db)
  | some model =>
    match primaryKey model with
    | none => (.status 400
        "This model has no single-column primary key, so Studio cannot delete its rows.", db)
    | some idField =>
      match (bindExpr s idField rowId).bind fun key => delete s db model.table idField key with
      | .error e => (.status 400 ("Delete failed: " ++ e), db)
      | .ok (0, next) =>
          (.status 404 ("No row with " ++ idField.column ++ " = " ++ rowId ++ " was deleted."),
            next)
      | .ok (_, next) => (.status 200 "", next)

end Handlers

-- SQLite keeps values of five classes and casts any text: to an integer by its longest
-- prefix that reads as one, stopping at the ends of the range, and to 0 where there is none.

def intPrefix (text : String) : Int :=
  let chars := text.toList.dropWhile fun c => c = ' ' || ('\t' ≤ c && c ≤ '\r')
  let (negative, chars) := match chars with
    | '-' :: rest => (true, rest)
    | '+' :: rest => (false, rest)
    | rest => (false, rest)
  let n := Text.natOfDigits (chars.takeWhile Char.isDigit)
  if negative then max (-(2 ^ 63)) (-(n : Int)) else min (2 ^ 63 - 1) n

def encode (text : String) : List UInt8 := text.toList.flatMap String.utf8EncodeChar

structure Sqlite where
  printReal : F64 → String
  readReal : String → F64
  decode : List UInt8 → Option String
  encode_decode : ∀ b text, decode b = some text → encode text = b
  keeps : Field → RusqliteValue → Except String RusqliteValue
  same : Field → RusqliteValue → RusqliteValue → Bool
  same_self : ∀ f v, v ≠ .null → same f v v = true
  same_null : ∀ f v, same f .null v = false
  same_symm : ∀ f v w, same f v w = true → same f w v = true
  same_trans : ∀ f v w x, same f v w = true → same f w x = true → same f v x = true
  checks : Database RusqliteValue → Option String

namespace Sqlite

variable (q : Sqlite)

def toText : RusqliteValue → Except String (Option String)
  | .null => .ok none
  | .integer i => .ok (some (toString i))
  | .real x => .ok (some (q.printReal x))
  | .text t => .ok (some t)
  | .blob b => match q.decode b with
    | some t => .ok (some t)
    | none => .error "invalid utf-8 sequence"

def cast (type text : String) : RusqliteValue :=
  if type = "INTEGER" then .integer (intPrefix text)
  else if type = "REAL" then .real (q.readReal text)
  else if type = "BLOB" then .blob (encode text)
  else .text text

def engine : Engine RusqliteValue where
  d := .sqlite
  null := .null
  toText := q.toText
  cast type text := .ok (q.cast type text)
  text _ text := .ok (.text text)
  keeps := q.keeps
  same := q.same
  same_null := q.same_null
  same_symm := q.same_symm
  same_trans := q.same_trans
  checks := q.checks

end Sqlite

end Ruprizzle.Studio
