import Ruprizzle.Runtime.Decoding
import Ruprizzle.Runtime.Filter

namespace Ruprizzle.Runtime.Arrays

-- The types that the elements of an array are bound as.
inductive ElementType
  | bool | i32 | i64 | f64 | str | parsed (ty : ParsedType) | json | bytes
  deriving DecidableEq, Repr

-- A bound value. T is what the other crates have values of.
inductive Value (T : Type)
  | null
  | bool (b : Bool)
  | i32 (i : Int32)
  | i64 (i : Int64)
  | f64 (x : Double)
  | str (s : String)
  | parsed (ty : ParsedType) (x : T)
  | json (v : Json)
  | bytes (b : List UInt8)
  | array (values : List (Value T))

variable {T : Type}

namespace Value

def isNull : Value T → Bool
  | null => true
  | _ => false

def isArray : Value T → Bool
  | array _ => true
  | _ => false

def elementType : Value T → Option ElementType
  | null => none
  | bool _ => some .bool
  | i32 _ => some .i32
  | i64 _ => some .i64
  | f64 _ => some .f64
  | str _ => some .str
  | parsed ty _ => some (.parsed ty)
  | json _ => some .json
  | bytes _ => some .bytes
  | array _ => none

def toOption (v : Value T) : Option (Value T) := if v.isNull then none else some v

end Value

-- How the other crates print their values and name types, and how they read JSON.
structure Crates (T : Type) where
  print : ParsedType → T → String
  typeName : ElementType → String
  debug : Value T → String
  parsedFromJson : ParsedType → Json → Except String T
  bytesFromJson : Json → Except String (List UInt8)

section Encode

variable (c : Crates T)

def nestedArrays : String := "nested arrays are not supported"

def firstType (values : List (Value T)) : Option ElementType :=
  (values.find? fun v => !v.isNull).bind Value.elementType

def pgArrayEncode (ty : ElementType) (v : Value T) : Except String (Option (Value T)) :=
  if v.isNull then .ok none
  else if v.elementType = some ty then .ok (some v)
  else .error ("array contains mixed or unsupported element: expected " ++ c.typeName ty ++ ", found "
    ++ c.debug v)

-- The type of the parameter and its elements. Where there is no element to take the type
-- of, an empty array of texts is bound.
def encodePostgres (values : List (Value T)) :
    Except String (ElementType × List (Option (Value T))) :=
  if values.any Value.isArray then .error nestedArrays
  else match firstType values with
    | some ty => (values.mapM (pgArrayEncode c ty)).map (ty, ·)
    | none => .ok (.str, [])

def intJson (i : Int) : Json := .number ⟨some i, some (Numeric.i64AsF64 i)⟩

def floatJson (x : F64) : Json := .number ⟨none, some x⟩

mutual

-- A number that is not finite has no JSON, and becomes null.
def asJson : Value T → Except String Json
  | .null => .ok .null
  | .bool b => .ok (.bool b)
  | .i32 i => .ok (intJson i.toInt)
  | .i64 i => .ok (intJson i.toInt)
  | .f64 (.value (.finite negative mantissa exponent)) =>
      .ok (floatJson (.finite negative mantissa exponent))
  | .f64 (.value (.infinite _)) => .ok .null
  | .f64 .nan => .ok .null
  | .str s => .ok (.string s)
  | .parsed ty x => .ok (.string (c.print ty x))
  | .json v => .ok v
  | .bytes _ => .error "byte arrays cannot be stored as JSON arrays"
  | .array values =>
      if values.any Value.isArray then .error nestedArrays else (eachAsJson values).map .array

def eachAsJson : List (Value T) → Except String (List Json)
  | [] => .ok []
  | v :: rest => do
      let j ← asJson v
      let more ← eachAsJson rest
      .ok (j :: more)

end

def arrayToJson (values : List (Value T)) : Except String (List Json) :=
  if values.any Value.isArray then .error nestedArrays else eachAsJson c values

end Encode

inductive Backend
  | any | postgres | tokioPostgres | mysql | sqlite | rusqlite
  deriving DecidableEq, Repr

-- What a cell holds: an array of the database, or the text of a JSON array.
inductive Cell (T : Type)
  | native (items : List (Option (Value T)))
  | document (items : List Json)

-- A database: whether an array parameter of one type goes into a column of another, what it
-- keeps of an element there, and what an element of a JSON text is read as.
structure Server (T : Type) where
  assigns : ElementType → ElementType → Bool
  keeps : ElementType → Value T → Except String (Value T)
  rereads : Json → Except String Json

section Store

variable (c : Crates T) (server : Server T)

def keepElement (column : ElementType) : Option (Value T) → Except String (Option (Value T))
  | none => .ok none
  | some v => (server.keeps column v).map some

def store (backend : Backend) (column : ElementType) (values : List (Value T)) :
    Except String (Cell T) :=
  match backend with
  | .any => .error ("arrays cannot be bound through the generic sqlx::Any driver; "
      ++ "use the native postgres:// or sqlite:// driver or the "
      ++ "postgres-tokio-postgres / sqlite-rusqlite features")
  | .postgres | .tokioPostgres => do
      let (ty, items) ← encodePostgres c values
      if server.assigns ty column then
        let kept ← items.mapM (keepElement server column)
        .ok (.native kept)
      else .error "column is of another type than the expression"
  | .mysql | .sqlite | .rusqlite => (arrayToJson c values).map .document

def invalidType : String := "invalid type"

-- An element that may be missing, read from JSON.
def fromJson (column : ElementType) (j : Json) : Except String (Option (Value T)) :=
  match column, j with
  | _, .null => .ok none
  | .bool, .bool b => .ok (some (.bool b))
  | .i32, .number n =>
      match n.asI64 with
      | some i => if Numeric.inI32 i then .ok (some (.i32 (Int32.ofInt i))) else .error invalidType
      | none => .error invalidType
  | .i64, .number n =>
      match n.asI64 with
      | some i => .ok (some (.i64 (Int64.ofInt i)))
      | none => .error invalidType
  | .f64, .number n =>
      match n.asF64 with
      | some x => .ok (some (.f64 (.value x)))
      | none => .error invalidType
  | .str, .string s => .ok (some (.str s))
  | .json, v => .ok (some (.json v))
  | .parsed ty, j => (c.parsedFromJson ty j).map fun x => some (.parsed ty x)
  | .bytes, j => (c.bytesFromJson j).map fun b => some (.bytes b)
  | _, _ => .error invalidType

def readElement (column : ElementType) (j : Json) : Except String (Option (Value T)) := do
  let read ← server.rereads j
  fromJson c column read

def decodeArray (column : ElementType) : Cell T → Except String (List (Option (Value T)))
  | .native items => .ok items
  | .document items => items.mapM (readElement c server column)

end Store

end Ruprizzle.Runtime.Arrays
