import Ruprizzle.Data.IndexMap
import Ruprizzle.Runtime.Arrays

namespace Ruprizzle.Runtime.Edge

-- What Turso and D1 are sent and send back.

-- A value as Hrana has it. Integers are texts of digits.
inductive HranaValue
  | null
  | integer (value : String)
  | float (value : Double)
  | text (value : String)
  | blob (base64 : String)
  deriving DecidableEq, Repr

inductive TursoError
  | unsupported (message : String)
  | protocol (message : String)
  deriving DecidableEq, Repr

inductive D1Error
  | unsupported (message : String)
  deriving DecidableEq, Repr

-- How the other crates print their values, numbers and documents, and write bytes as a text.
structure Crates (T : Type) where
  print : ParsedType → T → String
  float : Double → String
  number : JsonNumber → String
  json : Json → String
  encode : List UInt8 → String
  decode : String → Except String (List UInt8)

variable {T : Type} (c : Crates T)

def finite : Double → Option F64
  | .value (.finite negative mantissa exponent) => some (.finite negative mantissa exponent)
  | _ => none

def noArray : String := "SQLite has no array type, so an array parameter cannot be bound"

def toHrana : Arrays.Value T → Except TursoError HranaValue
  | .null => .ok .null
  | .bool b => .ok (.integer (toString (if b then 1 else 0 : Int)))
  | .i32 i => .ok (.integer (toString i.toInt))
  | .i64 i => .ok (.integer (toString i.toInt))
  | .f64 x =>
      match finite x with
      | none => .error (.unsupported ("the Hrana protocol carries floats as JSON numbers, "
          ++ "and JSON has no                  form for the non-finite float " ++ c.float x
          ++ "; bind NULL explicitly or store it as text"))
      | some y => .ok (.float (.value y))
  | .str s => .ok (.text s)
  | .parsed ty x => .ok (.text (c.print ty x))
  | .json j => .ok (.text (c.json j))
  | .bytes b => .ok (.blob (c.encode b))
  | .array _ => .error (.unsupported noArray)

def fromHrana : HranaValue → Except TursoError (Arrays.Value T)
  | .null => .ok .null
  | .integer value =>
      match Numeric.parseI64 value with
      | .ok i => .ok (.i64 (Int64.ofInt i))
      | .error e => .error (.protocol ("server sent `" ++ value ++ "` as an integer: " ++ e))
  | .float value => .ok (.f64 value)
  | .text value => .ok (.str value)
  | .blob base64 =>
      match c.decode base64 with
      | .ok b => .ok (.bytes b)
      | .error e => .error (.protocol ("server sent an invalid blob: " ++ e))

def toJson : Arrays.Value T → Except D1Error Json
  | .null => .ok .null
  | .bool b => .ok (Arrays.intJson (if b then 1 else 0))
  | .i32 i => .ok (Arrays.intJson i.toInt)
  | .i64 i => .ok (Arrays.intJson i.toInt)
  | .f64 x =>
      match finite x with
      | none => .error (.unsupported ("D1's HTTP API takes JSON parameters, "
          ++ "and JSON has no form for the                  non-finite float " ++ c.float x
          ++ "; bind NULL explicitly or store it as text"))
      | some y => .ok (Arrays.floatJson y)
  | .str s => .ok (.string s)
  | .parsed ty x => .ok (.string (c.print ty x))
  | .json j => .ok (.string (c.json j))
  | .bytes _ => .error (.unsupported ("D1's HTTP API takes no binary parameter; "
      ++ "store the value hex- or base64-encoded in a text column"))
  | .array _ => .error (.unsupported noArray)

def fromJson : Json → Arrays.Value T
  | .null => .null
  | .bool b => .bool b
  | .number n =>
      match n.asI64, n.asF64 with
      | some i, _ => .i64 (Int64.ofInt i)
      | none, some x => .f64 (.value x)
      | none, none => .str (c.number n)
  | .string s => .str s
  | .array items => .json (.array items)
  | .object members => .json (.object members)

-- A column of a result set, which may have no name.
structure Col where
  name : Option String
  deriving DecidableEq, Repr

structure ExecuteResult where
  cols : List Col
  rows : List (List HranaValue)

def Col.named (col : Col) : Option String := col.name.filter fun name => name ≠ ""

def columnName (col : Col) (i : Nat) : String := col.named.getD ("column_" ++ toString i)

def ExecuteResult.columnNames (r : ExecuteResult) : List String :=
  r.cols.zipIdx.map fun p => columnName p.1 p.2

-- The cells of a row under their names, a later one in the place of an earlier one of its name.
def collect {V : Type} (cells : List (String × V)) : IndexMap String V :=
  cells.foldl (fun row cell => row.insert cell.1 cell.2) IndexMap.empty

def edgeRow (names : List String) (row : List HranaValue) :
    Except TursoError (IndexMap String (Arrays.Value T)) :=
  if row.length ≠ names.length then
    .error (.protocol ("server sent a row of " ++ toString row.length ++ " value(s) for "
      ++ toString names.length ++ " column(s)"))
  else do
    let cells ← (names.zip row).mapM fun cell => (fromHrana c cell.2).map fun v => (cell.1, v)
    .ok (collect cells)

def ExecuteResult.intoEdgeRows (r : ExecuteResult) :
    Except TursoError (List (IndexMap String (Arrays.Value T))) :=
  r.rows.mapM (edgeRow c r.columnNames)

end Ruprizzle.Runtime.Edge
