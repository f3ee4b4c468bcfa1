import Mathlib
import Ruprizzle.Core.Ir

namespace Ruprizzle.Runtime

-- What the standard library reads numbers from and prints them to.

inductive Double
  | nan
  | value (x : F64)
  deriving DecidableEq, Repr

namespace Numeric

def inI64 (i : Int) : Bool := decide (-(2 ^ 63) ≤ i ∧ i < 2 ^ 63)

def inI32 (i : Int) : Bool := decide (-(2 ^ 31) ≤ i ∧ i < 2 ^ 31)

-- The digits are taken one after another, and a word that is too small for them is
-- found at the first that does not fit.
def readDigits (negative : Bool) : List Char → Int → Except String Int
  | [], i => .ok i
  | c :: rest, i =>
      if c.isDigit then
        let digit : Int := (c.toNat - '0'.toNat : Nat)
        let next := if negative then 10 * i - digit else 10 * i + digit
        if inI64 next then readDigits negative rest next
        else .error (if negative then "number too small to fit in target type"
          else "number too large to fit in target type")
      else .error "invalid digit found in string"

def parseI64 (text : String) : Except String Int :=
  match text.toList with
  | [] => .error "cannot parse integer from empty string"
  | ['+'] => .error "invalid digit found in string"
  | ['-'] => .error "invalid digit found in string"
  | '+' :: digits => readDigits false digits 0
  | '-' :: digits => readDigits true digits 0
  | digits => readDigits false digits 0

def tryIntoI32 (i : Int) : Except String Int :=
  if inI32 i then .ok i else .error "out of range integral type conversion attempted"

def readExponent (chars : List Char) : Option Int :=
  match chars with
  | [] => some 0
  | e :: rest =>
      if e = 'e' ∨ e = 'E' then
        let (negative, digits) := match rest with
          | '-' :: digits => (true, digits)
          | '+' :: digits => (false, digits)
          | digits => (false, digits)
        if !digits.isEmpty && digits.all Char.isDigit then
          some (if negative then -(Text.natOfDigits digits : Int) else Text.natOfDigits digits)
        else none
      else none

def readNumber (negative : Bool) (chars : List Char) : Option F64 :=
  let whole := chars.takeWhile Char.isDigit
  let after := chars.dropWhile Char.isDigit
  let (fraction, last) := match after with
    | '.' :: rest => (rest.takeWhile Char.isDigit, rest.dropWhile Char.isDigit)
    | rest => ([], rest)
  if (whole ++ fraction).isEmpty then none
  else (readExponent last).map fun exponent =>
    F64.ofRatio negative (Text.natOfDigits (whole ++ fraction) * 10 ^ exponent.toNat)
      (10 ^ (fraction.length + (-exponent).toNat))

def parseF64 (text : String) : Except String Double :=
  let (negative, chars) := match text.toList with
    | '-' :: rest => (true, rest)
    | '+' :: rest => (false, rest)
    | rest => (false, rest)
  let word := String.ofList (chars.map Char.toLower)
  if word = "inf" ∨ word = "infinity" then .ok (.value (.infinite negative))
  else if word = "nan" then .ok .nan
  else match readNumber negative chars with
    | some x => .ok (.value x)
    | none => .error (if text = "" then "cannot parse float from empty string"
        else "invalid float literal")

def i64AsF64 (i : Int) : F64 := F64.ofRatio (decide (i < 0)) i.natAbs 1

-- The cast cuts the fraction off and stops at the ends of the range.
def f64AsI64 : F64 → Int
  | .infinite negative => if negative then -(2 ^ 63) else 2 ^ 63 - 1
  | .finite negative mantissa exponent =>
      let magnitude : Int := if exponent ≥ 0 then mantissa * 2 ^ exponent.toNat
        else (mantissa / 2 ^ (-exponent).toNat : Nat)
      max (-(2 ^ 63)) (min (2 ^ 63 - 1) (if negative then -magnitude else magnitude))

end Numeric

-- What a cell of a row holds. There is no NaN among the reals: it is stored as NULL.
inductive RusqliteValue
  | null
  | integer (i : Int)
  | real (x : F64)
  | text (s : String)
  | blob (b : List UInt8)
  deriving DecidableEq, Repr

-- The types that are read from their text by a function of another crate.
inductive ParsedType
  | decimal | dateTime | date | time | uuid
  deriving DecidableEq, Repr

def ParsedType.rustName : ParsedType → String
  | decimal => "Decimal"
  | dateTime => "DateTime"
  | date => "NaiveDate"
  | time => "NaiveTime"
  | uuid => "Uuid"

-- The types of the fields of a generated struct that have a column. The spatial ones
-- are not among them: they have no FromValue, and what is generated for a model with
-- one of them does not compile.
inductive ColumnType
  | string | bigInt | int | float | boolean | bytes | json
  | parsed (ty : ParsedType)
  | enum (e : EnumDef)
  | list (inner : FieldKind)
  deriving DecidableEq

-- A type parameter stands for the values of the other crates.
inductive RustValue (T : Type)
  | string (s : String)
  | i64 (i : Int)
  | i32 (i : Int)
  | f64 (x : Double)
  | bool (b : Bool)
  | bytes (b : List UInt8)
  | foreign (x : T)
  | variant (name : String)
  deriving DecidableEq

-- FromStr of the other crates, their reading of JSON, and the debug form of values.
structure Crates (T : Type) where
  fromStr : ParsedType → String → Except String T
  json : String → Except String T
  jsonList : FieldKind → String → Except String T
  debug : RusqliteValue → String
  debugStr : String → String

def fromDbStr (e : EnumDef) (s : String) : Option String :=
  (e.variants.values.find? (·.dbName = s)).map (·.name)

def enumFromStr (e : EnumDef) (s : String) : Except String String :=
  match fromDbStr e s with
  | some name => .ok name
  | none => .error ("unknown " ++ e.name.str ++ ": " ++ s)

section

variable {T : Type} (crates : Crates T)

namespace FromValue

def i64 : RusqliteValue → Except String Int
  | .integer i => .ok i
  | .real x => .ok (Numeric.f64AsI64 x)
  | .text s => (Numeric.parseI64 s).mapError fun e =>
      "cannot decode i64 from " ++ crates.debugStr s ++ ": " ++ e
  | value => .error ("cannot decode i64 from " ++ crates.debug value)

def i32 (value : RusqliteValue) : Except String Int := do
  let i ← i64 crates value
  (Numeric.tryIntoI32 i).mapError fun e => "cannot decode i32 from integer: " ++ e

def f64 : RusqliteValue → Except String Double
  | .real x => .ok (.value x)
  | .integer i => .ok (.value (Numeric.i64AsF64 i))
  | .text s => (Numeric.parseF64 s).mapError fun e =>
      "cannot decode f64 from " ++ crates.debugStr s ++ ": " ++ e
  | value => .error ("cannot decode f64 from " ++ crates.debug value)

def eqIgnoreAsciiCase (s word : String) : Bool :=
  s.toList.map Char.toLower = word.toList.map Char.toLower

def bool (value : RusqliteValue) : Except String Bool :=
  let failed := .error ("cannot decode bool from " ++ crates.debug value)
  match value with
  | .integer i => if i = 0 then .ok false else if i = 1 then .ok true else failed
  | .text s =>
      if s = "0" || eqIgnoreAsciiCase s "false" then .ok false
      else if s = "1" || eqIgnoreAsciiCase s "true" then .ok true
      else failed
  | _ => failed

def string : RusqliteValue → Except String String
  | .text s => .ok s
  | .integer i => .ok (toString i)
  | .real x => .ok x.toText
  | .blob _ => .error "cannot decode String from blob"
  | .null => .error "cannot decode String from NULL"

def bytes : RusqliteValue → Except String (List UInt8)
  | .blob b => .ok b
  | value => .error ("cannot decode Vec<u8> from " ++ crates.debug value)

-- A type that is read from text, under the name its errors give it.
def viaString {α : Type} (read : String → Except String α) (failed : String)
    (value : RusqliteValue) : Except String α := do
  let s ← string value
  (read s).mapError fun e => failed ++ " from " ++ crates.debugStr s ++ ": " ++ e

def parsed (ty : ParsedType) : RusqliteValue → Except String T :=
  viaString crates (crates.fromStr ty) ("cannot decode " ++ ty.rustName)

def json : RusqliteValue → Except String T := viaString crates crates.json "cannot decode JSON"

def list (inner : FieldKind) : RusqliteValue → Except String T :=
  viaString crates (crates.jsonList inner) "cannot decode array"

def enum (e : EnumDef) : RusqliteValue → Except String String :=
  viaString crates (enumFromStr e) ("cannot parse " ++ e.name.str)

def option {α : Type} (fromValue : RusqliteValue → Except String α) :
    RusqliteValue → Except String (Option α)
  | .null => .ok none
  | value => (fromValue value).map some

-- FromValue of the Rust type of a column that is not optional.
def column (ty : ColumnType) (value : RusqliteValue) : Except String (RustValue T) :=
  match ty with
  | .string => (string value).map .string
  | .bigInt => (i64 crates value).map .i64
  | .int => (i32 crates value).map .i32
  | .float => (f64 crates value).map .f64
  | .boolean => (bool crates value).map .bool
  | .bytes => (bytes crates value).map .bytes
  | .json => (json crates value).map .foreign
  | .parsed ty => (parsed crates ty value).map .foreign
  | .enum e => (enum crates e value).map .variant
  | .list inner => (list crates inner value).map .foreign

end FromValue

-- FromSql of the driver for one type and for Option of it.
structure Getter (α : Type) where
  get : RusqliteValue → Except String α
  getOpt : RusqliteValue → Except String (Option α)

structure Driver where
  i64 : Getter Int
  f64 : Getter Double
  string : Getter String
  bytes : Getter (List UInt8)
  str : Getter String
  outOfRange : Nat → String

variable (dr : Driver)

-- What a field of the struct gets: none is for the NULL of an optional one.
def Getter.column {α : Type} (g : Getter α) (optional : Bool) (value : RusqliteValue)
    (read : α → Except String (RustValue T)) : Except String (Option (RustValue T)) :=
  if optional then do
    match ← g.getOpt value with
    | none => .ok none
    | some a => (read a).map some
  else do (read (← g.get value)).map some

def getBool (value : RusqliteValue) : Except String Bool :=
  match value with
  | .null => .error "cannot decode bool from NULL"
  | .integer i =>
      if i = 0 then .ok false
      else if i = 1 then .ok true
      else .error ("cannot decode bool from " ++ crates.debug value)
  | .text s =>
      if s = "0" || FromValue.eqIgnoreAsciiCase s "false" then .ok false
      else if s = "1" || FromValue.eqIgnoreAsciiCase s "true" then .ok true
      else .error ("cannot decode bool from " ++ crates.debugStr s)
  | v => .error ("cannot decode bool from " ++ crates.debug v)

def getBoolOpt : RusqliteValue → Except String (Option Bool)
  | .null => .ok none
  | value => (getBool crates value).map some

def parse {α : Type} (read : String → Except String α) (idx : Nat) (s : String) :
    Except String α :=
  (read s).mapError fun e => "cannot parse column " ++ toString idx ++ ": " ++ e

def readJson (idx : Nat) (s : String) : Except String T :=
  (crates.json s).mapError fun e => "cannot decode JSON from column " ++ toString idx ++ ": " ++ e

def readI32 (idx : Nat) (i : Int) : Except String Int :=
  (Numeric.tryIntoI32 i).mapError fun e =>
    "cannot decode i32 from column " ++ toString idx ++ ": " ++ e

-- What is generated for a field on the fast path.
def fromRusqliteRowField (ty : ColumnType) (optional : Bool) (idx : Nat) (value : RusqliteValue) :
    Except String (Option (RustValue T)) :=
  match ty with
  | .string => dr.string.column optional value fun s => .ok (.string s)
  | .bigInt => dr.i64.column optional value fun i => .ok (.i64 i)
  | .int => dr.i64.column optional value fun i => (readI32 idx i).map .i32
  | .float => dr.f64.column optional value fun x => .ok (.f64 x)
  | .boolean =>
      (Getter.mk (getBool crates) (getBoolOpt crates)).column optional value fun b => .ok (.bool b)
  | .json => dr.str.column optional value fun s => (readJson crates idx s).map .foreign
  | .bytes => dr.bytes.column optional value fun b => .ok (.bytes b)
  | .parsed ty =>
      dr.str.column optional value fun s => (parse (crates.fromStr ty) idx s).map .foreign
  | .enum e => dr.str.column optional value fun s => (parse (enumFromStr e) idx s).map .variant
  | .list inner =>
      if optional then (FromValue.option (FromValue.list crates inner) value).map (·.map .foreign)
      else (FromValue.list crates inner value).map fun x => some (.foreign x)

def fromOwnedRowField (ty : ColumnType) (optional : Bool) (value : RusqliteValue) :
    Except String (Option (RustValue T)) :=
  if optional then FromValue.option (FromValue.column crates ty) value
  else (FromValue.column crates ty value).map some

structure RowField where
  name : String
  column : Option (ColumnType × Bool)

inductive FieldValue (T : Type)
  | related
  | value (v : Option (RustValue T))

-- The fields of the struct in their order, each with the next column if it has one.
def decodeFields (decode : ColumnType → Bool → Nat → Except String (Option (RustValue T))) :
    List RowField → Nat → Except String (List (String × FieldValue T))
  | [], _ => .ok []
  | f :: rest, next =>
      match f.column with
      | none => do
          let more ← decodeFields decode rest next
          .ok ((f.name, .related) :: more)
      | some (ty, optional) => do
          let v ← decode ty optional next
          let more ← decodeFields decode rest (next + 1)
          .ok ((f.name, .value v) :: more)

def fromRusqliteRow (fields : List RowField) (row : List RusqliteValue) :
    Except String (List (String × FieldValue T)) :=
  decodeFields (fun ty optional idx =>
    match row[idx]? with
    | none => .error (dr.outOfRange idx)
    | some value => fromRusqliteRowField crates dr ty optional idx value) fields 0

def fromOwnedRow (fields : List RowField) (row : List RusqliteValue) :
    Except String (List (String × FieldValue T)) :=
  decodeFields (fun ty optional idx =>
    match row[idx]? with
    | none => .error ("column index " ++ toString idx ++ " out of bounds")
    | some value => fromOwnedRowField crates ty optional value) fields 0

end

end Ruprizzle.Runtime
