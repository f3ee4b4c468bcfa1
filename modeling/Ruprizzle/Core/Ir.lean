import Ruprizzle.Core.Names
import Ruprizzle.Data.IndexMap
import Ruprizzle.Data.F64

namespace Ruprizzle

inductive Provider
  | postgres
  | sqlite
  | mysql
  deriving DecidableEq, Repr

namespace Provider

def parse (s : String) : Option Provider :=
  if s = "postgres" ∨ s = "postgresql" then some postgres
  else if s = "sqlite" then some sqlite
  else if s = "mysql" ∨ s = "mariadb" then some mysql
  else none

def asStr : Provider → String
  | postgres => "postgres"
  | sqlite => "sqlite"
  | mysql => "mysql"

def ALL : List Provider := [postgres, sqlite, mysql]

end Provider

inductive DatasourceUrl
  | env (var : String)
  | literal (url : String)
  deriving DecidableEq, Repr

structure Datasource where
  name : String
  provider : Provider
  url : DatasourceUrl
  extensions : List String
  span : Span
  deriving DecidableEq, Repr

structure Generator where
  name : String
  output : String
  moduleName : String
  maxIncludeDepth : Nat
  span : Span
  deriving DecidableEq, Repr

def Generator.default : Generator where
  name := "client"
  output := "src/db"
  moduleName := "db"
  maxIncludeDepth := 3
  span := Span.EMPTY

structure EnumVariant where
  name : String
  dbName : String
  docs : Option String
  span : Span
  deriving DecidableEq, Repr

structure EnumDef where
  name : EnumName
  dbName : String
  variants : IndexMap String EnumVariant
  docs : Option String
  span : Span
  deriving DecidableEq, Repr

inductive ScalarType
  | string | int | bigInt | float | decimal | boolean | dateTime | date | time | uuid | json
  | bytes | point | polygon | multiPolygon | lineString
  deriving DecidableEq, Repr

namespace ScalarType

def ALL : List ScalarType :=
  [string, int, bigInt, float, decimal, boolean, dateTime, date, time, uuid, json, bytes, point,
    polygon, multiPolygon, lineString]

def asStr : ScalarType → String
  | string => "String"
  | int => "Int"
  | bigInt => "BigInt"
  | float => "Float"
  | decimal => "Decimal"
  | boolean => "Boolean"
  | dateTime => "DateTime"
  | date => "Date"
  | time => "Time"
  | uuid => "Uuid"
  | json => "Json"
  | bytes => "Bytes"
  | point => "Point"
  | polygon => "Polygon"
  | multiPolygon => "MultiPolygon"
  | lineString => "LineString"

def parse (s : String) : Option ScalarType := ALL.find? (fun t => t.asStr = s)

theorem parse_asStr (t : ScalarType) : parse t.asStr = some t := by
  cases t <;> decide

end ScalarType

inductive ReferentialAction
  | cascade
  | restrict
  | setNull
  | setDefault
  | noAction
  deriving DecidableEq, Repr

namespace ReferentialAction

def parse (s : String) : Option ReferentialAction :=
  if s = "Cascade" then some cascade
  else if s = "Restrict" then some restrict
  else if s = "SetNull" then some setNull
  else if s = "SetDefault" then some setDefault
  else if s = "NoAction" then some noAction
  else none

def asSql : ReferentialAction → String
  | cascade => "CASCADE"
  | restrict => "RESTRICT"
  | setNull => "SET NULL"
  | setDefault => "SET DEFAULT"
  | noAction => "NO ACTION"

end ReferentialAction

-- A relation as written on one field.
structure RelationRef where
  target : ModelName
  name : Option String
  through : Option ModelName
  fields : List FieldName
  references : List FieldName
  onDelete : Option ReferentialAction
  onUpdate : Option ReferentialAction
  resolved : Option Nat
  span : Span
  deriving DecidableEq, Repr

inductive FieldKind
  | scalar (ty : ScalarType)
  | enum (name : EnumName)
  | relation (ref : RelationRef)
  | list (inner : FieldKind)
  deriving DecidableEq, Repr

inductive DefaultFn
  | uuid4
  | uuid7
  | cuid2
  | nanoid
  | now
  | autoIncrement
  deriving DecidableEq, Repr

namespace DefaultFn

def parse (s : String) : Option DefaultFn :=
  if s = "uuid4" then some uuid4
  else if s = "uuid7" then some uuid7
  else if s = "cuid2" then some cuid2
  else if s = "nanoid" then some nanoid
  else if s = "now" then some now
  else if s = "autoincrement" then some autoIncrement
  else none

-- No DEFAULT clause exists for these: the insert builder supplies the value.
def isClientSide : DefaultFn → Bool
  | uuid7 | cuid2 | nanoid => true
  | uuid4 | now | autoIncrement => false

end DefaultFn

inductive Literal
  | string (s : String)
  | int (n : Int)
  | float (n : F64)
  | bool (b : Bool)
  | enumVariant (variant : String)
  deriving DecidableEq, Repr

inductive DefaultValue
  | literal (lit : Literal)
  | function (func : DefaultFn)
  | dbGenerated (sql : String)
  deriving DecidableEq, Repr

namespace DefaultValue

-- Equality in the source is the derived PartialEq, which compares floats by
-- value. Two defaults are equal exactly when their canonical forms are.
def canon : DefaultValue → DefaultValue
  | literal (.float n) => literal (.float n.canon)
  | value => value

def same (a b : Option DefaultValue) : Bool := decide (a.map canon = b.map canon)

end DefaultValue

structure NativeType where
  name : String
  args : List String
  span : Span
  deriving DecidableEq, Repr

inductive GeneratedKind
  | virtual
  | stored
  deriving DecidableEq, Repr

structure GeneratedClause where
  expr : String
  kind : GeneratedKind
  deriving DecidableEq, Repr

structure FieldAttrs where
  isId : Bool := false
  isUnique : Bool := false
  isUpdatedAt : Bool := false
  isCreatedAt : Bool := false
  isDeletedAt : Bool := false
  ignore : Bool := false
  nativeType : Option NativeType := none
  renamedFrom : Option String := none
  deriving DecidableEq, Repr

structure Field where
  name : FieldName
  column : String
  kind : FieldKind
  optional : Bool
  default : Option DefaultValue
  attrs : FieldAttrs
  generated : Option GeneratedClause
  docs : Option String
  span : Span
  deriving DecidableEq, Repr

namespace FieldKind

-- Scalar and enum lists have a column, navigation properties have none.
def hasColumn : FieldKind → Bool
  | scalar _ => true
  | enum _ => true
  | list (scalar _) => true
  | list (enum _) => true
  | list _ => false
  | relation _ => false

def relation? : FieldKind → Option RelationRef
  | relation r => some r
  | list (relation r) => some r
  | _ => none

def isList : FieldKind → Bool
  | list _ => true
  | _ => false

end FieldKind

namespace Field

def hasColumn (f : Field) : Bool := f.kind.hasColumn

def relation (f : Field) : Option RelationRef := f.kind.relation?

def isList (f : Field) : Bool := f.kind.isList

end Field

inductive SortOrder
  | asc
  | desc
  deriving DecidableEq, Repr

inductive IndexTarget
  | field (name : FieldName) (order : SortOrder)
  | expression (sql : String)
  deriving DecidableEq, Repr

inductive IndexType
  | btree
  | gist
  | gin
  | hash
  | spGist
  | brin
  deriving DecidableEq, Repr

structure PrimaryKey where
  fields : List FieldName
  name : Option String
  span : Span
  deriving DecidableEq, Repr

def PrimaryKey.isComposite (pk : PrimaryKey) : Bool := pk.fields.length > 1

structure IndexDef where
  dbName : String
  targets : List IndexTarget
  indexType : Option IndexType
  whereClause : Option String
  span : Span
  deriving DecidableEq, Repr

structure UniqueDef where
  dbName : String
  targets : List IndexTarget
  span : Span
  deriving DecidableEq, Repr

structure Model where
  name : ModelName
  table : String
  fields : IndexMap FieldName Field
  primaryKey : PrimaryKey
  indexes : List IndexDef
  uniques : List UniqueDef
  docs : Option String
  span : Span
  deriving DecidableEq, Repr

-- The fields that map to a physical column, in declaration order.
def Model.scalarFields (m : Model) : List Field := m.fields.values.filter Field.hasColumn

inductive RelationKind
  | oneToOne
  | manyToOne
  | manyToMany
  deriving DecidableEq, Repr

structure ResolvedRelation where
  name : String
  kind : RelationKind
  owner : ModelName
  ownerCols : List String
  ownerField : FieldName
  target : ModelName
  targetTable : String
  targetCols : List String
  targetField : Option FieldName
  onDelete : ReferentialAction
  onUpdate : ReferentialAction
  optional : Bool
  constraintName : String
  span : Span
  joinModel : Option ModelName
  joinOwnerField : Option FieldName
  joinTargetField : Option FieldName
  deriving DecidableEq, Repr

structure Schema where
  version : Nat
  datasource : Datasource
  generator : Generator
  enums : IndexMap EnumName EnumDef
  models : IndexMap ModelName Model
  relations : List ResolvedRelation
  deriving DecidableEq, Repr

def IR_VERSION : Nat := 1

end Ruprizzle
