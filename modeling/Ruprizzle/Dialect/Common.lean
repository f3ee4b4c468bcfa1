import Ruprizzle.Dialect.Sql

namespace Ruprizzle

inductive DialectError
  | unsupportedNativeType (dialect name column : String)
  | invalidNativeArg (name args reason : String)
  deriving DecidableEq, Repr

def DialectError.message : DialectError → String
  | unsupportedNativeType dialect name _ => "`@db." ++ name ++ "` is not supported on " ++ dialect
  | invalidNativeArg name args reason => "`@db." ++ name ++ "(" ++ args ++ ")` is not valid: " ++ reason

namespace Dialect

def pgTypeName : ScalarType → String
  | .string => "TEXT"
  | .int => "INTEGER"
  | .bigInt => "BIGINT"
  | .float => "DOUBLE PRECISION"
  | .decimal => "NUMERIC"
  | .boolean => "BOOLEAN"
  | .dateTime => "TIMESTAMPTZ"
  | .date => "DATE"
  | .time => "TIME"
  | .uuid => "UUID"
  | .json => "JSONB"
  | .bytes => "BYTEA"
  | .point => "GEOMETRY(Point, 4326)"
  | .polygon => "GEOMETRY(Polygon, 4326)"
  | .multiPolygon => "GEOMETRY(MultiPolygon, 4326)"
  | .lineString => "GEOMETRY(LineString, 4326)"

def pgKindType : FieldKind → SqlType
  | .relation _ => .builtin "TEXT"
  | .scalar st => .builtin (pgTypeName st)
  | .enum name => .enumName name.str
  | .list inner => .array (pgKindType inner)

def mysqlKindType (f : Field) : SqlType :=
  match f.kind with
  | .scalar .string =>
      if f.attrs.isId || f.attrs.isUnique then .builtin "VARCHAR(191)" else .builtin "VARCHAR(255)"
  | .scalar .decimal => .builtin "DECIMAL(65,30)"
  | .scalar .dateTime => .builtin "DATETIME(6)"
  | .scalar .date => .builtin "DATE"
  | .scalar .time => .builtin "TIME"
  | .scalar .uuid => .builtin "CHAR(36)"
  | .scalar .json | .list _ => .builtin "JSON"
  | .enum _ | .relation _ => .builtin "VARCHAR(255)"
  | .scalar .int => .builtin "INT"
  | .scalar .bigInt => .builtin "BIGINT"
  | .scalar .float => .builtin "DOUBLE"
  | .scalar .boolean => .builtin "TINYINT(1)"
  | .scalar .bytes => .builtin "BLOB"
  | .scalar .point => .builtin "POINT"
  | .scalar .polygon => .builtin "POLYGON"
  | .scalar .multiPolygon => .builtin "MULTIPOLYGON"
  | .scalar .lineString => .builtin "LINESTRING"

def sqliteKindType : FieldKind → SqlType
  | .scalar .int | .scalar .bigInt | .scalar .boolean => .builtin "INTEGER"
  | .scalar .float => .builtin "REAL"
  | .scalar .bytes => .builtin "BLOB"
  | _ => .builtin "TEXT"

def kindType (d : Dialect) (f : Field) : SqlType :=
  match d with
  | postgres => pgKindType f.kind
  | mysql => mysqlKindType f
  | sqlite => sqliteKindType f.kind

def nativeTypeSql (d : Dialect) (f : Field) (nt : NativeType) : Except DialectError SqlType :=
  let err (reason : String) : Except DialectError SqlType :=
    .error (.invalidNativeArg nt.name (", ".intercalate nt.args) reason)
  if nt.name = "VarChar" then
    match nt.args with
    | [length] =>
        if d = sqlite then .ok (.builtin "TEXT")
        else match Text.parseUsize length with
          | some n => .ok (.builtin ("VARCHAR(" ++ toString n ++ ")"))
          | none => err "expected a length"
    | _ => err "expected one length argument"
  else if nt.name = "SmallInt" then
    if !nt.args.isEmpty then err "takes no arguments"
    else .ok (.builtin (if d = sqlite then "INTEGER" else "SMALLINT"))
  else if nt.name = "Decimal" then
    match nt.args with
    | [precision, scale] =>
        match Text.parseUsize precision, Text.parseUsize scale with
        | none, _ => err "expected precision"
        | some _, none => err "expected scale"
        | some p, some s => .ok (.builtin (if d = sqlite then "TEXT"
            else "NUMERIC(" ++ toString p ++ "," ++ toString s ++ ")"))
    | [] => .ok (.builtin (if d = sqlite then "TEXT" else "NUMERIC"))
    | _ => err "expected zero or two arguments: precision and scale"
  else .error (.unsupportedNativeType d.name nt.name f.column)

-- A native type overrides the mapping of the kind.
def columnType (d : Dialect) (f : Field) : Except DialectError SqlType :=
  match f.attrs.nativeType with
  | some nt => nativeTypeSql d f nt
  | none => .ok (d.kindType f)

def boolSql (d : Dialect) (b : Bool) : String :=
  if d = sqlite ∨ d = mysql then (if b then "1" else "0") else (if b then "true" else "false")

def literalSql (d : Dialect) : Literal → String
  | .string s => quoteLiteral s
  | .int n => toString n
  | .float n => n.toText
  | .bool b => d.boolSql b
  | .enumVariant v => quoteLiteral v

-- The expression after DEFAULT, empty where there is none.
def defaultSql (d : Dialect) (f : Field) : String :=
  match f.default with
  | none => ""
  | some (.literal lit) => d.literalSql lit
  | some (.function func) =>
      match func, d with
      | .uuid4, postgres => "gen_random_uuid()"
      | .uuid4, mysql => "(UUID())"
      | .now, postgres | .now, mysql => "NOW()"
      | .now, sqlite => "(datetime('now'))"
      | _, _ => ""
  | some (.dbGenerated sql) => sql

-- The check that stands in for an enum type where the dialect has none.
def enumCheck (d : Dialect) (schema : Schema) (f : Field) : Option EnumCheck :=
  match f.kind with
  | .enum name =>
      if d.capabilities.nativeEnums then none
      else
        let labels := ((schema.enums.get? name).map (fun e => e.variants.values.map
          EnumVariant.dbName)).getD []
        if labels.isEmpty then none else some ⟨f.column, labels⟩
  | _ => none

def columnDefault (d : Dialect) (f : Field) : Option String :=
  match f.default with
  | some (.function func) =>
      if func.isClientSide then none
      else if d.defaultSql f = "" then none else some (d.defaultSql f)
  | some _ => if d.defaultSql f = "" then none else some (d.defaultSql f)
  | none => none

def columnSpec (d : Dialect) (schema : Schema) (f : Field) : Except DialectError ColumnSpec := do
  let sqlType ← d.columnType f
  return {
    name := f.column
    sqlType
    notNull := !f.optional
    default := d.columnDefault f
    primaryKey := f.attrs.isId
    unique := f.attrs.isUnique && !f.attrs.isId
    identity := decide (f.default = some (.function .autoIncrement))
    generated := f.generated
    check := d.enumCheck schema f }

def quoteFieldColumns (m : Model) (fields : List FieldName) : List Ident :=
  fields.map fun n =>
    match m.fields.get? n with
    | some f => .quoted f.column
    | none => .bare n.str

def renderIndexTargets (m : Model) (targets : List IndexTarget) : List KeyPart :=
  targets.map fun
    | .field name order => .column (((m.fields.get? name).map Field.column).getD name.str) order
    | .expression expr => .expression expr

-- The body of CREATE TABLE, foreign keys left out.
def createTableBody (d : Dialect) (schema : Schema) (m : Model) : Except DialectError Stmt := do
  let columns ← m.scalarFields.mapM (d.columnSpec schema)
  return Stmt.new (.createTable {
    table := m.table
    columns
    primaryKey := if m.primaryKey.isComposite then
      some (m.primaryKey.name.getD (m.table ++ "_pkey"), quoteFieldColumns m m.primaryKey.fields)
      else none
    uniques := m.uniques.map fun u => ⟨u.dbName, renderIndexTargets m u.targets⟩
    foreignKeys := []
    closing := "" })

def errorStmt (e : DialectError) : Stmt := Stmt.new (.comment ("-- error: " ++ e.message))

-- A column without a type leaves a comment in place of the whole statement.
def createTableStmt (d : Dialect) (schema : Schema) (m : Model) : Stmt :=
  match d.createTableBody schema m with
  | .ok stmt => stmt
  | .error e => errorStmt e

def createTable (d : Dialect) (schema : Schema) (m : Model) : List Stmt :=
  [d.createTableStmt schema m]

def dropTable (table : String) : List Stmt := [(Stmt.new (.dropTable table true false)).destructive]

def dropColumn (table column : String) : List Stmt := [Stmt.new (.dropColumn table column)]

def fkConstraint (d : Dialect) (r : ResolvedRelation) : ForeignKeyClause where
  name := r.constraintName
  columns := r.ownerCols
  target := r.targetTable
  targetColumns := r.targetCols
  onDelete := r.onDelete
  onUpdate := r.onUpdate
  deferrable := d.capabilities.deferrableFks

end Dialect

-- The foreign keys a model owns; a many-to-many relation has none of its own.
def Schema.ownedBy (schema : Schema) (owner : ModelName) : List ResolvedRelation :=
  schema.relations.filter (fun r => r.owner = owner ∧ r.kind ≠ .manyToMany)

-- The constraint of a statement that is one and nothing else.
def Sql.inlineKey? : Sql → Option ForeignKeyClause
  | .inlineForeignKey fk => some fk
  | _ => none

-- Puts constraints inside the last parenthesis of a CREATE TABLE. On an error
-- comment this edits its text, which stays a comment.
def Sql.embed (d : Dialect) (fks : List ForeignKeyClause) (closing : String) : Sql → Sql
  | .createTable t => .createTable { t with foreignKeys := t.foreignKeys ++ fks, closing }
  | .comment text =>
      match Text.splitLastParen text.toList with
      | some (before, after) => .comment (String.ofList before ++ ", " ++
          ", ".intercalate (fks.map (ForeignKeyClause.render d)) ++ closing ++ String.ofList after ++ ";")
      | none => .comment text
  | sql => sql

end Ruprizzle
