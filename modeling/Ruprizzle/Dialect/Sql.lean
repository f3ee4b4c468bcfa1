import Ruprizzle.Core.Ir
import Ruprizzle.Data.Text

namespace Ruprizzle

inductive Dialect
  | postgres
  | mysql
  | sqlite
  deriving DecidableEq, Repr

-- What the migration code asks a dialect about itself.
structure Capabilities where
  nativeEnums : Bool
  alterColumnType : Bool
  addFkAfterCreate : Bool
  deferrableFks : Bool
  deriving DecidableEq, Repr

namespace Dialect

def name : Dialect → String
  | postgres => "postgres"
  | mysql => "mysql"
  | sqlite => "sqlite"

def quoteIdent : Dialect → String → String
  | postgres, s => Text.quoted '\x22' s
  | mysql, s | sqlite, s => Text.quoted '\x60' s

def capabilities : Dialect → Capabilities
  | postgres => ⟨true, true, true, true⟩
  | mysql => ⟨false, true, true, false⟩
  | sqlite => ⟨false, false, false, true⟩

end Dialect

-- A statement is kept as what it says; its text is what render makes of it.

def quoteLiteral (s : String) : String := Text.quoted '\x27' s

inductive SqlType
  | builtin (text : String)
  | enumName (name : String)
  | array (elem : SqlType)
  deriving DecidableEq, Repr

namespace SqlType

-- The name of an enum type is written as it is, without quotes.
def render : SqlType → String
  | builtin text => text
  | enumName name => name
  | array elem => elem.render ++ "[]"

end SqlType

-- The labels a column of an enum is limited to where no enum type exists.
structure EnumCheck where
  column : String
  labels : List String
  deriving DecidableEq, Repr

def EnumCheck.render (d : Dialect) (c : EnumCheck) : String :=
  d.quoteIdent c.column ++ " IN (" ++ ", ".intercalate (c.labels.map quoteLiteral) ++ ")"

-- A column declaration while it is being built.
structure ColumnSpec where
  name : String
  sqlType : SqlType
  notNull : Bool
  default : Option String
  primaryKey : Bool
  unique : Bool
  identity : Bool
  generated : Option GeneratedClause
  check : Option EnumCheck
  deriving DecidableEq, Repr

def GeneratedKind.asSql : GeneratedKind → String
  | virtual => "VIRTUAL"
  | stored => "STORED"

namespace ColumnSpec

def renderBody (d : Dialect) (c : ColumnSpec) : String :=
  let identityLate := d = .sqlite ∨ d = .mysql
  " ".intercalate (
    [c.sqlType.render] ++
    (if c.identity ∧ ¬ identityLate then ["GENERATED BY DEFAULT AS IDENTITY"] else []) ++
    (match c.generated with
      | some g => ["GENERATED ALWAYS AS (" ++ g.expr ++ ") " ++ g.kind.asSql]
      | none => []) ++
    (if c.notNull then ["NOT NULL"] else if !c.primaryKey then ["NULL"] else []) ++
    (match c.default with | some e => ["DEFAULT " ++ e] | none => []) ++
    (if c.primaryKey then ["PRIMARY KEY"] else []) ++
    (if c.identity ∧ identityLate then
      [if d = .mysql then "AUTO_INCREMENT" else "AUTOINCREMENT"] else []) ++
    (if c.unique && !c.primaryKey then ["UNIQUE"] else []) ++
    (match c.check with | some k => ["CHECK (" ++ k.render d ++ ")"] | none => []))

def render (d : Dialect) (c : ColumnSpec) : String :=
  d.quoteIdent c.name ++ " " ++ c.renderBody d

end ColumnSpec

-- A name as it stands in a statement.
inductive Ident
  | quoted (name : String)
  | bare (name : String)
  deriving DecidableEq, Repr

def Ident.render (d : Dialect) : Ident → String
  | quoted name => d.quoteIdent name
  | bare name => name

inductive KeyPart
  | column (name : String) (order : SortOrder)
  | expression (sql : String)
  deriving DecidableEq, Repr

def KeyPart.render (d : Dialect) : KeyPart → String
  | column name .asc => d.quoteIdent name
  | column name .desc => d.quoteIdent name ++ " DESC"
  | expression sql => sql

def renderParts (d : Dialect) (parts : List KeyPart) : String :=
  ", ".intercalate (parts.map (KeyPart.render d))

structure ForeignKeyClause where
  name : String
  columns : List String
  target : String
  targetColumns : List String
  onDelete : ReferentialAction
  onUpdate : ReferentialAction
  deferrable : Bool
  deriving DecidableEq, Repr

def ForeignKeyClause.render (d : Dialect) (fk : ForeignKeyClause) : String :=
  "CONSTRAINT " ++ d.quoteIdent fk.name ++ " FOREIGN KEY (" ++
    ", ".intercalate (fk.columns.map d.quoteIdent) ++ ") REFERENCES " ++ d.quoteIdent fk.target ++
    " (" ++ ", ".intercalate (fk.targetColumns.map d.quoteIdent) ++ ")" ++
    (if fk.onDelete ≠ .noAction then " ON DELETE " ++ fk.onDelete.asSql else "") ++
    (if fk.onUpdate ≠ .noAction then " ON UPDATE " ++ fk.onUpdate.asSql else "") ++
    (if fk.deferrable then " DEFERRABLE INITIALLY IMMEDIATE" else "")

structure UniqueSpec where
  name : String
  parts : List KeyPart
  deriving DecidableEq, Repr

-- The closing text is the blank a table rebuild leaves before the parenthesis.
structure TableSpec where
  table : String
  columns : List ColumnSpec
  primaryKey : Option (String × List Ident)
  uniques : List UniqueSpec
  foreignKeys : List ForeignKeyClause
  closing : String
  deriving DecidableEq, Repr

def TableSpec.render (d : Dialect) (t : TableSpec) : String :=
  let items := t.columns.map (ColumnSpec.render d) ++
    (match t.primaryKey with
      | some (name, key) => ["CONSTRAINT " ++ d.quoteIdent name ++ " PRIMARY KEY (" ++
          ", ".intercalate (key.map (Ident.render d)) ++ ")"]
      | none => []) ++
    t.uniques.map (fun u => "CONSTRAINT " ++ d.quoteIdent u.name ++ " UNIQUE (" ++
      renderParts d u.parts ++ ")")
  "CREATE TABLE " ++ d.quoteIdent t.table ++ " (" ++ ", ".intercalate items ++
    String.join (t.foreignKeys.map (fun fk => ", " ++ fk.render d)) ++ t.closing ++ ");"

structure IndexSpec where
  name : String
  table : String
  unique : Bool
  access : Option String
  parts : List KeyPart
  whereClause : Option String
  deriving DecidableEq, Repr

def IndexSpec.render (d : Dialect) (ix : IndexSpec) : String :=
  "CREATE " ++ (if ix.unique then "UNIQUE " else "") ++ "INDEX " ++ d.quoteIdent ix.name ++ " ON " ++
    d.quoteIdent ix.table ++ (match ix.access with | some a => " USING " ++ a | none => "") ++
    " (" ++ renderParts d ix.parts ++ ")" ++
    (match ix.whereClause with | some w => " WHERE " ++ w | none => "") ++ ";"

inductive Sql
  | comment (text : String)
  | command (text : String)
  | createTable (t : TableSpec)
  | dropTable (table : String) (ifExists cascade : Bool)
  | renameTable (table newName : String)
  | insertSelect (into : String) (columns : List String) (table : String) (sources : List String)
  | addColumn (table : String) (c : ColumnSpec)
  | dropColumn (table column : String)
  | renameColumn (table column newName : String)
  | alterType (table column : String) (ty : SqlType)
  | setDefault (table column expr : String)
  | dropDefault (table column : String)
  | setNotNull (table column : String)
  | dropNotNull (table column : String)
  | modifyColumn (table : String) (c : ColumnSpec)
  | changeColumn (table column : String) (c : ColumnSpec)
  | createIndex (ix : IndexSpec)
  | dropIndex (name : String)
  | dropIndexOn (name table : String)
  | addUnique (table : String) (u : UniqueSpec)
  | dropConstraint (table name : String)
  | addForeignKey (table : String) (fk : ForeignKeyClause)
  | dropForeignKey (table name : String)
  | inlineForeignKey (fk : ForeignKeyClause)
  | createType (name : String) (labels : List String)
  | addValue (name label : String)
  | dropType (name : String)
  deriving DecidableEq, Repr

namespace Sql

private def alterTable (d : Dialect) (table action : String) : String :=
  "ALTER TABLE " ++ d.quoteIdent table ++ " " ++ action ++ ";"

private def alterColumn (d : Dialect) (table column action : String) : String :=
  alterTable d table ("ALTER COLUMN " ++ d.quoteIdent column ++ " " ++ action)

def render (d : Dialect) : Sql → String
  | comment text | command text => text
  | createTable t => t.render d
  | dropTable table ifExists cascade => "DROP TABLE " ++ (if ifExists then "IF EXISTS " else "") ++
      d.quoteIdent table ++ (if cascade then " CASCADE" else "") ++ ";"
  | renameTable table newName => alterTable d table ("RENAME TO " ++ d.quoteIdent newName)
  | insertSelect into columns table sources => "INSERT INTO " ++ d.quoteIdent into ++ " (" ++
      ", ".intercalate (columns.map d.quoteIdent) ++ ") SELECT " ++
      ", ".intercalate (sources.map d.quoteIdent) ++ " FROM " ++ d.quoteIdent table ++ ";"
  | addColumn table c => alterTable d table ("ADD COLUMN " ++ c.render d)
  | dropColumn table column => alterTable d table ("DROP COLUMN " ++ d.quoteIdent column)
  | renameColumn table column newName => alterTable d table
      ("RENAME COLUMN " ++ d.quoteIdent column ++ " TO " ++ d.quoteIdent newName)
  | alterType table column ty => alterColumn d table column
      ("TYPE " ++ ty.render ++ " USING " ++ d.quoteIdent column ++ "::" ++ ty.render)
  | setDefault table column expr => alterColumn d table column ("SET DEFAULT " ++ expr)
  | dropDefault table column => alterColumn d table column "DROP DEFAULT"
  | setNotNull table column => alterColumn d table column "SET NOT NULL"
  | dropNotNull table column => alterColumn d table column "DROP NOT NULL"
  | modifyColumn table c => alterTable d table
      ("MODIFY COLUMN " ++ d.quoteIdent c.name ++ " " ++ c.renderBody d)
  | changeColumn table column c => alterTable d table
      ("CHANGE COLUMN " ++ d.quoteIdent column ++ " " ++ d.quoteIdent c.name ++ " " ++ c.renderBody d)
  | createIndex ix => ix.render d
  | dropIndex name => "DROP INDEX IF EXISTS " ++ d.quoteIdent name ++ ";"
  | dropIndexOn name table => "DROP INDEX " ++ d.quoteIdent name ++ " ON " ++ d.quoteIdent table ++ ";"
  | addUnique table u => alterTable d table
      ("ADD CONSTRAINT " ++ d.quoteIdent u.name ++ " UNIQUE (" ++ renderParts d u.parts ++ ")")
  | dropConstraint table name => alterTable d table ("DROP CONSTRAINT " ++ d.quoteIdent name)
  | addForeignKey table fk => alterTable d table ("ADD " ++ fk.render d)
  | dropForeignKey table name => alterTable d table ("DROP FOREIGN KEY " ++ d.quoteIdent name)
  | inlineForeignKey fk => fk.render d
  | createType name labels => "CREATE TYPE " ++ d.quoteIdent name ++ " AS ENUM (" ++
      ", ".intercalate (labels.map quoteLiteral) ++ ");"
  | addValue name label => "ALTER TYPE " ++ d.quoteIdent name ++ " ADD VALUE " ++
      quoteLiteral label ++ ";"
  | dropType name => "DROP TYPE IF EXISTS " ++ d.quoteIdent name ++ ";"

end Sql

-- A statement with what the migration runner needs to know about it.
structure Stmt where
  sql : Sql
  isDestructive : Bool
  transactional : Bool
  deriving DecidableEq, Repr

namespace Stmt

def new (sql : Sql) : Stmt := ⟨sql, false, true⟩

def destructive (s : Stmt) : Stmt := { s with isDestructive := true }

def nonTransactional (s : Stmt) : Stmt := { s with transactional := false }

@[simp] theorem new_sql (sql : Sql) : (new sql).sql = sql := rfl

@[simp] theorem destructive_sql (s : Stmt) : s.destructive.sql = s.sql := rfl

@[simp] theorem nonTransactional_sql (s : Stmt) : s.nonTransactional.sql = s.sql := rfl

end Stmt

end Ruprizzle
