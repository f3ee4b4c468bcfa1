import Ruprizzle.Dialect.Mysql
import Ruprizzle.Dialect.Postgres
import Ruprizzle.Dialect.Sqlite

namespace Ruprizzle.Dialect

-- The operations of the dialect trait, each on the dialect it is called for.

def addColumn (d : Dialect) (schema : Schema) (m : Model) (f : Field) : List Stmt :=
  match d with
  | postgres => Postgres.addColumn m f
  | mysql => Mysql.addColumn schema m f
  | sqlite => Sqlite.addColumn schema m f

def alterColumn (d : Dialect) (schema : Schema) (m : Model) (fromField toField : Field) :
    List Stmt :=
  match d with
  | postgres => Postgres.alterColumn m fromField toField
  | mysql => Mysql.alterColumn schema m fromField toField
  | sqlite => []

def createIndex (d : Dialect) (m : Model) (ix : IndexDef) : List Stmt :=
  match d with
  | postgres => Postgres.createIndex m ix
  | mysql => Mysql.createIndex m ix
  | sqlite => Sqlite.createIndex m ix

def dropIndex (d : Dialect) (table name : String) : List Stmt :=
  match d with
  | postgres => Postgres.dropIndex name
  | mysql => Mysql.dropIndex table name
  | sqlite => Sqlite.dropIndex name

def addUnique (d : Dialect) (m : Model) (uq : UniqueDef) : List Stmt :=
  match d with
  | postgres => Postgres.addUnique m uq
  | mysql => Mysql.addUnique m uq
  | sqlite => Sqlite.addUnique m uq

def dropUnique (d : Dialect) (table name : String) : List Stmt :=
  match d with
  | postgres => Postgres.dropUnique table name
  | mysql => Mysql.dropUnique table name
  | sqlite => Sqlite.dropUnique name

def addForeignKey (d : Dialect) (m : Model) (r : ResolvedRelation) : List Stmt :=
  match d with
  | postgres => Postgres.addForeignKey m r
  | mysql => Mysql.addForeignKey m r
  | sqlite => Sqlite.addForeignKey r

def dropForeignKey (d : Dialect) (m : Model) (r : ResolvedRelation) : List Stmt :=
  match d with
  | postgres => Postgres.dropForeignKey m r
  | mysql => Mysql.dropForeignKey m r
  | sqlite => []

def createEnum (d : Dialect) (e : EnumDef) : List Stmt :=
  match d with
  | postgres => Postgres.createEnum e
  | mysql | sqlite => []

def alterEnumAddVariant (d : Dialect) (e : EnumDef) (variant : String) : List Stmt :=
  match d with
  | postgres => Postgres.alterEnumAddVariant e variant
  | mysql | sqlite => []

-- The statements that create a model with its foreign keys.
def fullCreateTable (d : Dialect) (schema : Schema) (m : Model) : List Stmt :=
  let stmts := d.createTable schema m
  let owned := schema.ownedBy m.name
  if owned.isEmpty then stmts
  else if d.capabilities.addFkAfterCreate then
    stmts ++ owned.flatMap (d.addForeignKey m)
  else
    let fks := (owned.flatMap (d.addForeignKey m)).filterMap fun s => s.sql.inlineKey?
    if fks.isEmpty then stmts
    else stmts.dropLast ++ stmts.getLast?.toList.map fun last =>
      { last with sql := last.sql.embed d fks "" }

def fullAlterColumnWithSource (d : Dialect) (schema : Schema) (target source : Model)
    (fromField toField : Field) : List Stmt :=
  if d.capabilities.alterColumnType then d.alterColumn schema target fromField toField
  else Sqlite.rebuildTable d schema target source fromField toField

end Ruprizzle.Dialect
