import Ruprizzle.Dialect.Common

namespace Ruprizzle.Postgres

open Dialect

def addColumn (m : Model) (f : Field) : List Stmt :=
  match columnType .postgres f with
  | .ok sqlType =>
      let default := defaultSql .postgres f
      [Stmt.new (.addColumn m.table
        { name := f.column
          sqlType
          notNull := !f.optional
          default := if default = "" then none else some default
          primaryKey := false
          unique := false
          identity := false
          generated := none
          check := none })]
  | .error e => [Stmt.new (.comment ("-- error adding column: " ++ e.message))]

def alterColumn (m : Model) (fromField toField : Field) : List Stmt :=
  let table := m.table
  let column := toField.column
  let rename := if fromField.column ≠ column then
    [Stmt.new (.renameColumn table fromField.column column)] else []
  let type := if fromField.kind ≠ toField.kind then
    match columnType .postgres toField with
    | .ok sqlType => [Stmt.new (.alterType table column sqlType)]
    | .error e => [errorStmt e] else []
  let oldDefault := defaultSql .postgres fromField
  let newDefault := defaultSql .postgres toField
  let default := if oldDefault ≠ newDefault then
    if newDefault = "" then [Stmt.new (.dropDefault table column)]
    else [Stmt.new (.setDefault table column newDefault)] else []
  let nullability := if fromField.optional ≠ toField.optional then
    if toField.optional then [Stmt.new (.dropNotNull table column)]
    else [Stmt.new (.setNotNull table column)] else []
  rename ++ type ++ default ++ nullability

def accessMethod : Option IndexType → Option String
  | some .gist => some "GIST"
  | some .gin => some "GIN"
  | some .hash => some "HASH"
  | some .spGist => some "SPGIST"
  | some .brin => some "BRIN"
  | some .btree | none => none

def createIndex (m : Model) (ix : IndexDef) : List Stmt :=
  [Stmt.new (.createIndex
    { name := ix.dbName
      table := m.table
      unique := false
      access := accessMethod ix.indexType
      parts := renderIndexTargets m ix.targets
      whereClause := ix.whereClause })]

def dropIndex (name : String) : List Stmt := [Stmt.new (.dropIndex name)]

def addUnique (m : Model) (uq : UniqueDef) : List Stmt :=
  [Stmt.new (.addUnique m.table ⟨uq.dbName, renderIndexTargets m uq.targets⟩)]

def dropUnique (table name : String) : List Stmt := [Stmt.new (.dropConstraint table name)]

def addForeignKey (m : Model) (r : ResolvedRelation) : List Stmt :=
  if r.kind = .manyToMany then []
  else [Stmt.new (.addForeignKey m.table (fkConstraint .postgres r))]

def dropForeignKey (m : Model) (r : ResolvedRelation) : List Stmt :=
  if r.kind = .manyToMany then [] else [Stmt.new (.dropConstraint m.table r.constraintName)]

def createEnum (e : EnumDef) : List Stmt :=
  [(Stmt.new (.createType e.dbName (e.variants.values.map EnumVariant.dbName))).nonTransactional]

-- The label is the name of the variant as the schema writes it.
def alterEnumAddVariant (e : EnumDef) (variant : String) : List Stmt :=
  [(Stmt.new (.addValue e.dbName variant)).nonTransactional]

end Ruprizzle.Postgres
