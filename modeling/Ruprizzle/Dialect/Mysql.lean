import Ruprizzle.Dialect.Common

namespace Ruprizzle.Mysql

open Dialect

-- Uniqueness is left to a separate step.
def addColumn (schema : Schema) (m : Model) (f : Field) : List Stmt :=
  match columnSpec .mysql schema f with
  | .ok spec => [Stmt.new (.addColumn m.table { spec with unique := false })]
  | .error e => [errorStmt e]

def alterColumn (schema : Schema) (m : Model) (fromField toField : Field) : List Stmt :=
  match columnSpec .mysql schema toField with
  | .error e => [errorStmt e]
  | .ok spec =>
      let spec := { spec with unique := false }
      if fromField.column = toField.column then [Stmt.new (.modifyColumn m.table spec)]
      else [Stmt.new (.changeColumn m.table fromField.column spec)]

def createIndex (m : Model) (ix : IndexDef) : List Stmt :=
  if ix.whereClause.isSome then
    [Stmt.new (.comment ("-- error: partial indexes are not supported on MySQL (" ++
      ix.dbName ++ ")"))]
  else [Stmt.new (.createIndex
    { name := ix.dbName
      table := m.table
      unique := false
      access := none
      parts := renderIndexTargets m ix.targets
      whereClause := none })]

def dropIndex (table name : String) : List Stmt := [Stmt.new (.dropIndexOn name table)]

def addUnique (m : Model) (uq : UniqueDef) : List Stmt :=
  [Stmt.new (.createIndex
    { name := uq.dbName
      table := m.table
      unique := true
      access := none
      parts := renderIndexTargets m uq.targets
      whereClause := none })]

def dropUnique (table name : String) : List Stmt := [Stmt.new (.dropIndexOn name table)]

def addForeignKey (m : Model) (r : ResolvedRelation) : List Stmt :=
  if r.kind = .manyToMany then [] else [Stmt.new (.addForeignKey m.table (fkConstraint .mysql r))]

def dropForeignKey (m : Model) (r : ResolvedRelation) : List Stmt :=
  if r.kind = .manyToMany then [] else [Stmt.new (.dropForeignKey m.table r.constraintName)]

end Ruprizzle.Mysql
