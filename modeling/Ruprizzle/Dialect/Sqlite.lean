import Ruprizzle.Dialect.Common

namespace Ruprizzle.Sqlite

open Dialect

def addColumn (schema : Schema) (m : Model) (f : Field) : List Stmt :=
  match columnSpec .sqlite schema f with
  | .ok spec => [Stmt.new (.addColumn m.table spec)]
  | .error e => [errorStmt e]

def createIndex (m : Model) (ix : IndexDef) : List Stmt :=
  [Stmt.new (.createIndex
    { name := ix.dbName
      table := m.table
      unique := false
      access := none
      parts := renderIndexTargets m ix.targets
      whereClause := ix.whereClause })]

def dropIndex (name : String) : List Stmt := [Stmt.new (.dropIndex name)]

def addUnique (m : Model) (uq : UniqueDef) : List Stmt :=
  [Stmt.new (.createIndex
    { name := uq.dbName
      table := m.table
      unique := true
      access := none
      parts := renderIndexTargets m uq.targets
      whereClause := none })]

def dropUnique (name : String) : List Stmt := [Stmt.new (.dropIndex name)]

-- No ALTER TABLE adds a foreign key: the clause goes into CREATE TABLE.
def addForeignKey (r : ResolvedRelation) : List Stmt :=
  if r.kind = .manyToMany then [] else [Stmt.new (.inlineForeignKey (fkConstraint .sqlite r))]

-- The table a rebuild creates: the source with one field replaced.
def rebuiltModel (target source : Model) (fromField toField : Field) : Model :=
  { source with
    table := target.table ++ "__new"
    primaryKey := target.primaryKey
    indexes := target.indexes
    uniques := target.uniques
    fields := (source.fields.shiftRemove fromField.name).insert toField.name toField }

-- Rewrites the owner column of a clause over that column alone: the text
-- replaced is the column between parentheses.
def redirect (fromColumn toColumn : String) (fk : ForeignKeyClause) : ForeignKeyClause :=
  if fk.columns = [fromColumn] then { fk with columns := [toColumn] } else fk

-- The clause of a relation is looked up by a search for its constraint name.
def redirectOwned (d : Dialect) (owned : List ResolvedRelation) (fromColumn toColumn : String) :
    List ForeignKeyClause :=
  owned.foldl (fun fks r =>
    let updated := if r.ownerCols.contains fromColumn then
      redirect fromColumn toColumn (d.fkConstraint r) else d.fkConstraint r
    match fks.findIdx? (fun fk =>
      Text.containsWord r.constraintName.toList (fk.render d).toList) with
    | some pos => fks.set pos updated
    | none => fks) (owned.map d.fkConstraint)

def rebuiltForeignKeys (d : Dialect) (schema : Schema) (owner : ModelName)
    (fromField toField : Field) : List ForeignKeyClause :=
  let owned := schema.ownedBy owner
  if fromField.column ≠ toField.column then
    redirectOwned d owned fromField.column toField.column
  else owned.map d.fkConstraint

-- Each column of the new table with the column it is copied from.
def copiedColumns (source newModel : Model) (fromField toField : Field) : List (String × String) :=
  newModel.scalarFields.filterMap fun f =>
    if f.name = toField.name then some (f.column, fromField.column)
    else (source.fields.get? f.name).map fun s => (f.column, s.column)

-- Whether every field an index names is in the model.
def targetsPresent (m : Model) (targets : List IndexTarget) : Bool :=
  targets.all fun
    | .field name _ => m.fields.contains name
    | .expression _ => true

def rebuildTable (d : Dialect) (schema : Schema) (target source : Model)
    (fromField toField : Field) : List Stmt :=
  let table := target.table
  let newTable := table ++ "__new"
  let newModel := rebuiltModel target source fromField toField
  let created := createTableStmt d schema newModel
  let fks := rebuiltForeignKeys d schema newModel.name fromField toField
  let created := if fks.isEmpty then created else { created with sql := created.sql.embed d fks " " }
  let copied := copiedColumns source newModel fromField toField
  let copy := if copied.isEmpty then [] else
    [Stmt.new (.insertSelect newTable (copied.map Prod.fst) table (copied.map Prod.snd))]
  let indexes := (target.indexes.filter (fun ix => targetsPresent newModel ix.targets)).map fun ix =>
    Stmt.new (.createIndex
      { name := ix.dbName
        table
        unique := false
        access := none
        parts := renderIndexTargets newModel ix.targets
        whereClause := ix.whereClause })
  let uniques := (target.uniques.filter (fun u => targetsPresent newModel u.targets)).map fun u =>
    Stmt.new (.createIndex
      { name := u.dbName
        table
        unique := true
        access := none
        parts := renderIndexTargets newModel u.targets
        whereClause := none })
  [(Stmt.new (.command "PRAGMA foreign_keys=OFF;")).nonTransactional, created] ++ copy ++
    [(Stmt.new (.dropTable table false false)).destructive,
      Stmt.new (.renameTable newTable table)] ++ indexes ++ uniques ++
    [(Stmt.new (.command "PRAGMA foreign_key_check;")).nonTransactional,
      (Stmt.new (.command "PRAGMA foreign_keys=ON;")).nonTransactional]

end Ruprizzle.Sqlite
