import Ruprizzle.Dialect.DbDialect
import Ruprizzle.Migrate.Cycle
import Ruprizzle.Migrate.Diff

namespace Ruprizzle

-- none stands for a panic: a lookup the source declares unreachable, or a sort
-- that stops on its comparator.
structure Planner where
  host : Host
  prev : Schema
  next : Schema
  dialect : Dialect
  changes : List Change
  down : Bool

-- What the phases that may panic have produced.
structure Phases where
  defer : Bool
  variants : List Stmt
  creates : List Stmt
  adds : List Stmt
  shadowed : List Stmt
  renames : List Stmt
  alters : List Stmt
  fkDrops : List Stmt
  ixDrops : List Stmt
  uqDrops : List Stmt
  uqAdds : List Stmt
  ixAdds : List Stmt
  fkAdds : List Stmt
  drops : List Stmt
  tables : List Stmt

namespace Planner

def model (p : Planner) (name : ModelName) : Option Model := p.next.models.get? name

-- The statements of each change in turn.
def collect (f : Change → Option (List Stmt)) : List Change → Option (List Stmt)
  | [] => some []
  | c :: rest => do
      let stmts ← f c
      let others ← collect f rest
      return stmts ++ others

def extensionsToCreate (p : Planner) : List Stmt :=
  if p.down ∨ p.dialect ≠ .postgres then []
  else (p.next.datasource.extensions.filter (fun e => !p.prev.datasource.extensions.contains e)).map
    fun e => Stmt.new (.command ("CREATE EXTENSION IF NOT EXISTS " ++ e ++ ";"))

def extensionsToDrop (p : Planner) : List Stmt :=
  if !p.down ∨ p.dialect ≠ .postgres then []
  else (p.prev.datasource.extensions.filter (fun e => !p.next.datasource.extensions.contains e)).map
    fun e => (Stmt.new (.command ("DROP EXTENSION IF EXISTS " ++ e ++ ";"))).destructive.nonTransactional

def enumsToCreate (p : Planner) : List Stmt :=
  p.changes.flatMap fun
    | .createEnum e => p.dialect.createEnum e
    | _ => []

def enumsToDrop (p : Planner) : List Stmt :=
  p.changes.flatMap fun
    | .dropEnum _ dbName => if p.dialect.capabilities.nativeEnums then
        [(Stmt.new (.dropType dbName)).destructive] else []
    | _ => []

def enumVariantsToAdd (p : Planner) : Option (List Stmt) :=
  collect (fun
    | .addEnumVariant enum variant => do
        let e ← p.next.enums.get? enum
        return p.dialect.alterEnumAddVariant e variant
    | _ => some []) p.changes

def enumVariantsToDrop (p : Planner) : List Stmt :=
  p.changes.filterMap fun
    | .dropEnumVariant enum variant => some (Stmt.new (.comment
        ("-- IRREVERSIBLE-PRONE: DROP ENUM VARIANT " ++ enum.str ++ "." ++ variant)))
    | _ => none

def references (schema : Schema) (a b : ModelName) : Bool :=
  schema.relations.any (fun r => r.owner = a && r.target = b)

def modelDependencyOrder (schema : Schema) (a b : Model) : Ordering :=
  let aRefsB := references schema a.name b.name
  let bRefsA := references schema b.name a.name
  if aRefsB && !bRefsA then .gt
  else if bRefsA && !aRefsB then .lt
  else compare a.name.str b.name.str

def tableReferences (schema : Schema) (a b : String) : Bool :=
  match schema.models.values.find? (fun m => m.table = a),
    schema.models.values.find? (fun m => m.table = b) with
  | some ma, some mb => references schema ma.name mb.name
  | _, _ => false

def tableDependencyOrder (schema : Schema) (a b : String) : Ordering :=
  let aRefsB := tableReferences schema a b
  let bRefsA := tableReferences schema b a
  if aRefsB && !bRefsA then .lt
  else if bRefsA && !aRefsB then .gt
  else compare a b

def createdModels (p : Planner) : List Model :=
  p.changes.filterMap fun
    | .createModel m => some m
    | _ => none

def modelsToCreate (p : Planner) : Option (List Stmt) := do
  let toCreate ← p.host.sortBy.sort (modelDependencyOrder p.next) p.createdModels
  return toCreate.flatMap fun m =>
    if p.dialect.capabilities.addFkAfterCreate then p.dialect.createTable p.next m
    else p.dialect.fullCreateTable p.next m

def droppedTables (p : Planner) : List String :=
  p.changes.filterMap fun
    | .dropModel _ table => some table
    | _ => none

-- CASCADE is put at the end of the statement, before its semicolon.
def cascade (s : Stmt) : Stmt :=
  match s.sql with
  | .dropTable table ifExists _ => { s with sql := .dropTable table ifExists true }
  | _ => s

def needsCascade (p : Planner) : Bool := p.down && p.dialect = .postgres

def cycleTables (p : Planner) : Option (List String) :=
  if p.needsCascade then Cycle.cycleTableNames p.host.fkGraph p.prev else some []

def modelsToDrop (p : Planner) : Option (List Stmt) := do
  let toDrop ← p.host.sortBy.sort (tableDependencyOrder p.prev) p.droppedTables
  let cycleTables ← p.cycleTables
  return toDrop.flatMap fun table =>
    if p.needsCascade && cycleTables.contains table then (Dialect.dropTable table).map cascade
    else Dialect.dropTable table

def backfillComment (d : Dialect) (tableName columnName : String) : Sql :=
  let table := d.quoteIdent tableName
  let column := d.quoteIdent columnName
  .comment (
    "-- ▼▼▼ RUPRIZZLE:BACKFILL — edit this block (preserved on regeneration) ▼▼▼\n" ++
    "-- Column " ++ table ++ "." ++ column ++
      " is NOT NULL with no default and the table may have rows.\n" ++
    "-- Provide a backfill, then the NOT NULL constraint below will succeed.\n" ++
    "-- UPDATE " ++ table ++ " SET " ++ column ++ " = <expr> WHERE " ++ column ++ " IS NULL;\n" ++
    "-- ▲▲▲ RUPRIZZLE:BACKFILL ▲▲▲")

-- NOT NULL without a default takes a nullable add, a block to edit and an alter.
def needsBackfill (f : Field) : Bool := !f.optional && f.default.isNone

def withField (m : Model) (f : Field) : Model := { m with fields := m.fields.insert f.name f }

def withoutField (m : Model) (name : FieldName) : Model :=
  { m with fields := m.fields.shiftRemove name }

def addColumnWithBackfill (p : Planner) (target source : Model) (field : Field) : List Stmt :=
  if needsBackfill field then
    let nullable := { field with optional := true }
    p.dialect.addColumn p.next target nullable ++
      [Stmt.new (backfillComment p.dialect target.table field.column)] ++
      p.dialect.fullAlterColumnWithSource p.next target
        (withField (withoutField source field.name) nullable) nullable field
  else p.dialect.addColumn p.next target field

-- The model of a table as the adds so far have left it.
abbrev Current := IndexMap ModelName Model

def addStep (p : Planner) (current : Current) (model : ModelName) (field : Field) :
    Option (List Stmt × Current) := do
  let target ← p.model model
  let source := (current.get? model).getD ((p.prev.models.get? model).getD target)
  let stmts := p.addColumnWithBackfill target source field
  let source := if needsBackfill field then withField (withoutField source field.name) field
    else withField source field
  return (stmts, current.insert model source)

def addAll (p : Planner) : Current → List Change → Option (List Stmt)
  | _, [] => some []
  | current, .addColumn model field :: rest => do
      let (stmts, current) ← p.addStep current model field
      let others ← p.addAll current rest
      return stmts ++ others
  | current, _ :: rest => p.addAll current rest

def columnsToAdd (p : Planner) : Option (List Stmt) := p.addAll .empty p.changes

-- Whether a column goes to make room for one renamed onto its name.
def isShadowedDrop (p : Planner) (model : ModelName) (column : String) : Bool :=
  p.changes.any fun
    | .renameColumn m _ _ fromColumn toColumn =>
        m = model && toColumn = column && fromColumn ≠ column
    | _ => false

def dropStep (p : Planner) (model : ModelName) (column : String) : Option (List Stmt) := do
  let m ← p.model model
  return Dialect.dropColumn m.table column

def shadowedColumnsToDrop (p : Planner) : Option (List Stmt) :=
  collect (fun
    | .dropColumn model column =>
        if p.isShadowedDrop model column then p.dropStep model column else some []
    | _ => some []) p.changes

def columnsToDrop (p : Planner) : Option (List Stmt) :=
  collect (fun
    | .dropColumn model column =>
        if p.isShadowedDrop model column then some [] else p.dropStep model column
    | _ => some []) p.changes

def fallbackField (name : FieldName) (column : String) : Field where
  name := name
  column := column
  kind := .scalar .string
  optional := true
  default := none
  attrs := {}
  generated := none
  docs := none
  span := Span.EMPTY

def renameStep (p : Planner) (model : ModelName) (fromName toName : FieldName)
    (fromColumn toColumn : String) : Option (List Stmt) := do
  let target ← p.model model
  let toField := (target.fields.get? toName).getD (fallbackField toName toColumn)
  let fromField := { toField with name := fromName, column := fromColumn }
  let source := withField (withoutField target toField.name) fromField
  return if p.dialect.capabilities.alterColumnType then
      p.dialect.alterColumn p.next target fromField toField
    else p.dialect.fullAlterColumnWithSource p.next target source fromField toField

def columnsToRename (p : Planner) : Option (List Stmt) :=
  collect (fun
    | .renameColumn model fromName toName fromColumn toColumn =>
        p.renameStep model fromName toName fromColumn toColumn
    | _ => some []) p.changes

def alterStep (p : Planner) (model : ModelName) (fromField toField : Field) :
    Option (List Stmt) := do
  let target ← p.model model
  let source := withField (withoutField target toField.name) fromField
  return p.dialect.fullAlterColumnWithSource p.next target source fromField toField

def columnsToAlter (p : Planner) : Option (List Stmt) :=
  collect (fun
    | .alterColumn model fromField toField _ => p.alterStep model fromField toField
    | _ => some []) p.changes

def indexesToCreate (p : Planner) : Option (List Stmt) :=
  collect (fun
    | .createIndex model ix => do return p.dialect.createIndex (← p.model model) ix
    | _ => some []) p.changes

def indexesToDrop (p : Planner) : Option (List Stmt) :=
  collect (fun
    | .dropIndex model name => do return p.dialect.dropIndex (← p.model model).table name
    | _ => some []) p.changes

def uniquesToAdd (p : Planner) : Option (List Stmt) :=
  collect (fun
    | .addUnique model uq => do return p.dialect.addUnique (← p.model model) uq
    | _ => some []) p.changes

def uniquesToDrop (p : Planner) : Option (List Stmt) :=
  collect (fun
    | .dropUnique model name => do return p.dialect.dropUnique (← p.model model).table name
    | _ => some []) p.changes

def foreignKeysToAdd (p : Planner) : Option (List Stmt) :=
  if !p.dialect.capabilities.addFkAfterCreate then some []
  else collect (fun
    | .addForeignKey model r => do return p.dialect.addForeignKey (← p.model model) r
    | _ => some []) p.changes

def foreignKeysToDrop (p : Planner) : Option (List Stmt) :=
  collect (fun
    | .dropForeignKey model r => do return p.dialect.dropForeignKey (← p.model model) r
    | _ => some []) p.changes

-- Whether the migration touches a foreign-key cycle and must defer its checks.
def needsDefer (p : Planner) : Option Bool :=
  if p.down && p.dialect = .postgres then some false
  else if !p.dialect.capabilities.deferrableFks && p.dialect ≠ .mysql then some false
  else do
    let cycle ← Cycle.detectCycles p.host.fkGraph (if p.down then p.prev else p.next)
    return !cycle.models.isEmpty && p.changes.any cycle.affectedBy

def commands (texts : List String) : List Stmt := texts.map fun t => Stmt.new (.command t)

def deferPreamble (p : Planner) : List Stmt :=
  match p.dialect, p.down with
  | .postgres, false => commands ["SET CONSTRAINTS ALL DEFERRED;"]
  | .sqlite, false => commands ["PRAGMA defer_foreign_keys = ON;"]
  | .mysql, _ => commands ["SET FOREIGN_KEY_CHECKS = 0;"]
  | .sqlite, true => (commands ["PRAGMA foreign_keys = OFF;"]).map Stmt.nonTransactional
  | .postgres, true => []

def deferPostamble (p : Planner) : List Stmt :=
  match p.dialect, p.down with
  | .postgres, false => commands ["SET CONSTRAINTS ALL IMMEDIATE;"]
  | .sqlite, false => commands ["PRAGMA defer_foreign_keys = OFF;"]
  | .mysql, _ => commands ["SET FOREIGN_KEY_CHECKS = 1;"]
  | .sqlite, true => (commands ["PRAGMA foreign_key_check;", "PRAGMA foreign_keys = ON;"]).map
      Stmt.nonTransactional
  | .postgres, true => []

-- The statements of a plan in order. Dependent objects are dropped before they
-- are created again with new definitions.
def assemble (p : Planner) (ph : Phases) : List Stmt :=
  (if ph.defer then p.deferPreamble else []) ++ p.extensionsToCreate ++ p.enumsToCreate ++
    ph.variants ++ ph.creates ++ ph.adds ++ ph.shadowed ++ ph.renames ++ ph.alters ++ ph.fkDrops ++
    ph.ixDrops ++ ph.uqDrops ++ ph.uqAdds ++ ph.ixAdds ++ ph.fkAdds ++ ph.drops ++ ph.tables ++
    p.enumVariantsToDrop ++ p.enumsToDrop ++ p.extensionsToDrop ++
    (if ph.defer then p.deferPostamble else [])

def plan (p : Planner) : Option (List Stmt) := do
  let defer ← p.needsDefer
  let variants ← p.enumVariantsToAdd
  let creates ← p.modelsToCreate
  let adds ← p.columnsToAdd
  let shadowed ← p.shadowedColumnsToDrop
  let renames ← p.columnsToRename
  let alters ← p.columnsToAlter
  let fkDrops ← p.foreignKeysToDrop
  let ixDrops ← p.indexesToDrop
  let uqDrops ← p.uniquesToDrop
  let uqAdds ← p.uniquesToAdd
  let ixAdds ← p.indexesToCreate
  let fkAdds ← p.foreignKeysToAdd
  let drops ← p.columnsToDrop
  let tables ← p.modelsToDrop
  return p.assemble ⟨defer, variants, creates, adds, shadowed, renames, alters, fkDrops, ixDrops,
    uqDrops, uqAdds, ixAdds, fkAdds, drops, tables⟩

end Planner

-- The plan of the up migration, and of the down migration: the reverse diff.
def upPlanner (host : Host) (d : Dialect) (prev next : Schema) : Planner :=
  ⟨host, prev, next, d, Diff.diff host prev next, false⟩

def downPlanner (host : Host) (d : Dialect) (prev next : Schema) : Planner :=
  ⟨host, next, prev, d, Diff.diff host next prev, true⟩

def renderSql (d : Dialect) (stmts : List Stmt) : String :=
  "\n".intercalate (stmts.map fun s => s.sql.render d)

def upSql (host : Host) (d : Dialect) (prev next : Schema) : Option String :=
  (upPlanner host d prev next).plan.map (renderSql d)

-- The text of a statement without its closing semicolons.
def bareText (d : Dialect) (sql : Sql) : String :=
  String.ofList (((Text.trim (sql.render d).toList).reverse.dropWhile (· = ';')).reverse)

def renderDown (d : Dialect) (changes : List Change) (stmts : List Stmt) : String :=
  let notes := changes.filterMap Change.destructive
  "\n".intercalate (
    ["-- Down migration generated by ruprizzle.",
      "-- It restores the schema but cannot restore data that was removed by the up migration."] ++
    (if notes.isEmpty then [] else
      "-- The following up-migration changes are not reversible with their data:" ::
        notes.map (fun note => "--   - " ++ note)) ++
    [""] ++
    stmts.flatMap fun s =>
      (if s.isDestructive then ["-- IRREVERSIBLE: " ++ bareText d s.sql] else []) ++
        [s.sql.render d])

def downSql (host : Host) (d : Dialect) (prev next : Schema) : Option String :=
  let p := downPlanner host d prev next
  p.plan.map (renderDown d p.changes)

end Ruprizzle
