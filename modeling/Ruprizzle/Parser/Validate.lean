import Ruprizzle.Parser.Relations

namespace Ruprizzle.Validate

-- V14
def emptyEnums (schema : Schema) : Diagnostics :=
  (schema.enums.values.filter (fun e => e.variants.keys.isEmpty)).map fun e =>
    .emptyEnum e.name.str e.span

-- V01: every model has a key, over fields that exist.
def primaryKey (model : Model) : Diagnostics :=
  if model.primaryKey.fields.isEmpty then
    [.missingPrimaryKey model.name.str model.primaryKey.span]
  else
    (model.primaryKey.fields.filter (fun n => !model.fields.contains n)).map fun n =>
      .unknownIndexField model.name.str "id" n.str model.primaryKey.span

def isIndexable (model : Model) (name : FieldName) : Bool :=
  match model.fields.get? name with
  | some f => f.hasColumn && f.relation.isNone
  | none => false

def checkTargets (model : Model) (attr : String) (targets : List IndexTarget) (span : Span) :
    Diagnostics :=
  targets.filterMap fun
    | .field name _ => if isIndexable model name then none
        else some (.unknownIndexField model.name.str attr name.str span)
    | .expression _ => none

-- V11: indexes and uniques name existing, column-bearing fields.
def indexFields (model : Model) : Diagnostics :=
  model.indexes.flatMap (fun ix => checkTargets model "index" ix.targets ix.span) ++
    model.uniques.flatMap (fun uq => checkTargets model "unique" uq.targets uq.span)

-- Reports each item whose key was met before, against the last one that had it.
def collisions {α : Type} (key : α → String) (report : α → α → SchemaError) :
    List α → List α → Diagnostics
  | _, [] => []
  | seen, a :: rest =>
      (match seen.find? (fun b => key b = key a) with
        | some first => [report first a]
        | none => []) ++ collisions key report (a :: seen) rest

-- V16: two fields of one model cannot land on the same column.
def columnCollisions (model : Model) : Diagnostics :=
  collisions Field.column (fun first f => .nameCollision (model.name.str ++ "." ++ first.name.str)
    (model.name.str ++ "." ++ f.name.str) f.column f.span) [] model.scalarFields

-- V16: two models on one table, two enums on one type.
def tableCollisions (schema : Schema) : Diagnostics :=
  collisions Model.table (fun first m => .nameCollision first.name.str m.name.str m.table m.span)
    [] schema.models.values ++
  collisions EnumDef.dbName (fun first e => .nameCollision first.name.str e.name.str e.dbName e.span)
    [] schema.enums.values

-- V17, a warning.
def reservedKeywords (model : Model) : Diagnostics :=
  (model.fields.values.filter (fun f => Naming.isRustKeyword f.name.str)).map fun f =>
    .reservedKeyword f.name.str f.span

def validate (schema : Schema) : Diagnostics :=
  emptyEnums schema ++
    schema.models.values.flatMap (fun m =>
      primaryKey m ++ indexFields m ++ columnCollisions m ++ reservedKeywords m) ++
    tableCollisions schema

end Ruprizzle.Validate

namespace Ruprizzle

namespace Lower

-- The five passes, from the syntax tree to the schema and its diagnostics.
def lower (ast : Ast) : Schema × Diagnostics :=
  let (env, nameDiags) := collectNames ast
  let (datasource, datasourceDiags) := lowerDatasource ast
  let generator := lowerGenerator ast
  let (enums, enumDiags) := lowerEnums ast
  let (models, modelDiags) := lowerModels ast env enums
  let pass := resolveRelations models
  let schema : Schema :=
    { version := IR_VERSION, datasource, generator, enums, models := pass.models
      relations := pass.relations }
  (schema, nameDiags ++ datasourceDiags ++ enumDiags ++ modelDiags ++ pass.diags ++
    Validate.validate schema)

end Lower

-- The parser behind its grammar: warnings never fail, any error does.
def parse (ast : Ast) : Except (List SchemaError) Schema :=
  let (schema, diags) := Lower.lower ast
  if diags.errors.isEmpty then .ok schema else .error diags.errors

-- A schema is accepted when the parser yields it for some syntax tree.
def Accepted (schema : Schema) : Prop := ∃ ast, parse ast = .ok schema

end Ruprizzle
