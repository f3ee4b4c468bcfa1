import Ruprizzle.Data.Sorting
import Ruprizzle.Migrate.Change

namespace Ruprizzle

-- What the program takes from the machine it runs on.
structure Host where
  nextRelations : HashOrder
  prevRelations : HashOrder
  fkGraph : HashOrder
  sortBy : SortBy

-- Tables listed in the order they were filled, lists sorted by insertion.
def Host.std : Host := ⟨.asInserted, .asInserted, .asInserted, .insertion⟩

namespace Diff

def diffEnums (prev next : Schema) : List Change :=
  (next.enums.entries.filter (fun (name, _) => !prev.enums.contains name)).map
    (fun (_, e) => .createEnum e) ++
  (prev.enums.entries.filter (fun (name, _) => !next.enums.contains name)).map
    (fun (name, e) => .dropEnum name e.dbName) ++
  next.enums.entries.flatMap fun (name, nextDef) =>
    match prev.enums.get? name with
    | none => []
    | some prevDef =>
        (nextDef.variants.keys.filter (fun v => !prevDef.variants.contains v)).map
          (fun v => .addEnumVariant name v) ++
        (prevDef.variants.keys.filter (fun v => !nextDef.variants.contains v)).map
          (fun v => .dropEnumVariant name v)

-- Spans take part in the comparison of native types.
def columnAspects (prev next : Field) : List ColumnAspect :=
  (if prev.kind ≠ next.kind ∨ prev.attrs.nativeType ≠ next.attrs.nativeType then [.type] else []) ++
  (if prev.optional ≠ next.optional then [.nullability] else []) ++
  (if !DefaultValue.same prev.default next.default then [.default] else [])

def alterIfChanged (model : ModelName) (prev next : Field) : List Change :=
  if columnAspects prev next = [] then []
  else [.alterColumn model prev next (columnAspects prev next)]

-- A rename hint of the next schema that names a column field of the previous one.
structure Hint where
  newName : FieldName
  field : Field
  oldName : FieldName
  prevField : Field
  deriving DecidableEq, Repr

def hints (prev next : Model) : List Hint :=
  next.fields.entries.filterMap fun (newName, field) =>
    match field.attrs.renamedFrom with
    | none => none
    | some old =>
        match prev.fields.get? ⟨old⟩ with
        | none => none
        | some prevField =>
            if !prevField.hasColumn || !field.hasColumn then none
            else some ⟨newName, field, ⟨old⟩, prevField⟩

def renamed (prev next : Model) : List FieldName := (hints prev next).map Hint.newName

def consumed (prev next : Model) : List FieldName := (hints prev next).map Hint.oldName

-- The hinted field is compared with the previous one under its new name.
def hintChanges (model : ModelName) (h : Hint) : List Change :=
  .renameColumn model h.oldName h.newName h.prevField.column h.field.column ::
    alterIfChanged model { h.prevField with name := h.newName, column := h.field.column } h.field

def addedColumns (prev next : Model) : List Field :=
  next.fields.entries.filterMap fun (name, field) =>
    if name ∉ renamed prev next ∧ field.hasColumn ∧ name ∉ prev.fields.keys then some field else none

-- A field renamed onto the name of this one replaces it.
def droppedColumns (prev next : Model) : List Field :=
  prev.fields.entries.filterMap fun (name, field) =>
    if name ∉ consumed prev next ∧ field.hasColumn ∧
      (name ∉ next.fields.keys ∨ name ∈ renamed prev next) then some field else none

-- The column fields of both models that no hint speaks of.
def keptColumns (prev next : Model) : List (FieldName × Field × Field) :=
  next.fields.entries.filterMap fun (name, nextField) =>
    if name ∉ renamed prev next ∧ nextField.hasColumn then
      match prev.fields.get? name with
      | some prevField => if prevField.hasColumn then some (name, prevField, nextField) else none
      | none => none
    else none

def keptChanges (model : ModelName) (name : FieldName) (prevField nextField : Field) :
    List Change :=
  (if prevField.column ≠ nextField.column then
    [.renameColumn model name name prevField.column nextField.column] else []) ++
    alterIfChanged model prevField nextField

def diffColumns (model : ModelName) (prev next : Model) : List Change :=
  (hints prev next).flatMap (hintChanges model) ++
  (addedColumns prev next).map (.addColumn model) ++
  (droppedColumns prev next).map (fun f => .dropColumn model f.column) ++
  (keptColumns prev next).flatMap fun (name, prevField, nextField) =>
    keptChanges model name prevField nextField

-- Derived equality again, spans included.
def diffIndexes (model : ModelName) (prev next : Model) : List Change :=
  (next.indexes.filter (fun ix => ix ∉ prev.indexes)).map (.createIndex model) ++
  (prev.indexes.filter (fun ix => ix ∉ next.indexes)).map (fun ix => .dropIndex model ix.dbName)

def diffUniques (model : ModelName) (prev next : Model) : List Change :=
  (next.uniques.filter (fun uq => uq ∉ prev.uniques)).map (.addUnique model) ++
  (prev.uniques.filter (fun uq => uq ∉ next.uniques)).map (fun uq => .dropUnique model uq.dbName)

-- The comparison of a model with the one of its name before.
def diffModel (prev : Schema) (name : ModelName) (nextModel : Model) : List Change :=
  match prev.models.get? name with
  | none => []
  | some prevModel => diffColumns name prevModel nextModel ++ diffIndexes name prevModel nextModel ++
      diffUniques name prevModel nextModel

def diffModels (prev next : Schema) : List Change :=
  (next.models.entries.filter (fun (name, _) => !prev.models.contains name)).map
    (fun (_, m) => .createModel m) ++
  (prev.models.entries.filter (fun (name, _) => !next.models.contains name)).map
    (fun (name, m) => .dropModel name m.table) ++
  next.models.entries.flatMap fun e => diffModel prev e.1 e.2

-- The relations that have a foreign key of their own.
def foreignKeys (s : Schema) : List ResolvedRelation :=
  s.relations.filter (fun r => r.kind ≠ .manyToMany)

-- By name, a later relation in place of an earlier one.
def relationMap (s : Schema) : IndexMap String ResolvedRelation :=
  (foreignKeys s).foldl (fun m r => m.insert r.name r) .empty

def relationChanged (p r : ResolvedRelation) : Bool :=
  p.onDelete ≠ r.onDelete ∨ p.onUpdate ≠ r.onUpdate ∨ p.ownerCols ≠ r.ownerCols ∨
    p.target ≠ r.target ∨ p.targetCols ≠ r.targetCols ∨ p.constraintName ≠ r.constraintName

def diffRelations (host : Host) (prev next : Schema) : List Change :=
  let prevMap := relationMap prev
  let nextMap := relationMap next
  (host.nextRelations.order nextMap.entries).flatMap (fun (name, r) =>
    match prevMap.get? name with
    | none => [.addForeignKey r.owner r]
    | some p => if relationChanged p r then [.dropForeignKey p.owner p, .addForeignKey r.owner r]
        else []) ++
  (host.prevRelations.order prevMap.entries).flatMap fun (name, r) =>
    -- DROP TABLE takes the foreign keys of a dropped model along.
    if r.owner ∈ prev.models.keys ∧ r.owner ∉ next.models.keys then []
    else if name ∉ nextMap.keys then [.dropForeignKey r.owner r] else []

def diff (host : Host) (prev next : Schema) : List Change :=
  diffEnums prev next ++ diffModels prev next ++ diffRelations host prev next

end Diff

end Ruprizzle
