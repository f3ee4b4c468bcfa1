import Ruprizzle.Parser.Lower

namespace Ruprizzle.Lower

-- Pass 3: the two ends of every relation are paired and the owner assigned.

-- One end of a relation as written.
structure Side where
  model : ModelName
  field : FieldName
  target : ModelName
  relName : Option String
  -- The join model this end belongs to, as a through list or as a key of it.
  joinModel : Option ModelName
  isOwner : Bool
  isList : Bool
  optional : Bool
  span : Span
  deriving DecidableEq, Repr

-- What the pass writes to: the models it marks, the relations found so far.
structure Pass where
  models : IndexMap ModelName Model
  relations : List ResolvedRelation
  diags : Diagnostics
  deriving Repr

def Pass.report (p : Pass) (d : Diagnostics) : Pass := { p with diags := p.diags ++ d }

def isJoinFkSide (model target : Model) (rel : RelationRef) : Bool :=
  rel.through.isNone && !rel.fields.isEmpty &&
    target.fields.values.any (fun f =>
      match f.relation with
      | some r => decide (r.through = some model.name)
      | none => false)

-- Either a side, or a problem with the join model it poisons.
def side (models : IndexMap ModelName Model) (model : Model) (field : Field) (rel : RelationRef) :
    Side ⊕ (ModelName × SchemaError) :=
  match rel.through with
  | some t =>
      if !field.isList then .inr (t, .throughOnNonList model.name.str field.name.str rel.span)
      else if !rel.fields.isEmpty then
        .inr (t, .throughWithFields model.name.str field.name.str rel.span)
      else .inl
        { model := model.name, field := field.name, target := rel.target, relName := rel.name
          joinModel := some t, isOwner := false, isList := field.isList
          optional := field.optional, span := rel.span }
  | none => .inl
      { model := model.name, field := field.name, target := rel.target, relName := rel.name
        joinModel := match models.get? rel.target with
          | some target => if isJoinFkSide model target rel then some model.name else none
          | none => none
        isOwner := !rel.fields.isEmpty, isList := field.isList
        optional := field.optional, span := rel.span }

-- The early skip of the source's loop is subsumed by the final retain.
def collectSides (models : IndexMap ModelName Model) : List Side × Diagnostics :=
  let ends := models.values.flatMap fun model =>
    model.fields.values.filterMap fun field =>
      field.relation.map fun rel => side models model field rel
  let poisoned := ends.filterMap fun | .inr (t, _) => some t | .inl _ => none
  let sides := ends.filterMap fun | .inl s => some s | .inr _ => none
  (sides.filter (fun s => match s.joinModel with
      | some m => !poisoned.contains m
      | none => true),
    ends.filterMap fun | .inr (_, e) => some e | .inl _ => none)

-- The key field, if it exists and bears a column.
def fkField (model : Model) (name : FieldName) : Option Field :=
  (model.fields.get? name).filter (fun f => f.hasColumn && f.relation.isNone)

-- V06: the referenced field is part of the key or unique by itself.
def isReferenceable (target : Model) (name : FieldName) (f : Field) : Bool :=
  target.primaryKey.fields.contains name || f.attrs.isUnique ||
    target.uniques.any (fun u => match u.targets with
      | [.field n _] => n = name
      | _ => false)

def refField (target : Model) (name : FieldName) : Option Field :=
  (target.fields.get? name).filter (fun f => isReferenceable target name f)

def buildRelation (owner : Side) (back : Option Side) (models : IndexMap ModelName Model) :
    Option ResolvedRelation × Diagnostics :=
  match models.get? owner.model, models.get? owner.target with
  | some ownerModel, some targetModel =>
      match (ownerModel.fields.get? owner.field).bind Field.relation with
      | none => (none, [])
      | some rel =>
          match rel.fields.find? (fun n => (fkField ownerModel n).isNone) with
          -- V05
          | some missing => (none,
              [.unknownRelationField owner.model.str owner.field.str missing.str rel.span])
          | none =>
              let fkFields := rel.fields.filterMap (fkField ownerModel)
              let referenceNames := if rel.references.isEmpty then targetModel.primaryKey.fields
                else rel.references
              match referenceNames.find? (fun n => (refField targetModel n).isNone) with
              -- V06
              | some missing => (none,
                  [.invalidRelationTarget owner.model.str owner.field.str owner.target.str
                    missing.str rel.span])
              | none =>
                  let refFields := referenceNames.filterMap (refField targetModel)
                  if fkFields.length ≠ refFields.length then (none,
                    [.invalidRelationTarget owner.model.str owner.field.str owner.target.str
                      (toString refFields.length ++ " reference(s) for " ++
                        toString fkFields.length ++ " foreign key field(s)") rel.span])
                  else
                    -- V07
                    let mismatches : Diagnostics := (fkFields.zip refFields).filterMap
                      fun (fk, target) => if fk.kind ≠ target.kind then
                        some (.relationTypeMismatch owner.model.str fk.name.str
                          (describeKind fk.kind) (describeKind target.kind) fk.span) else none
                    -- V13
                    let required : Diagnostics := if owner.optional then
                      (fkFields.filter (fun fk => !fk.optional)).map fun fk =>
                        .relationNullabilityMismatch owner.model.str owner.field.str fk.name.str
                          (describeKind fk.kind) fk.span
                      else []
                    let ownerCols := fkFields.map Field.column
                    (some
                      { name := rel.name.getD (owner.model.str ++ "To" ++ owner.target.str)
                        kind := if (back.map Side.isList).getD false then .manyToOne else .oneToOne
                        owner := owner.model
                        ownerCols
                        ownerField := owner.field
                        target := owner.target
                        targetTable := targetModel.table
                        targetCols := refFields.map Field.column
                        targetField := back.map Side.field
                        onDelete := rel.onDelete.getD (if owner.optional then .setNull else .restrict)
                        onUpdate := rel.onUpdate.getD .cascade
                        optional := owner.optional
                        constraintName := Naming.foreignKeyName ownerModel.table ownerCols
                        span := rel.span
                        joinModel := none
                        joinOwnerField := none
                        joinTargetField := none }, mismatches ++ required)
  | _, _ => (none, [])

def FieldKind.mapRelation (g : RelationRef → RelationRef) : FieldKind → FieldKind
  | .relation r => .relation (g r)
  | .list (.relation r) => .list (.relation (g r))
  | kind => kind

-- Writes through relation_mut at one field of one model.
def modifyRelation (models : IndexMap ModelName Model) (model : ModelName) (field : FieldName)
    (g : RelationRef → RelationRef) : IndexMap ModelName Model :=
  models.modify model fun m =>
    { m with fields := m.fields.modify field fun f => { f with kind := FieldKind.mapRelation g f.kind } }

def markResolved (models : IndexMap ModelName Model) (model : ModelName) (field : FieldName)
    (index : Nat) : IndexMap ModelName Model :=
  modifyRelation models model field fun r => { r with resolved := some index }

-- Records a resolved relation and marks the fields that navigate it.
def Pass.push (p : Pass) (r : ResolvedRelation) (ends : List (ModelName × FieldName)) : Pass :=
  { p with
    models := ends.foldl (fun models (m, f) => markResolved models m f p.relations.length) p.models
    relations := p.relations ++ [r] }

-- The columns of the join table behind a list of its foreign key fields.
def joinColumns (through : Model) (names : List FieldName) : List String :=
  names.filterMap fun n => (through.fields.get? n).map Field.column

def buildManyToManyRelation (owner back : Side) (fks : List Side)
    (models : IndexMap ModelName Model) : Option ResolvedRelation × Diagnostics :=
  match owner.joinModel.bind (fun t => (models.get? t).map fun m => (t, m)) with
  | none => (none, [])
  | some (throughName, throughModel) =>
      match fks.find? (fun s => s.target = owner.model), fks.find? (fun s => s.target = back.model) with
      | none, _ => (none,
          [.invalidJoinModel throughName.str owner.model.str back.model.str owner.span])
      | some _, none => (none,
          [.invalidJoinModel throughName.str owner.model.str back.model.str back.span])
      | some ownerFk, some targetFk =>
          match (throughModel.fields.get? ownerFk.field).bind Field.relation,
            (throughModel.fields.get? targetFk.field).bind Field.relation with
          | some ownerFkRel, some targetFkRel =>
              (some
                { name := owner.relName.getD
                    (owner.model.str ++ "To" ++ back.model.str ++ "Via" ++ throughName.str)
                  kind := .manyToMany
                  owner := owner.model
                  ownerCols := joinColumns throughModel ownerFkRel.fields
                  ownerField := owner.field
                  target := back.model
                  targetTable := throughModel.table
                  targetCols := joinColumns throughModel targetFkRel.fields
                  targetField := some back.field
                  onDelete := ownerFkRel.onDelete.getD .restrict
                  onUpdate := ownerFkRel.onUpdate.getD .cascade
                  optional := false
                  constraintName := Naming.foreignKeyName throughModel.table []
                  span := owner.span
                  joinModel := some throughName
                  joinOwnerField := some ownerFk.field
                  joinTargetField := some targetFk.field }, [])
          | _, _ => (none, [])

-- A key column of the synthesised join table.
def joinColumn (name column : String) (pk : Field) : Field where
  name := ⟨name⟩
  column := column
  kind := pk.kind
  optional := false
  default := none
  attrs := {}
  generated := none
  docs := none
  span := Span.EMPTY

-- The navigation property over one key column of the synthesised join table.
def joinRelation (name column : String) (target : ModelName) (pk : FieldName) : Field where
  name := ⟨name⟩
  column := ""
  kind := .relation
    { target, name := none, through := none, fields := [⟨column⟩], references := [pk]
      onDelete := some .cascade, onUpdate := some .cascade, resolved := none, span := Span.EMPTY }
  optional := false
  default := none
  attrs := {}
  generated := none
  docs := none
  span := Span.EMPTY

def syntheticModel (name : ModelName) (a b : ModelName) (pkNameA pkNameB : FieldName)
    (pkA pkB : Field) : Model where
  name := name
  table := name.str
  fields := (((IndexMap.empty.insert ⟨"a"⟩ (joinColumn "a" "A" pkA)).insert ⟨"b"⟩
    (joinColumn "b" "B" pkB)).insert ⟨"a_rel"⟩ (joinRelation "a_rel" "a" a pkNameA)).insert
      ⟨"b_rel"⟩ (joinRelation "b_rel" "b" b pkNameB)
  primaryKey := ⟨[⟨"a"⟩, ⟨"b"⟩], none, Span.EMPTY⟩
  indexes := [⟨name.str ++ "_B_index", [.field ⟨"b"⟩ .asc], none, none, Span.EMPTY⟩]
  uniques := []
  docs := some "Synthesized implicit join model for many-to-many relation."
  span := Span.EMPTY

-- The foreign key of the join table over its column A or B.
def joinForeignKey (join : ModelName) (suffix column : String) (target : Model)
    (targetName : ModelName) (pk : Field) : ResolvedRelation where
  name := join.str ++ "_" ++ suffix
  kind := .manyToOne
  owner := join
  ownerCols := [column]
  ownerField := ⟨suffix ++ "_rel"⟩
  target := targetName
  targetTable := target.table
  targetCols := [pk.column]
  targetField := none
  onDelete := .cascade
  onUpdate := .cascade
  optional := false
  constraintName := Naming.foreignKeyName join.str [column]
  span := Span.EMPTY
  joinModel := none
  joinOwnerField := none
  joinTargetField := none

-- The many-to-many relation as one of its two list fields sees it. The side
-- whose model comes first owns column A.
def implicitManyToMany (join first : ModelName) (s other : Side) : ResolvedRelation :=
  let ownsA := s.model = first
  { name := s.relName.getD (s.model.str ++ "To" ++ s.target.str)
    kind := .manyToMany
    owner := s.model
    ownerCols := [if ownsA then "A" else "B"]
    ownerField := s.field
    target := s.target
    targetTable := join.str
    targetCols := [if ownsA then "B" else "A"]
    targetField := some other.field
    onDelete := .cascade
    onUpdate := .cascade
    optional := false
    constraintName := Naming.foreignKeyName join.str []
    span := s.span
    joinModel := some join
    joinOwnerField := some (if ownsA then ⟨"a_rel"⟩ else ⟨"b_rel"⟩)
    joinTargetField := some (if ownsA then ⟨"b_rel"⟩ else ⟨"a_rel"⟩) }

-- The key of an end of an implicit relation: its model and first key field.
def implicitKey (models : IndexMap ModelName Model) (name : ModelName) :
    Option (Model × FieldName × Field) := do
  let model ← models.get? name
  let pkName ← model.primaryKey.fields.head?
  let pk ← model.fields.get? pkName
  return (model, pkName, pk)

def resolveImplicitManyToMany (p : Pass) (sideA sideB : Side) : Pass :=
  let (mA, mB) := if ¬ sideB.model.str < sideA.model.str then (sideA.model, sideB.model)
    else (sideB.model, sideA.model)
  let joinName := match sideA.relName with
    | some name => "_" ++ mA.str ++ "To" ++ mB.str ++ "_" ++ name
    | none => "_" ++ mA.str ++ "To" ++ mB.str
  match implicitKey p.models mA, implicitKey p.models mB with
  | some (modelA, pkNameA, pkA), some (modelB, pkNameB, pkB) =>
      let join : ModelName := ⟨joinName⟩
      let models := p.models.insert join (syntheticModel join mA mB pkNameA pkNameB pkA pkB)
      let through (r : RelationRef) : RelationRef := { r with through := some join }
      let models := modifyRelation models sideA.model sideA.field through
      let models := modifyRelation models sideB.model sideB.field through
      ({ p with models }.push (joinForeignKey join "a" "A" modelA mA pkA) [(join, ⟨"a_rel"⟩)]
        |>.push (joinForeignKey join "b" "B" modelB mB pkB) [(join, ⟨"b_rel"⟩)]
        |>.push (implicitManyToMany join mA sideA sideB) [(sideA.model, sideA.field)]
        |>.push (implicitManyToMany join mA sideB sideA) [(sideB.model, sideB.field)])
  | _, _ => p

def resolveGroup (p : Pass) (group : List Side) : Pass :=
  match group, group.filter Side.isOwner with
  -- V08: more than two ends, or two owners, conflate unnamed relations.
  | _ :: _ :: _ :: _, first :: second :: _ | [_, _], first :: second :: _ =>
      p.report [.ambiguousRelation second.model.str second.target.str second.span first.span]
  | first :: second :: _ :: _, _ =>
      p.report [.ambiguousRelation second.model.str second.target.str second.span first.span]
  | [first, second], [] =>
      if first.isList && second.isList then resolveImplicitManyToMany p first second
      else p.report [.missingRelationOwner first.model.str first.target.str first.span]
  | [first], [] => p.report [.missingRelationOwner first.model.str first.target.str first.span]
  | [first, second], owner :: _ =>
      let back := if first.isOwner then second else first
      let (resolved, diags) := buildRelation owner (some back) p.models
      match resolved with
      | some r => (p.report diags).push r [(owner.model, owner.field), (back.model, back.field)]
      | none => p.report diags
  | [_], owner :: _ =>
      p.report [.missingBackRelation owner.model.str owner.field.str owner.target.str
        (Naming.pluralize (Naming.snakeCase owner.model.str)) owner.span]
  | [], _ => p

-- One relation built from a side, recorded under the field of that side.
def Pass.pushBuilt (p : Pass) (s : Side) (built : Option ResolvedRelation × Diagnostics) : Pass :=
  match built.1 with
  | some r => (p.report built.2).push r [(s.model, s.field)]
  | none => p.report built.2

def resolveThroughGroup (p : Pass) (group : List Side) : Pass :=
  let lists := group.filter (fun s => !s.isOwner)
  let fks := group.filter Side.isOwner
  match group, lists, fks with
  | [_, _, _, _], [a, b], [_, _] =>
      if a.model ≠ b.target ∨ b.model ≠ a.target then
        p.report [.missingBackRelation a.model.str a.field.str a.target.str (a.target.str ++ "[]")
          a.span]
      else
        -- The join model's own two keys first, then one relation for each list.
        let p := fks.foldl (fun p fk =>
          p.pushBuilt fk (buildRelation fk (lists.find? (fun s => s.model = fk.target)) p.models)) p
        let p := p.pushBuilt a (buildManyToManyRelation a b fks p.models)
        p.pushBuilt b (buildManyToManyRelation b a fks p.models)
  | first :: _, _, _ =>
      p.report [.invalidJoinModel ((first.joinModel.map ModelName.str).getD "") first.model.str
        first.target.str first.span]
  | [], _, _ => p

-- The values of a grouping, in the order their keys were first met.
def groups {κ α : Type} [DecidableEq κ] (key : α → κ) (items : List α) : List (List α) :=
  (items.foldl (fun (m : IndexMap κ (List α)) a =>
    m.insert (key a) ((m.get? (key a)).getD [] ++ [a])) .empty).values

-- The explicit name, and the two models in either order.
def groupKey (s : Side) : Option String × String × String :=
  if ¬ s.target.str < s.model.str then (s.relName, s.model.str, s.target.str)
  else (s.relName, s.target.str, s.model.str)

def resolveRelations (models : IndexMap ModelName Model) : Pass :=
  let (sides, diags) := collectSides models
  let regular := sides.filter (fun s => s.joinModel.isNone)
  let through := sides.filter (fun s => s.joinModel.isSome)
  let p := (groups groupKey regular).foldl resolveGroup ⟨models, [], diags⟩
  (groups (fun s => (s.relName, s.joinModel)) through).foldl resolveThroughGroup p

end Ruprizzle.Lower
