import Ruprizzle.Codegen.Creates
import Ruprizzle.Runtime.ManyToMany

namespace Ruprizzle.Codegen

open Ruprizzle.Runtime hiding Model

-- The helpers that are generated for a field with a foreign key behind it: its
-- include, and filters by some, none and every one of the rows it leads to.

def findFieldByColumn (m : Model) (column : String) : Option Field :=
  m.fields.values.find? fun f => f.hasColumn && f.column = column

def scalarTypeTokens : ScalarType → String
  | .string => "String"
  | .int => "i32"
  | .bigInt => "i64"
  | .float => "f64"
  | .decimal => "Decimal"
  | .boolean => "bool"
  | .dateTime => "DateTime < Utc >"
  | .date => "NaiveDate"
  | .time => "NaiveTime"
  | .uuid => "Uuid"
  | .json => "JsonValue"
  | .bytes => "Vec < u8 >"
  | .point => ":: ruprizzle :: spatial :: Point"
  | .polygon => ":: ruprizzle :: spatial :: Polygon"
  | .multiPolygon => ":: ruprizzle :: spatial :: MultiPolygon"
  | .lineString => ":: ruprizzle :: spatial :: LineString"

-- Keys have columns, so that no type of a relation is asked for.
def relationKeyType (f : Field) : String :=
  match f.kind with
  | .scalar st => scalarTypeTokens st
  | .enum name => "super :: enums :: " ++ name.str
  | .list (.scalar st) => "Vec < " ++ scalarTypeTokens st ++ " >"
  | .list (.enum name) => "Vec < super :: enums :: " ++ name.str ++ " >"
  | _ => "()"

def resolvedRelation (s : Schema) (f : Field) : Option ResolvedRelation :=
  f.relation.bind fun ref => ref.resolved.bind fun i => s.relations[i]?

def deletedAtColumn (m : Model) : Option String :=
  (m.fields.values.find? fun f => f.attrs.isDeletedAt).map Field.column

-- The constants of a generated model.
def entity (m : Model) : Runtime.Model :=
  ⟨m.table, m.scalarFields.map Field.column, primaryKey m, deletedAtColumn m⟩

-- A relation as one of its sides sees it: the columns of the parent, which the
-- field is in, and those of the child.
structure Direction where
  parent : ModelName
  child : ModelName
  parentCols : List String
  childCols : List String

def direction (rel : ResolvedRelation) (isOwner : Bool) : Direction :=
  if isOwner then ⟨rel.owner, rel.target, rel.ownerCols, rel.targetCols⟩
  else ⟨rel.target, rel.owner, rel.targetCols, rel.ownerCols⟩

-- The side is told from the model.
def ownsByModel (m : Model) (rel : ResolvedRelation) : Bool := m.name = rel.owner

structure RelationHelper where
  isList : Bool
  parentKey : Field
  child : Model
  childKey : Field
  deriving DecidableEq, Repr

-- emit_relation_helper, where there is no join model.
def emitRelationHelper (s : Schema) (m : Model) (f : Field) : Option RelationHelper := do
  let rel ← resolvedRelation s f
  let side := direction rel (ownsByModel m rel)
  let parentCol ← side.parentCols.head?
  let childCol ← side.childCols.head?
  let parentModel ← s.models.get? side.parent
  let childModel ← s.models.get? side.child
  let parentKey ← findFieldByColumn parentModel parentCol
  let childKey ← findFieldByColumn childModel childCol
  if rel.kind = .manyToMany ∨ parentKey.optional = true ∨ childKey.optional = true ∨
      relationKeyType parentKey ≠ relationKeyType childKey then none
  else some ⟨f.isList, parentKey, childModel, childKey⟩

structure QuantifierHelpers where
  childTable : String
  childCol : String
  parentTable : String
  parentCol : String
  deletedAt : Option String
  deriving DecidableEq, Repr

def emitRelationFilterHelpers (s : Schema) (m : Model) (f : Field) : Option QuantifierHelpers := do
  let rel ← resolvedRelation s f
  let side := direction rel (ownsByModel m rel)
  let parentCol ← side.parentCols.head?
  let childCol ← side.childCols.head?
  let childModel ← s.models.get? side.child
  if rel.kind = .manyToMany then none
  else some ⟨childModel.table, childCol, m.table, parentCol, deletedAtColumn childModel⟩

variable {S Key : Type}

namespace QuantifierHelpers

variable (q : QuantifierHelpers)

-- A soft-deleted child does not count.
def live (f : FilterNode S) : FilterNode S :=
  match q.deletedAt with
  | some col => Filter.and f (.null q.childTable col false)
  | none => f

def exists_ (f : FilterNode S) (negated : Bool) : FilterNode S :=
  .exists_ q.childTable q.childCol q.parentTable q.parentCol (q.live f) negated

def some_ (f : FilterNode S) : FilterNode S := q.exists_ f false

def none_ (f : FilterNode S) : FilterNode S := q.exists_ f true

def every (f : FilterNode S) : FilterNode S := q.exists_ (.not f) true

end QuantifierHelpers

-- How values are decoded to keys, which are equal where the database finds the
-- values equal.
structure Codec (engine : Engine) (Key : Type) where
  decode : Value → Key
  encode : Key → Value
  encode_value : ∀ k, (encode k).isNull = false
  decode_encode : ∀ k, decode (encode k) = k
  same : ∀ v w, v.isNull = false → w.isNull = false →
    (engine.compare .eq v w = .yes ↔ decode v = decode w)

-- The include of the helper, for rows of the model.
def RelationHelper.include_ {engine : Engine} (h : RelationHelper) (codec : Codec engine Key) :
    Include S Row Key where
  getKey row := codec.decode (row h.parentKey.column)
  child := entity h.child
  childColumn := h.childKey.column
  childKey row := codec.decode (row h.childKey.column)
  toValue := codec.encode
  filter := .and []
  order := []
  limit := none

-- What a field relates its rows to, of which the source has no definition: all the
-- columns count, and on a self relation the field that owns it tells the side.

def ownSide (m : Model) (f : Field) (rel : ResolvedRelation) : Bool :=
  m.name = rel.owner ∧ (rel.owner = rel.target → f.name = rel.ownerField)

structure Along where
  rel : ResolvedRelation
  child : Model
  pairs : List (String × String)
  deriving DecidableEq, Repr

def along (s : Schema) (m : Model) (f : Field) : Option Along := do
  let rel ← resolvedRelation s f
  let side := direction rel (ownSide m f rel)
  let child ← s.models.get? side.child
  return ⟨rel, child, side.parentCols.zip side.childCols⟩

namespace Along

variable (a : Along)

-- A live row that a row leads to.
def leads (engine : Engine) (parent child : Row) : Bool :=
  (a.pairs.all fun pair => engine.compare .eq (child pair.2) (parent pair.1) = .yes) &&
    child.live (deletedAtColumn a.child)

def related (engine : Engine) (db : Database) (parent : Row) : List Row :=
  (db a.child.table).filter (a.leads engine parent)

-- A row of another model through a single pair of columns.
def Plain : Prop :=
  a.rel.owner ≠ a.rel.target ∧ ∀ p ∈ a.pairs, ∀ p' ∈ a.pairs, p = p'

-- No live row has the keys, for one is what a row is deleted by.
def Hidden (m : Model) : Prop :=
  ∃ col ∈ deletedAtColumn a.child, col ∈ a.pairs.map Prod.snd ∧
    ((direction a.rel (ownsByModel m a.rel)).childCols.head? = some col ∨
      a.rel.owner = a.rel.target ∧
        (direction a.rel (ownsByModel m a.rel)).parentCols.head? = some col)

end Along

-- Columns of required fields hold values.
def Required (s : Schema) (db : Database) : Prop :=
  ∀ m ∈ s.models.values, ∀ f ∈ m.scalarFields, f.optional = false →
    ∀ row ∈ db m.table, (row f.column).isNull = false

section

variable (answers : Answers S) (db : Database)

def onDb : Answers S := { answers with db := db }

-- What a filter says of a row of the child, the rows around it being in place.
def truthOf (env : Env) (table : String) (f : FilterNode S) (row : Row) : Truth :=
  answers.engine.truth db answers.d (env.bind table row) (f.words answers.d answers.reading)

def selected (env : Env) (f : FilterNode S) : Prop :=
  answers.engine.truth db answers.d env (f.words answers.d answers.reading) = .yes

-- The filters select the rows that some, none and every row they lead to is let
-- through for.
structure Selects (q : QuantifierHelpers) (a : Along) (m : Model) (env : Env) (f : FilterNode S) :
    Prop where
  some_ : selected answers db env (q.some_ f) ↔
    ∃ row ∈ a.related answers.engine db (env m.table), truthOf answers db env a.child.table f row = .yes
  none_ : selected answers db env (q.none_ f) ↔
    ∀ row ∈ a.related answers.engine db (env m.table), truthOf answers db env a.child.table f row ≠ .yes
  every : selected answers db env (q.every f) ↔
    ∀ row ∈ a.related answers.engine db (env m.table), truthOf answers db env a.child.table f row = .yes

-- A row that the filter leaves open is not the only reason against every row.
def Decided (a : Along) (m : Model) (env : Env) (f : FilterNode S) : Prop :=
  (∃ row ∈ a.related answers.engine db (env m.table),
      truthOf answers db env a.child.table f row = .unknown) →
    ∃ row ∈ a.related answers.engine db (env m.table), truthOf answers db env a.child.table f row = .no

-- An include loads for each row the rows it leads to, or one of them.
def Loads [DecidableEq Key] (h : RelationHelper) (codec : Codec answers.engine Key) (a : Along)
    (m : Model) : Prop :=
  ∀ fullTable fullTableLimit parents, (∀ row ∈ parents, row ∈ db m.table) →
    if h.isList then
      (∃ buckets, (h.include_ codec).LoadsList (onDb answers db) fullTable fullTableLimit parents buckets) ∧
      ∀ buckets, (h.include_ codec).LoadsList (onDb answers db) fullTable fullTableLimit parents buckets →
        List.Forall₂ (fun row (served : List Row) => served.Perm (a.related answers.engine db row)) parents buckets
    else
      (∃ found, (h.include_ codec).LoadsOne (onDb answers db) fullTable fullTableLimit parents found) ∧
      ∀ found, (h.include_ codec).LoadsOne (onDb answers db) fullTable fullTableLimit parents found →
        List.Forall₂ (fun row child => ∃ served : List Row, served.Perm (a.related answers.engine db row) ∧
          child = served.head?) parents found

end

end Ruprizzle.Codegen
