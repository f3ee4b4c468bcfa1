import Ruprizzle.Core.Ir

namespace Ruprizzle

inductive ColumnAspect
  | type
  | nullability
  | default
  | identity
  deriving DecidableEq, Repr

-- A single schema change.
inductive Change
  | createEnum (e : EnumDef)
  | dropEnum (name : EnumName) (dbName : String)
  | addEnumVariant (enum : EnumName) (variant : String)
  | dropEnumVariant (enum : EnumName) (variant : String)
  | createModel (m : Model)
  | dropModel (name : ModelName) (table : String)
  | renameModel (fromName toName : ModelName) (newTable : String)
  | addColumn (model : ModelName) (field : Field)
  | dropColumn (model : ModelName) (column : String)
  | alterColumn (model : ModelName) (fromField toField : Field) (aspects : List ColumnAspect)
  | renameColumn (model : ModelName) (fromName toName : FieldName) (fromColumn toColumn : String)
  | createIndex (model : ModelName) (ix : IndexDef)
  | dropIndex (model : ModelName) (name : String)
  | addUnique (model : ModelName) (uq : UniqueDef)
  | dropUnique (model : ModelName) (name : String)
  | addForeignKey (model : ModelName) (r : ResolvedRelation)
  | dropForeignKey (model : ModelName) (r : ResolvedRelation)
  deriving DecidableEq, Repr

-- The description of a change that can delete user data, none for the others.
def Change.destructive : Change → Option String
  | dropEnum name _ => some ("DROP ENUM " ++ name.str)
  | dropEnumVariant enum variant => some ("DROP ENUM VARIANT " ++ enum.str ++ "." ++ variant)
  | dropModel name table => some ("DROP TABLE " ++ table ++ " (" ++ name.str ++ ")")
  | dropColumn model column => some ("DROP COLUMN " ++ model.str ++ "." ++ column)
  | dropIndex model name => some ("DROP INDEX " ++ name ++ " ON " ++ model.str)
  | dropUnique model name => some ("DROP UNIQUE " ++ name ++ " ON " ++ model.str)
  | dropForeignKey model r => some ("DROP FOREIGN KEY " ++ r.constraintName ++ " ON " ++ model.str)
  | _ => none

end Ruprizzle
