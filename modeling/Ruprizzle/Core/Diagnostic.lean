import Ruprizzle.Core.Names

namespace Ruprizzle

-- One variant per validation rule. The advice texts are not kept: no part of
-- the toolchain reads them back.
inductive SchemaError
  | syntaxError (message : String) (span : Span) (context : String)
  | unknownType (found : String) (span : Span)
  | unknownProvider (found supported : String) (span : Span)
  | missingPrimaryKey (model : String) (span : Span)
  | multiplePrimaryKeys (model : String) (span first : Span)
  | duplicateDecl (name : String) (span first : Span)
  | duplicateField (model field : String) (span first : Span)
  | unknownRelationField (model field missing : String) (span : Span)
  | invalidRelationTarget (model field target missing : String) (span : Span)
  | relationTypeMismatch (model field found expected : String) (span : Span)
  | ambiguousRelation (model target : String) (span first : Span)
  | missingRelationOwner (model target : String) (span : Span)
  | missingBackRelation (model field target backName : String) (span : Span)
  | throughOnNonList (model field : String) (span : Span)
  | throughWithFields (model field : String) (span : Span)
  | invalidJoinModel (through owner target : String) (span : Span)
  | defaultTypeMismatch (expected : String) (span : Span)
  | invalidAttributeTarget (attr found : String) (span : Span)
  | unknownIndexField (model attr missing : String) (span : Span)
  | unknownAttribute (attr location : String) (span : Span)
  | relationNullabilityMismatch (model field fk fkType : String) (span : Span)
  | emptyEnum (name : String) (span : Span)
  | duplicateVariant (name variant : String) (span first : Span)
  | nameCollision (a b physical : String) (span : Span)
  | reservedKeyword (field : String) (span : Span)
  deriving DecidableEq, Repr

namespace SchemaError

-- V17 is the one rule of the parser whose severity is a warning.
def isWarning : SchemaError → Bool
  | reservedKeyword _ _ => true
  | _ => false

end SchemaError

-- What has been reported so far, errors and warnings in the order pushed.
abbrev Diagnostics := List SchemaError

def Diagnostics.errors (diags : Diagnostics) : List SchemaError :=
  diags.filter (fun d => !d.isWarning)

theorem Diagnostics.errors_append (a b : Diagnostics) :
    Diagnostics.errors (a ++ b) = Diagnostics.errors a ++ Diagnostics.errors b :=
  List.filter_append _ _

end Ruprizzle
