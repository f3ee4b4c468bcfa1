import Ruprizzle.Core.Diagnostic
import Ruprizzle.Core.Ir
import Ruprizzle.Data.Text
import Ruprizzle.Parser.Ast
import Ruprizzle.Parser.Naming

namespace Ruprizzle.Lower

open Ast Text

-- Passes 1, 2 and the keys and indexes of a model. Lowering never stops at a
-- problem: each function returns what it built and what it reported.

inductive DeclKind
  | model
  | enum
  deriving DecidableEq, Repr

abbrev NameEnv := IndexMap String (DeclKind × Span)

def collectNames (ast : Ast) : NameEnv × Diagnostics :=
  let declared := ast.enums.map (fun e => (e.name, DeclKind.enum, e.nameSpan)) ++
    ast.models.map (fun m => (m.name, DeclKind.model, m.nameSpan))
  declared.foldl (fun (kinds, diags) (name, kind, span) =>
    match kinds.get? name with
    | none => (kinds.insert name (kind, span), diags)
    -- V03: models and enums share one namespace.
    | some (_, first) => (kinds, diags ++ [.duplicateDecl name span first])) (.empty, [])

def missingBlock (kind : String) : SchemaError :=
  .syntaxError ("schema has no `" ++ kind ++ "` block") (Span.new 0 1) ("`" ++ kind ++ "` is required")

def configError (message : String) (span : Span) : SchemaError :=
  .syntaxError message span "invalid configuration"

def fallbackDatasource : Datasource where
  name := "db"
  provider := .postgres
  url := .env "DATABASE_URL"
  extensions := []
  span := Span.EMPTY

def lowerProvider (block : Block) : Provider × Diagnostics :=
  match (block.get "provider").map ConfigEntry.value with
  | some (.str s span) =>
      match Provider.parse s with
      | some p => (p, [])
      -- V15
      | none => (.postgres,
          [.unknownProvider s (", ".intercalate (Provider.ALL.map Provider.asStr)) span])
  | some other => (.postgres, [configError "`provider` must be a quoted string" other.span])
  | none => (.postgres, [configError "`datasource` block has no `provider`" block.span])

def lowerUrl (block : Block) : DatasourceUrl × Diagnostics :=
  match (block.get "url").map ConfigEntry.value with
  | some (.env var _) => (.env var, [])
  | some (.str s _) => (.literal s, [])
  | some other => (.env "DATABASE_URL",
      [configError "`url` must be a quoted string or `env(\"VAR\")`" other.span])
  | none => (.env "DATABASE_URL", [configError "`datasource` block has no `url`" block.span])

def lowerDatasource (ast : Ast) : Datasource × Diagnostics :=
  match ast.datasources.head? with
  | none => (fallbackDatasource, [missingBlock "datasource"])
  | some block =>
      let (provider, providerDiags) := lowerProvider block
      let (url, urlDiags) := lowerUrl block
      let extensions := (((block.get "extensions").bind (fun e => e.value.asArray)).map
        (fun items => items.filterMap Value.asStr)).getD []
      ({ name := block.name, provider, url, extensions, span := block.span },
        providerDiags ++ urlDiags)

def lowerGenerator (ast : Ast) : Generator :=
  match ast.generators.head? with
  | none => Generator.default
  | some block =>
      let stringOr (key fallback : String) : String :=
        ((block.get key).bind (fun e => e.value.asStr)).getD fallback
      { name := block.name
        output := stringOr "output" Generator.default.output
        moduleName := stringOr "module_name" Generator.default.moduleName
        maxIncludeDepth := ((block.get "max_include_depth").bind (fun e =>
          match e.value with
          | .num n _ => parseUsize n
          | _ => none)).getD Generator.default.maxIncludeDepth
        span := block.span }

def lowerEnum (decl : EnumDecl) : EnumDef × Diagnostics :=
  let (variants, diags) := decl.variants.foldl (fun (variants, diags) v =>
    match variants.get? v.name with
    | none => (IndexMap.insert variants v.name
        { name := v.name, dbName := v.map.getD v.name, docs := v.docs, span := v.span }, diags)
    -- V14
    | some (first : EnumVariant) =>
        (variants, diags ++ [SchemaError.duplicateVariant decl.name v.name v.span first.span]))
    (.empty, [])
  ({ name := ⟨decl.name⟩, dbName := Naming.enumTypeName decl.name, variants,
     docs := decl.docs, span := decl.span }, diags)

def lowerEnums (ast : Ast) : IndexMap EnumName EnumDef × Diagnostics :=
  ast.enums.foldl (fun (out, diags) decl =>
    let (e, d) := lowerEnum decl
    (IndexMap.insert out ⟨decl.name⟩ e, diags ++ d)) (.empty, [])

def relationRef (decl : FieldDecl) : RelationRef :=
  let attr := decl.attr "relation"
  let named (key : String) : Option Value := attr.bind (fun a => a.named key)
  let nameList (key : String) : List FieldName :=
    ((named key).bind Value.asArray).elim [] (fun items =>
      items.filterMap (fun v => v.asIdent.map FieldName.mk))
  let action (key : String) : Option ReferentialAction :=
    ((named key).bind Value.asIdent).bind ReferentialAction.parse
  { target := ⟨decl.typeName⟩
    name := attr.bind (fun a =>
      (a.firstPositional.bind Value.asStr).orElse (fun _ => (a.named "name").bind Value.asStr))
    through := ((named "through").bind Value.asIdent).map ModelName.mk
    fields := nameList "fields"
    references := nameList "references"
    onDelete := action "onDelete"
    onUpdate := action "onUpdate"
    resolved := none
    span := (attr.map Attr.span).getD decl.span }

-- V02
def baseKind (decl : FieldDecl) (env : NameEnv) : FieldKind × Diagnostics :=
  match ScalarType.parse decl.typeName with
  | some scalar => (.scalar scalar, [])
  | none =>
      match (env.get? decl.typeName).map Prod.fst with
      | some .enum => (.enum ⟨decl.typeName⟩, [])
      | some .model => (.relation (relationRef decl), [])
      -- A scalar stands in, so the rest of the model still lowers.
      | none => (.scalar .string, [.unknownType decl.typeName decl.typeSpan])

def describeKind : FieldKind → String
  | .scalar s => s.asStr
  | .enum e => e.str
  | .relation r => r.target.str
  | .list inner => describeKind inner ++ "[]"

-- Splits at the parenthesis that closes depth open ones.
def closeParen (depth : Nat) : List Char → Option (List Char × List Char)
  | [] => none
  | c :: rest =>
      let depth := if c = '(' then depth + 1 else if c = ')' then depth - 1 else depth
      if c = ')' ∧ depth = 0 then some ([], rest)
      else (closeParen depth rest).map fun (inner, tail) => (c :: inner, tail)

def generatedClause (decl : FieldDecl) : Option GeneratedClause := do
  let attr ← decl.attr "generated"
  let s ← attr.firstPositional.bind Value.asStr
  let s := trim s.toList
  let inner ← match s.dropWhile (· ≠ '(') with
    | [] => none
    | _ :: inner => some inner
  let (expr, tail) ← closeParen 1 inner
  let tail := (trim tail).map Char.toLower
  return { expr := String.ofList (trim expr)
           kind := if containsWord "virtual".toList tail then .virtual else .stored }

def isNativePath (path : String) : Bool := "db.".toList.isPrefixOf path.toList

def nativeType (decl : FieldDecl) : Option NativeType :=
  (decl.attrs.find? (fun a => isNativePath a.path && a.path.length > 3)).map fun attr =>
    { name := String.ofList (attr.path.toList.drop 3)
      args := attr.positional.map Value.describe
      span := attr.span }

def isListOrRelation : FieldKind → Bool
  | .list _ | .relation _ => true
  | _ => false

-- V10 for the attributes that stamp a timestamp.
def checkTimestamp (decl : FieldDecl) (kind : FieldKind) (path : String) : Diagnostics :=
  match decl.attr path with
  | some a => if kind = .scalar .dateTime then []
      else [.invalidAttributeTarget path (describeKind kind) a.span]
  | none => []

-- V10 for the attributes that need a column of their own.
def checkColumnOnly (decl : FieldDecl) (kind : FieldKind) (path : String) : Diagnostics :=
  match decl.attr path with
  | some a => if isListOrRelation kind then
      [.invalidAttributeTarget path (describeKind kind) a.span] else []
  | none => []

def checkNativeTarget (decl : FieldDecl) (kind : FieldKind) : Diagnostics :=
  match decl.attrs.find? (fun a => isNativePath a.path) with
  | some a => if isListOrRelation kind then
      [.invalidAttributeTarget a.path (describeKind kind) a.span] else []
  | none => []

def checkAttributeTargets (decl : FieldDecl) (kind : FieldKind) : Diagnostics :=
  checkTimestamp decl kind "updatedAt" ++ checkTimestamp decl kind "createdAt" ++
    checkTimestamp decl kind "deletedAt" ++ checkColumnOnly decl kind "id" ++
    checkNativeTarget decl kind ++ checkColumnOnly decl kind "generated"

-- Whether a lowered default is usable on a field of this kind (V09).
def defaultMatches (kind : FieldKind) (value : DefaultValue)
    (enums : IndexMap EnumName EnumDef) : Bool :=
  match kind with
  | .enum name =>
      match value with
      | .literal (.enumVariant variant) =>
          match enums.get? name with
          | none => true
          | some e => e.variants.contains variant
      | _ => false
  | .list _ | .relation _ => false
  | .scalar s =>
      match value with
      | .dbGenerated _ => true
      | .function f =>
          match f with
          | .now => s = .dateTime ∨ s = .date ∨ s = .time
          | .uuid4 | .uuid7 => s = .uuid ∨ s = .string
          | .cuid2 | .nanoid => s = .string
          | .autoIncrement => s = .int ∨ s = .bigInt
      | .literal lit =>
          match lit with
          | .string _ => s = .string ∨ s = .uuid ∨ s = .json ∨ s = .dateTime ∨ s = .date ∨ s = .time
          | .int _ => s = .int ∨ s = .bigInt ∨ s = .float ∨ s = .decimal
          | .float _ => s = .float ∨ s = .decimal
          | .bool _ => s = .boolean
          | .enumVariant _ => false

-- A number out of range becomes zero, as unwrap_or_default has it.
def lowerNumber (text : String) : Literal :=
  if text.toList.contains '.' then .float ((F64.parse text).getD F64.zero)
  else .int ((parseI64 text).getD 0)

def lowerDefault (attr : Attr) (kind : FieldKind) (enums : IndexMap EnumName EnumDef) :
    Option DefaultValue × Diagnostics :=
  match attr.firstPositional with
  | none => (none, [])
  | some value =>
      let mismatch : SchemaError := .defaultTypeMismatch (describeKind kind) value.span
      let checked (lowered : DefaultValue) : Option DefaultValue × Diagnostics :=
        (some lowered, if defaultMatches kind lowered enums then [] else [mismatch])
      match value with
      | .func name args _ =>
          -- dbgenerated is taken as written, before any check of the kind.
          if name = "dbgenerated" then
            (some (.dbGenerated ((args.head?.bind Value.asStr).getD "")), [])
          else match DefaultFn.parse name with
            | some f => checked (.function f)
            | none => (none, [mismatch])
      | .str s _ => checked (.literal (.string s))
      | .bool b _ => checked (.literal (.bool b))
      | .num n _ => checked (.literal (lowerNumber n))
      | .ident i _ => checked (.literal (.enumVariant i))
      | .array _ _ | .env _ _ => (none, [mismatch])

def mapName (attr : Option Attr) (convention : String) : String :=
  ((attr.bind Attr.firstPositional).bind Value.asStr).getD convention

def lowerField (decl : FieldDecl) (env : NameEnv) (enums : IndexMap EnumName EnumDef) :
    Field × Diagnostics :=
  let (base, baseDiags) := baseKind decl env
  let kind := if decl.arity = .list then .list base else base
  let (default, defaultDiags) := match decl.attr "default" with
    | some a => lowerDefault a kind enums
    | none => (none, [])
  ({ name := ⟨decl.name⟩
     column := mapName (decl.attr "map") (Naming.columnName decl.name)
     kind
     optional := decl.arity = .optional
     default
     attrs :=
       { isId := decl.hasAttr "id"
         isUnique := decl.hasAttr "unique"
         isUpdatedAt := decl.hasAttr "updatedAt"
         isCreatedAt := decl.hasAttr "createdAt"
         isDeletedAt := decl.hasAttr "deletedAt"
         ignore := decl.hasAttr "ignore"
         nativeType := nativeType decl
         renamedFrom := ((decl.attr "renamedFrom").bind Attr.firstPositional).bind Value.asStr }
     generated := generatedClause decl
     docs := decl.docs
     span := decl.span },
    baseDiags ++ defaultDiags ++ checkAttributeTargets decl kind)

def blockAttr (decl : ModelDecl) (path : String) : Option Attr :=
  decl.blockAttrs.find? (fun a => a.path = path)

def KNOWN_BLOCK_ATTRS : List String := ["id", "index", "map", "unique"]

def KNOWN_FIELD_ATTRS : List String :=
  ["createdAt", "default", "deletedAt", "generated", "id", "ignore", "map", "relation",
    "renamedFrom", "unique", "updatedAt"]

-- V19: every attribute is one the toolchain reads. The db. namespace is open.
def checkUnknownAttributes (decl : ModelDecl) : Diagnostics :=
  (decl.blockAttrs.filter (fun a => !KNOWN_BLOCK_ATTRS.contains a.path)).map (fun a =>
    .unknownAttribute ("@@" ++ a.path) ("model `" ++ decl.name ++ "`") a.span) ++
  decl.fields.flatMap fun f =>
    (f.attrs.filter (fun a => !(KNOWN_FIELD_ATTRS.contains a.path ||
      isNativePath a.path && a.path.length > 3))).map fun a =>
        .unknownAttribute ("@" ++ a.path) ("`" ++ decl.name ++ "." ++ f.name ++ "`") a.span

-- The [a, b] first argument of a block attribute.
def fieldList (attr : Attr) : List FieldName :=
  ((attr.firstPositional.bind Value.asArray).map (fun items =>
    items.filterMap (fun v => v.asIdent.map FieldName.mk))).getD []

def lowerPrimaryKey (decl : ModelDecl) : PrimaryKey × Diagnostics :=
  let inline := decl.fields.filter (fun f => f.hasAttr "id")
  let block := blockAttr decl "id"
  -- V01: more than one declaration of the key.
  let repeated : Diagnostics := match inline with
    | first :: second :: _ => [.multiplePrimaryKeys decl.name second.span first.span]
    | _ => []
  let both : Diagnostics := match block, inline with
    | some b, first :: _ => [.multiplePrimaryKeys decl.name b.span first.span]
    | _, _ => []
  let key : PrimaryKey := match block, inline with
    | some b, _ => ⟨fieldList b, (b.named "map").bind Value.asStr, b.span⟩
    | none, f :: _ => ⟨[⟨f.name⟩], none, f.span⟩
    -- Left empty on purpose: validation reports it on the finished schema.
    | none, [] => ⟨[], none, decl.nameSpan⟩
  (key, repeated ++ both)

def indexTargets (attr : Attr) : List IndexTarget :=
  ((attr.firstPositional.bind Value.asArray).map (fun items => items.filterMap fun
    | .ident name _ => some (.field ⟨name⟩ .asc)
    | .str s _ => if s.toList.head? = some '(' then some (.expression s)
        else some (.field ⟨s⟩ .asc)
    | _ => none)).getD []

def targetColumns (targets : List IndexTarget) (fields : IndexMap FieldName Field) :
    List String :=
  targets.map fun
    | .field name _ => ((fields.get? name).map Field.column).getD name.str
    | .expression expr => expr

def parseIndexType (text : String) : Option IndexType :=
  let lower := String.ofList (text.toList.map Char.toLower)
  if lower = "gist" then some .gist
  else if lower = "gin" then some .gin
  else if lower = "btree" then some .btree
  else if lower = "hash" then some .hash
  else if lower = "spgist" then some .spGist
  else if lower = "brin" then some .brin
  else none

def lowerIndexes (decl : ModelDecl) (table : String) (fields : IndexMap FieldName Field) :
    List IndexDef :=
  (decl.blockAttrs.filter (fun a => a.path = "index")).map fun attr =>
    let targets := indexTargets attr
    { dbName := ((attr.named "map").bind Value.asStr).getD
        (Naming.indexName table (targetColumns targets fields))
      targets
      indexType := ((attr.named "type").bind (fun v => v.asIdent.orElse (fun _ => v.asStr))).bind
        parseIndexType
      whereClause := (attr.named "where").bind Value.asStr
      span := attr.span }

def lowerUniques (decl : ModelDecl) (table : String) (fields : IndexMap FieldName Field) :
    List UniqueDef :=
  (decl.blockAttrs.filter (fun a => a.path = "unique")).map fun attr =>
    let targets := indexTargets attr
    { dbName := ((attr.named "map").bind Value.asStr).getD
        (Naming.uniqueName table (targetColumns targets fields))
      targets
      span := attr.span }

def lowerFields (decl : ModelDecl) (env : NameEnv) (enums : IndexMap EnumName EnumDef) :
    IndexMap FieldName Field × Diagnostics :=
  decl.fields.foldl (fun (fields, diags) f =>
    let (field, d) := lowerField f env enums
    match fields.get? field.name with
    | none => (IndexMap.insert fields field.name field, diags ++ d)
    -- V04
    | some (first : Field) =>
        (fields, diags ++ d ++ [SchemaError.duplicateField decl.name f.name f.span first.span]))
    (.empty, [])

def lowerModel (decl : ModelDecl) (env : NameEnv) (enums : IndexMap EnumName EnumDef) :
    Model × Diagnostics :=
  let table := mapName (blockAttr decl "map") (Naming.tableName decl.name)
  let (fields, fieldDiags) := lowerFields decl env enums
  let (primaryKey, keyDiags) := lowerPrimaryKey decl
  ({ name := ⟨decl.name⟩
     table
     fields
     primaryKey
     indexes := lowerIndexes decl table fields
     uniques := lowerUniques decl table fields
     docs := decl.docs
     span := decl.span },
    fieldDiags ++ checkUnknownAttributes decl ++ keyDiags)

def lowerModels (ast : Ast) (env : NameEnv) (enums : IndexMap EnumName EnumDef) :
    IndexMap ModelName Model × Diagnostics :=
  ast.models.foldl (fun (out, diags) decl =>
    let (model, d) := lowerModel decl env enums
    (IndexMap.insert out model.name model, diags ++ d)) (.empty, [])

end Ruprizzle.Lower
