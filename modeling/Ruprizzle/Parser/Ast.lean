import Ruprizzle.Core.Names

namespace Ruprizzle.Ast

inductive Value
  | str (s : String) (span : Span)
  | num (text : String) (span : Span)
  | bool (b : Bool) (span : Span)
  | ident (name : String) (span : Span)
  | env (var : String) (span : Span)
  | func (name : String) (args : List Value) (span : Span)
  | array (items : List Value) (span : Span)
  deriving Repr

namespace Value

def span : Value → Span
  | str _ s | num _ s | bool _ s | ident _ s | env _ s | func _ _ s | array _ s => s

def asStr : Value → Option String
  | str s _ => some s
  | _ => none

def asIdent : Value → Option String
  | ident name _ => some name
  | _ => none

def asArray : Value → Option (List Value)
  | array items _ => some items
  | _ => none

-- How the value reads as an argument of a native type.
def describe : Value → String
  | str s _ => "\"" ++ s ++ "\""
  | num text _ => text
  | bool b _ => if b then "true" else "false"
  | ident name _ => name
  | env var _ => "env(\"" ++ var ++ "\")"
  | func name _ _ => name ++ "(…)"
  | array _ _ => "[…]"

end Value

inductive Arg
  | named (name : String) (value : Value) (span : Span)
  | positional (value : Value)
  deriving Repr

structure Attr where
  path : String
  args : List Arg
  span : Span
  deriving Repr

namespace Attr

def named (a : Attr) (name : String) : Option Value :=
  a.args.findSome? fun
    | .named n value _ => if n = name then some value else none
    | .positional _ => none

def positional (a : Attr) : List Value :=
  a.args.filterMap fun
    | .positional value => some value
    | .named _ _ _ => none

def firstPositional (a : Attr) : Option Value := a.positional.head?

end Attr

inductive Arity
  | required
  | optional
  | list
  deriving DecidableEq, Repr

structure FieldDecl where
  name : String
  nameSpan : Span
  typeName : String
  typeSpan : Span
  arity : Arity
  attrs : List Attr
  docs : Option String
  span : Span
  deriving Repr

namespace FieldDecl

def attr (f : FieldDecl) (path : String) : Option Attr := f.attrs.find? (fun a => a.path = path)

def hasAttr (f : FieldDecl) (path : String) : Bool := (f.attr path).isSome

end FieldDecl

structure ModelDecl where
  name : String
  nameSpan : Span
  fields : List FieldDecl
  blockAttrs : List Attr
  docs : Option String
  span : Span
  deriving Repr

structure VariantDecl where
  name : String
  map : Option String
  docs : Option String
  span : Span
  deriving Repr

structure EnumDecl where
  name : String
  nameSpan : Span
  variants : List VariantDecl
  docs : Option String
  span : Span
  deriving Repr

structure ConfigEntry where
  key : String
  value : Value
  span : Span
  deriving Repr

structure Block where
  name : String
  entries : List ConfigEntry
  span : Span
  deriving Repr

def Block.get (b : Block) (key : String) : Option ConfigEntry :=
  b.entries.find? (fun e => e.key = key)

inductive Decl
  | datasource (block : Block)
  | generator (block : Block)
  | enum (decl : EnumDecl)
  | model (decl : ModelDecl)
  deriving Repr

end Ruprizzle.Ast

namespace Ruprizzle

-- A parsed schema file, declarations in source order.
structure Ast where
  decls : List Ast.Decl
  deriving Repr

namespace Ast

def datasources (ast : Ast) : List Block :=
  ast.decls.filterMap fun | .datasource b => some b | _ => none

def generators (ast : Ast) : List Block :=
  ast.decls.filterMap fun | .generator b => some b | _ => none

def enums (ast : Ast) : List EnumDecl :=
  ast.decls.filterMap fun | .enum e => some e | _ => none

def models (ast : Ast) : List ModelDecl :=
  ast.decls.filterMap fun | .model m => some m | _ => none

end Ast

end Ruprizzle
