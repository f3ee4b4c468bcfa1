import Ruprizzle.Parser.Validate

namespace Ruprizzle.Build

open Ast

-- Syntax trees of small schema files. What stands where in the file is given
-- only where it matters.

def attr (path : String) (args : List Arg) : Attr := ⟨path, args, Span.EMPTY⟩

def str (s : String) : Arg := .positional (.str s Span.EMPTY)

def ident (s : String) : Arg := .positional (.ident s Span.EMPTY)

def names (l : List String) : Value := .array (l.map (fun n => .ident n Span.EMPTY)) Span.EMPTY

def named (key : String) (value : Value) : Arg := .named key value Span.EMPTY

def field (name type : String) (arity : Arity) (attrs : List Attr) : FieldDecl :=
  ⟨name, Span.EMPTY, type, Span.EMPTY, arity, attrs, none, Span.EMPTY⟩

def idField : FieldDecl := field "id" "Int" .required [attr "id" []]

-- The two arguments every owning side of a relation has, and any others.
def relation (fields references : List String) (others : List Arg) : Attr :=
  attr "relation" (others ++ [named "fields" (names fields), named "references" (names references)])

def model (name : String) (fields : List FieldDecl) (blockAttrs : List Attr) : Decl :=
  .model ⟨name, Span.EMPTY, fields, blockAttrs, none, Span.EMPTY⟩

def enum (name : String) (variants : List (String × Option String)) : Decl :=
  .enum ⟨name, Span.EMPTY, variants.map (fun (v, label) => ⟨v, label, none, Span.EMPTY⟩), none,
    Span.EMPTY⟩

def schema (provider : String) (decls : List Decl) : Ast :=
  ⟨.datasource ⟨"db", [⟨"provider", .str provider Span.EMPTY, Span.EMPTY⟩,
    ⟨"url", .env "DATABASE_URL" Span.EMPTY, Span.EMPTY⟩], Span.EMPTY⟩ :: decls⟩

end Ruprizzle.Build

namespace Ruprizzle

-- The schema of a syntax tree, and that it is an accepted one.
def Ast.lowered (ast : Ast) : Schema := (Lower.lower ast).1

theorem parse_lowered {ast : Ast} (h : (Diagnostics.errors (Lower.lower ast).2).isEmpty = true) :
    parse ast = .ok ast.lowered := by
  simp [parse, Ast.lowered, h]

theorem accepted_lowered {ast : Ast} (h : (Diagnostics.errors (Lower.lower ast).2).isEmpty = true) :
    Accepted ast.lowered :=
  ⟨ast, parse_lowered h⟩

end Ruprizzle
