import Ruprizzle.Data.ContextFree
import Ruprizzle.Runtime.Flow

namespace Ruprizzle.Runtime

-- The SELECT syntax of the three databases, as far as the compiler and the raw
-- fragments of its callers use it.

inductive Reserved
  | select | distinct | from_ | where_ | group | having | order | by_ | asc | desc | limit | offset
  | union | all | intersect | except | with_ | recursive | as_ | join | inner | left | right | full
  | outer | on | and_ | or_ | not_ | between | in_ | is_ | null | true_ | false_ | exists_ | like
  | ilike | match_ | against | natural | language | mode | cast
  deriving DecidableEq, Repr

-- Spelled letter by letter, as texts are compared that way.
def Reserved.spellings : List (List Char × Reserved) :=
  [(['S','E','L','E','C','T'], select), (['D','I','S','T','I','N','C','T'], distinct),
    (['F','R','O','M'], from_), (['W','H','E','R','E'], where_), (['G','R','O','U','P'], group),
    (['H','A','V','I','N','G'], having), (['O','R','D','E','R'], order), (['B','Y'], by_),
    (['A','S','C'], asc), (['D','E','S','C'], desc), (['L','I','M','I','T'], limit),
    (['O','F','F','S','E','T'], offset), (['U','N','I','O','N'], union), (['A','L','L'], all),
    (['I','N','T','E','R','S','E','C','T'], intersect), (['E','X','C','E','P','T'], except),
    (['W','I','T','H'], with_), (['R','E','C','U','R','S','I','V','E'], recursive),
    (['A','S'], as_), (['J','O','I','N'], join), (['I','N','N','E','R'], inner),
    (['L','E','F','T'], left), (['R','I','G','H','T'], right), (['F','U','L','L'], full),
    (['O','U','T','E','R'], outer), (['O','N'], on), (['A','N','D'], and_), (['O','R'], or_),
    (['N','O','T'], not_), (['B','E','T','W','E','E','N'], between), (['I','N'], in_),
    (['I','S'], is_), (['N','U','L','L'], null), (['T','R','U','E'], true_),
    (['F','A','L','S','E'], false_), (['E','X','I','S','T','S'], exists_),
    (['L','I','K','E'], like), (['I','L','I','K','E'], ilike), (['M','A','T','C','H'], match_),
    (['A','G','A','I','N','S','T'], against), (['N','A','T','U','R','A','L'], natural),
    (['L','A','N','G','U','A','G','E'], language), (['M','O','D','E'], mode),
    (['C','A','S','T'], cast)]

-- A name in quotes, a bare one, a placeholder, and the operators by what may
-- stand around them.
inductive Lexeme
  | name | bare | value | number | literal
  | open_ | close | comma | dot | star
  | compare | arrow | pathArrow | contains | arith | cast
  | word (w : Reserved)
  | other
  deriving DecidableEq, Repr

def Lexeme.ofWord (text : List Char) : Lexeme :=
  match Reserved.spellings.find? fun s => s.1 = text.map Char.toUpper with
  | some s => .word s.2
  | none => .bare

def Lexeme.signs : List (List Char × Lexeme) :=
  [(['('], open_), ([')'], close), ([','], comma), (['.'], dot), (['*'], star), (['='], compare),
    (['!', '='], compare), (['<', '>'], compare), (['<'], compare), (['<', '='], compare),
    (['>'], compare), (['>', '='], compare), (['-', '>'], arrow), (['-', '>', '>'], arrow),
    (['#', '>'], pathArrow), (['#', '>', '>'], pathArrow), (['@', '>'], contains),
    (['<', '@'], contains), (['&', '&'], contains), (['@', '@'], contains), (['?'], contains),
    (['?', '|'], contains), (['?', '&'], contains), (['+'], arith), (['-'], arith),
    (['/'], arith), (['%'], arith), (['|', '|'], arith), ([':', ':'], cast)]

def Lexeme.ofSign (text : List Char) : Lexeme :=
  match signs.find? fun s => s.1 = text with
  | some s => s.2
  | none => .other

def Lexeme.of (t : Token) : Lexeme :=
  match t.kind with
  | .ident => .name
  | .word => ofWord t.text
  | .number => .number
  | .literal => .literal
  | .op | .punct => ofSign t.text
  | .param => .value
  | .comment => .other

inductive Phrase
  | statement | ctes | cte | body | compound | setOp | operand | core | quantifier | targets | target
  | label | tables | table | joinKind | where_ | group | having | order | items | item | direction
  | page | cond | pred | negation | term | terms | type_
  deriving DecidableEq, Repr

abbrev Rule := ContextFreeRule Lexeme Phrase

def part (n : Phrase) : Symbol Lexeme Phrase := .nonterminal n

def sign (t : Lexeme) : Symbol Lexeme Phrase := .terminal t

def word (w : Reserved) : Symbol Lexeme Phrase := .terminal (.word w)

def queryRules : List Rule :=
  [⟨.statement, [part .body]⟩,
    ⟨.statement, [word .with_, part .ctes, part .body]⟩,
    ⟨.statement, [word .with_, word .recursive, part .ctes, part .body]⟩,
    ⟨.ctes, [part .cte]⟩,
    ⟨.ctes, [part .cte, sign .comma, part .ctes]⟩,
    ⟨.cte, [sign .name, word .as_, sign .open_, part .statement, sign .close]⟩,
    ⟨.body, [part .compound, part .order, part .page]⟩,
    ⟨.compound, [part .operand]⟩,
    ⟨.compound, [part .compound, part .setOp, part .operand]⟩,
    ⟨.setOp, [word .union]⟩,
    ⟨.setOp, [word .union, word .all]⟩,
    ⟨.setOp, [word .intersect]⟩,
    ⟨.setOp, [word .except]⟩,
    ⟨.operand, [part .core]⟩,
    ⟨.core, [word .select, part .quantifier, part .targets, word .from_, part .tables, part .where_,
      part .group, part .having]⟩,
    ⟨.quantifier, []⟩,
    ⟨.quantifier, [word .distinct]⟩,
    ⟨.targets, [part .target]⟩,
    ⟨.targets, [part .target, sign .comma, part .targets]⟩,
    ⟨.target, [sign .star]⟩,
    ⟨.target, [sign .name, sign .dot, sign .star]⟩,
    ⟨.target, [part .term, part .label]⟩,
    ⟨.label, []⟩,
    ⟨.label, [word .as_, sign .name]⟩,
    ⟨.label, [word .as_, sign .bare]⟩,
    ⟨.tables, [part .table]⟩,
    ⟨.tables, [part .tables, part .joinKind, word .join, part .table, word .on, part .cond]⟩,
    ⟨.table, [sign .name, part .label]⟩,
    ⟨.table, [sign .open_, part .statement, sign .close, part .label]⟩,
    ⟨.joinKind, [word .inner]⟩,
    ⟨.joinKind, [word .left]⟩,
    ⟨.joinKind, [word .right]⟩,
    ⟨.where_, []⟩,
    ⟨.where_, [word .where_, part .cond]⟩,
    ⟨.group, []⟩,
    ⟨.group, [word .group, word .by_, part .terms]⟩,
    ⟨.having, []⟩,
    ⟨.having, [word .having, part .cond]⟩,
    ⟨.order, []⟩,
    ⟨.order, [word .order, word .by_, part .items]⟩,
    ⟨.items, [part .item]⟩,
    ⟨.items, [part .item, sign .comma, part .items]⟩,
    ⟨.item, [part .term, part .direction]⟩,
    ⟨.direction, []⟩,
    ⟨.direction, [word .asc]⟩,
    ⟨.direction, [word .desc]⟩,
    ⟨.page, []⟩,
    ⟨.page, [word .limit, sign .number]⟩,
    ⟨.page, [word .limit, sign .number, word .offset, sign .number]⟩]

def conditionRules : List Rule :=
  [⟨.cond, [part .pred]⟩,
    ⟨.cond, [part .cond, word .and_, part .cond]⟩,
    ⟨.cond, [part .cond, word .or_, part .cond]⟩,
    ⟨.cond, [word .not_, part .cond]⟩,
    ⟨.negation, []⟩,
    ⟨.negation, [word .not_]⟩,
    ⟨.pred, [part .term]⟩,
    ⟨.pred, [part .term, sign .compare, part .term]⟩,
    ⟨.pred, [part .term, part .negation, word .like, part .term]⟩,
    ⟨.pred, [part .term, part .negation, word .between, part .term, word .and_, part .term]⟩,
    ⟨.pred, [part .term, word .is_, part .negation, word .null]⟩,
    ⟨.pred, [part .term, part .negation, word .in_, sign .open_, part .terms, sign .close]⟩,
    ⟨.pred, [part .term, part .negation, word .in_, sign .open_, part .statement, sign .close]⟩,
    ⟨.pred, [word .exists_, sign .open_, part .statement, sign .close]⟩,
    ⟨.term, [sign .name]⟩,
    ⟨.term, [sign .name, sign .dot, sign .name]⟩,
    ⟨.term, [sign .bare]⟩,
    ⟨.term, [sign .bare, sign .dot, sign .bare]⟩,
    ⟨.term, [sign .value]⟩,
    ⟨.term, [sign .number]⟩,
    ⟨.term, [sign .literal]⟩,
    ⟨.term, [word .null]⟩,
    ⟨.term, [word .true_]⟩,
    ⟨.term, [word .false_]⟩,
    ⟨.term, [sign .bare, sign .open_, sign .close]⟩,
    ⟨.term, [sign .bare, sign .open_, sign .star, sign .close]⟩,
    ⟨.term, [sign .bare, sign .open_, part .terms, sign .close]⟩,
    ⟨.term, [sign .bare, sign .open_, word .distinct, part .terms, sign .close]⟩,
    ⟨.term, [word .cast, sign .open_, part .term, word .as_, part .type_, sign .close]⟩,
    ⟨.term, [sign .open_, part .cond, sign .close]⟩,
    ⟨.term, [sign .open_, part .statement, sign .close]⟩,
    ⟨.term, [part .term, sign .arith, part .term]⟩,
    ⟨.term, [part .term, sign .star, part .term]⟩,
    ⟨.term, [part .term, sign .arrow, part .term]⟩,
    ⟨.terms, [part .term]⟩,
    ⟨.terms, [part .term, sign .comma, part .terms]⟩,
    ⟨.type_, [sign .bare]⟩,
    ⟨.type_, [sign .bare, part .type_]⟩]

-- Only PostgreSQL has ILIKE and the operators of arrays and documents, takes OFFSET
-- by itself and a SELECT of nothing.
def postgresRules : List Rule :=
  [⟨.operand, [sign .open_, part .statement, sign .close]⟩,
    ⟨.core, [word .select, word .from_, part .tables, part .where_, part .group, part .having]⟩,
    ⟨.joinKind, [word .full]⟩,
    ⟨.joinKind, [word .full, word .outer]⟩,
    ⟨.page, [word .offset, sign .number]⟩,
    ⟨.page, [word .offset, sign .number, word .limit, sign .number]⟩,
    ⟨.pred, [part .term, part .negation, word .ilike, part .term]⟩,
    ⟨.pred, [part .term, sign .contains, part .term]⟩,
    ⟨.term, [part .term, sign .pathArrow, part .term]⟩,
    ⟨.term, [part .term, sign .cast, part .type_]⟩]

def mysqlRules : List Rule :=
  [⟨.operand, [sign .open_, part .statement, sign .close]⟩,
    ⟨.pred, [word .match_, sign .open_, part .terms, sign .close, word .against, sign .open_,
      part .term, word .in_, word .natural, word .language, word .mode, sign .close]⟩]

-- Only SQLite takes a list without values, and no SELECT in brackets as an operand.
def sqliteRules : List Rule :=
  [⟨.joinKind, [word .full]⟩,
    ⟨.table, [sign .bare, sign .open_, part .terms, sign .close, part .label]⟩,
    ⟨.pred, [part .term, part .negation, word .in_, sign .open_, sign .close]⟩,
    ⟨.pred, [part .term, word .match_, part .term]⟩]

def rules (d : Dialect) : List Rule :=
  queryRules ++ conditionRules ++
    match d with
    | .postgres => postgresRules
    | .mysql => mysqlRules
    | .sqlite => sqliteRules

def grammar (d : Dialect) : ContextFreeGrammar Lexeme where
  NT := Phrase
  initial := .statement
  rules := (rules d).toFinset

-- A text that the dialect takes as a query.
def IsSentence (d : Dialect) (text : List Char) : Prop :=
  (tokens d text).map Lexeme.of ∈ (grammar d).language

end Ruprizzle.Runtime
