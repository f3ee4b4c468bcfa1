import Ruprizzle.Data.Scan
import Ruprizzle.Dialect.Sql

namespace Ruprizzle.Runtime

-- How the three databases cut a statement into tokens.

-- What a character is to a lexer. Every character outside ASCII may stand in a
-- bare name, on all three.
inductive Sym
  | blank | newline | letter | letterE | digit | dollar | question | quote | dquote | backtick
  | lbracket | rbracket | backslash | dash | slash | star | hash | colon | at_ | oper | punct
  deriving DecidableEq, Repr

def Sym.of (c : Char) : Sym :=
  if c = '\n' then newline
  else if c = ' ' ∨ c = '\t' ∨ c = '\r' then blank
  else if c = 'e' ∨ c = 'E' then letterE
  else if c.isAlpha ∨ c = '_' ∨ 128 ≤ c.toNat then letter
  else if c.isDigit then digit
  else if c = '$' then dollar
  else if c = '?' then question
  else if c = '\x27' then quote
  else if c = '\x22' then dquote
  else if c = '\x60' then backtick
  else if c = '[' then lbracket
  else if c = ']' then rbracket
  else if c = '\\' then backslash
  else if c = '-' then dash
  else if c = '/' then slash
  else if c = '*' then star
  else if c = '#' then hash
  else if c = ':' then colon
  else if c = '@' then at_
  else if c = '(' ∨ c = ')' ∨ c = ',' ∨ c = '.' ∨ c = ';' then punct
  else oper

-- Kinds of tokens. A comment is read as a token that begins with its second
-- sign, the first one being read before it is known what follows.
inductive Kind
  | word | number | literal | ident | op | punct | param | comment
  deriving DecidableEq, Repr

abbrev Token := Scan.Token Kind Char

-- What a quoted text is closed by, and whether a backslash escapes in it.
inductive Quote
  | single | escape | double | doubleText | backtick | bracket
  deriving DecidableEq, Repr

def Quote.sym : Quote → Sym
  | single | escape => .quote
  | double | doubleText => .dquote
  | backtick => .backtick
  | bracket => .rbracket

def Quote.escapes : Quote → Bool
  | escape | doubleText => true
  | _ => false

def Quote.kind : Quote → Kind
  | single | escape | doubleText => .literal
  | _ => .ident

-- The quoted text a character opens. After the letter E a PostgreSQL literal
-- has escapes; a MySQL literal always has, and takes both kinds of quotes.
def Quote.opened (d : Dialect) (afterE : Bool) : Sym → Option Quote
  | .quote => some (if d = .mysql ∨ afterE then escape else single)
  | .dquote => some (if d = .mysql then doubleText else double)
  | .backtick => if d = .postgres then none else some backtick
  | .lbracket => if d = .sqlite then some bracket else none
  | _ => none

inductive OpEnd
  | dash | dashes | slash | colon | other
  deriving DecidableEq, Repr

inductive Mode
  | gap
  -- The flag marks the letter E alone, which opens a literal with escapes.
  | word (e : Bool)
  | number
  | op (last : OpEnd)
  | param
  | within (q : Quote)
  | closing (q : Quote)
  | escaped (q : Quote)
  | line
  | block (depth : Nat) (last : OpEnd) (star : Bool)
  deriving DecidableEq, Repr

open Scan (Mark)

namespace Lexer

-- A character where no token is open.
def begin_ (d : Dialect) (afterE : Bool) (x : Sym) : Mark Kind × Mode :=
  match Quote.opened d afterE x with
  | some q => (.start q.kind, .within q)
  | none =>
      match x with
      | .blank | .newline => (.skip, .gap)
      | .letter => (.start .word, .word false)
      | .letterE => (.start .word, .word (d = .postgres))
      | .digit => (.start .number, .number)
      | .dollar => if d = .mysql then (.start .word, .word false) else (.start .param, .param)
      | .question => if d = .postgres then (.start .op, .op .other) else (.start .param, .param)
      | .colon => if d = .sqlite then (.start .param, .param) else (.start .op, .op .colon)
      | .at_ => if d = .sqlite then (.start .param, .param) else (.start .op, .op .other)
      | .hash => if d = .mysql then (.start .comment, .line) else (.start .op, .op .other)
      | .dash => (.start .op, .op .dash)
      | .slash => (.start .op, .op .slash)
      | .lbracket | .rbracket | .punct => (.start .punct, .gap)
      | _ => (.start .op, .op .other)

-- An operator goes on with another character of operators, of which PostgreSQL has
-- the most, and two colons are one. Two dashes begin a comment, on MySQL only before
-- a blank.
def inOp (d : Dialect) (last : OpEnd) (x : Sym) : Mark Kind × Mode :=
  match last, x with
  | .dash, .dash => if d = .mysql then (.cont, .op .dashes) else (.start .comment, .line)
  | .dashes, .blank => (.start .comment, .line)
  | .slash, .star => (.start .comment, .block 0 .other false)
  | .colon, .colon => (.cont, .gap)
  | .colon, x => begin_ d false x
  | _, .dash => (.cont, .op .dash)
  | _, .slash => (.cont, .op .slash)
  | _, .star | _, .oper | _, .backslash => (.cont, .op .other)
  | _, .hash | _, .question | _, .at_ =>
      if d = .postgres then (.cont, .op .other) else begin_ d false x
  | _, x => begin_ d false x

-- Block comments nest on PostgreSQL.
def inBlock (d : Dialect) (depth : Nat) (last : OpEnd) (star : Bool) (x : Sym) : Mode :=
  match x with
  | .slash =>
      if star then (if depth = 0 then .gap else .block (depth - 1) .other false)
      else .block depth .slash false
  | .star =>
      if last = .slash ∧ d = .postgres then .block (depth + 1) .other false
      else .block depth .other true
  | _ => .block depth .other false

def step (d : Dialect) (m : Mode) (x : Sym) : Mark Kind × Mode :=
  match m with
  | .gap => begin_ d false x
  | .word e =>
      match x with
      | .letter | .letterE | .digit | .dollar => (.cont, .word false)
      | x => begin_ d e x
  | .number =>
      match x with
      | .letter | .letterE | .digit => (.cont, .number)
      | x => begin_ d false x
  | .op last => inOp d last x
  | .param =>
      match x with
      | .digit => if d = .mysql then (.start .number, .number) else (.cont, .param)
      | x => begin_ d false x
  | .within q =>
      if x = q.sym then (.cont, .closing q)
      else if q.escapes ∧ x = .backslash then (.cont, .escaped q)
      else (.cont, .within q)
  -- A quote right after the closing one stands for itself.
  | .closing q =>
      if x = q.sym ∧ q ≠ .bracket then (.cont, .within q) else begin_ d false x
  | .escaped q => (.cont, .within q)
  | .line => if x = .newline then (.cont, .gap) else (.cont, .line)
  | .block depth last star => (.cont, inBlock d depth last star x)

def scan (d : Dialect) (m : Mode) (c : Char) : Mark Kind × Mode := step d m (Sym.of c)

end Lexer

-- Where a text may end: no quote and no comment is open, nor about to be.
def Mode.Outside : Mode → Prop
  | .gap | .word _ | .number | .param | .closing _ => True
  | .op last => last ≠ .dashes
  | _ => False

instance (m : Mode) : Decidable m.Outside := by
  cases m <;> unfold Mode.Outside <;> infer_instance

-- The tokens of a text, and where its reading ends.
def tokens (d : Dialect) (text : List Char) : List Token := (Scan.read (Lexer.scan d) .gap text).2

def modeAfter (d : Dialect) (text : List Char) : Mode := Scan.modeAfter (Lexer.scan d) .gap text

end Ruprizzle.Runtime
