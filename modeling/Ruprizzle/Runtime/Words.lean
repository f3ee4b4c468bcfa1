import Ruprizzle.Data.Conditions
import Ruprizzle.Runtime.Reads

namespace Ruprizzle.Runtime

-- What a condition is made of, as far as its reading depends on it.

inductive Keyword
  | and_ | or_ | xor | not_ | between | case_ | end_ | is_ | null | true_ | false_ | exists_ | in_
  | select | from_ | where_
  deriving DecidableEq, Repr

def Keyword.sql : Keyword → String
  | and_ => "AND"
  | or_ => "OR"
  | xor => "XOR"
  | not_ => "NOT"
  | between => "BETWEEN"
  | case_ => "CASE"
  | end_ => "END"
  | is_ => "IS"
  | null => "NULL"
  | true_ => "TRUE"
  | false_ => "FALSE"
  | exists_ => "EXISTS"
  | in_ => "IN"
  | select => "SELECT"
  | from_ => "FROM"
  | where_ => "WHERE"

def Keyword.all : List Keyword :=
  [and_, or_, xor, not_, between, case_, end_, is_, null, true_, false_, exists_, in_, select, from_,
    where_]

def CmpOp.all : List CmpOp := [eq, ne, gt, gte, lt, lte, like, ilike]

inductive Word
  | name (s : String)
  | value (v : Value)
  | keyword (k : Keyword)
  | op (o : CmpOp)
  | number (text : List Char)
  | dot | comma | open_ | close | openSquare | closeSquare
  | other (t : Token)

-- Keywords are the same in small letters.
def Word.ofWord (t : Token) : Word :=
  let text := t.text.map Char.toUpper
  match Keyword.all.find? fun k => k.sql.toList = text with
  | some k => .keyword k
  | none =>
      match CmpOp.all.find? fun o => o.sql.toList = text with
      | some o => .op o
      | none => .other t

-- MySQL has signs for two of the connectives.
def Word.ofOp (d : Dialect) (t : Token) : Word :=
  match CmpOp.all.find? fun o => o.sql.toList = t.text with
  | some o => .op o
  | none =>
      if d = .mysql ∧ t.text = ['|', '|'] then .keyword .or_
      else if d = .mysql ∧ t.text = ['&', '&'] then .keyword .and_
      else .other t

def Word.ofPunct (t : Token) : Word :=
  if t.text = ['('] then .open_
  else if t.text = [')'] then .close
  else if t.text = ['['] then .openSquare
  else if t.text = [']'] then .closeSquare
  else if t.text = [','] then .comma
  else if t.text = ['.'] then .dot
  else .other t

def Word.of (d : Dialect) : Piece → Word
  | .value v => .value v
  | .token t =>
      match t.kind with
      | .ident => .name (Text.unquoted t.text)
      | .word => ofWord t
      | .op => ofOp d t
      | .punct => ofPunct t
      | .number => .number t.text
      | _ => .other t

-- BETWEEN takes the next AND, as a bracket takes the next closing one.
inductive Bracket
  | paren | square | between | case_
  deriving DecidableEq, Repr

open Nesting

def turn : Nesting.Turn Word Bracket
  | _, .open_ => some (.push .paren)
  | _, .openSquare => some (.push .square)
  | top, .close => if top = some .paren then some .pop else none
  | top, .closeSquare => if top = some .square then some .pop else none
  | _, .keyword .between => some (.push .between)
  | _, .keyword .case_ => some (.push .case_)
  | top, .keyword .and_ => if top = some .between then some .pop else some .stay
  | top, .keyword .end_ => if top = some .case_ then some .pop else some .stay
  | _, _ => some .stay

def Word.isKeyword (k : Keyword) : Word → Bool
  | .keyword k' => k' = k
  | _ => false

def Word.isOpen : Word → Bool
  | .open_ => true
  | _ => false

def Word.isClose : Word → Bool
  | .close => true
  | _ => false

theorem guarded_turn : Guarded turn := by
  intro w
  cases w with
  | keyword k => cases k <;> simp [turn]
  | _ => simp [turn]

theorem sheltered_turn : Sheltered turn .paren := by
  intro w m h
  cases w with
  | keyword k => cases k <;> simpa [turn] using h
  | close => simp [turn] at h
  | closeSquare => simp [turn] at h
  | _ => exact h

theorem Word.eq_of_isKeyword {k : Keyword} {w : Word} (h : w.isKeyword k = true) :
    w = .keyword k := by
  cases w with
  | keyword k' => exact congrArg Word.keyword (of_decide_eq_true h)
  | _ => simp [isKeyword] at h

-- Only MySQL has XOR.
def language (d : Dialect) : Conditions.Language Word Bracket where
  turn := turn
  isOr := Word.isKeyword .or_
  isXor w := w.isKeyword .xor && decide (d = .mysql)
  isAnd := Word.isKeyword .and_
  isNot := Word.isKeyword .not_
  opens := Word.isOpen
  closes := Word.isClose
  paren := .paren
  guarded := guarded_turn
  sheltered := sheltered_turn
  flat w hw := by
    simp only [Bool.or_eq_true, Bool.and_eq_true] at hw
    rcases hw with (hw | hw) | hw
    · obtain rfl := Word.eq_of_isKeyword hw
      rfl
    · obtain rfl := Word.eq_of_isKeyword hw.1
      rfl
    · obtain rfl := Word.eq_of_isKeyword hw
      rfl
  opens_turn w hw := by cases w <;> first | rfl | simp [Word.isOpen] at hw
  closes_turn w hw := by cases w <;> first | rfl | simp [Word.isClose] at hw
  not_opens w hw := by cases w <;> first | rfl | simp [Word.isOpen] at hw

end Ruprizzle.Runtime
