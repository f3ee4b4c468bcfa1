import Ruprizzle.Data.Text
import Ruprizzle.Lsp.Blocks

namespace Ruprizzle.Lsp

-- What completion takes the cursor to be in. Of the characters beyond ASCII, wide tells the letters
-- and numbers.

def isAlphanumeric (wide : Char → Bool) (c : Char) : Bool :=
  if c.toNat < 128 then c.isAlphanum else wide c && !Text.isWhitespace c

def wordChar (wide : Char → Bool) (c : Char) : Bool := isAlphanumeric wide c || c = '_'

-- The variables of the scan.
structure Cursor where
  inModel : Bool
  name : Option String
  braceDepth : Int
  tokens : List String
  deriving DecidableEq, Repr

def Cursor.start : Cursor := ⟨false, none, 0, []⟩

-- The token before this brace might be the model name.
def Cursor.openBrace (s : Cursor) : Cursor :=
  { s with
    braceDepth := s.braceDepth + 1
    name := if s.braceDepth + 1 = 1 then s.tokens.getLast?.or s.name else s.name }

def Cursor.closeBrace (s : Cursor) : Cursor := { s with braceDepth := s.braceDepth - 1 }

def Cursor.push (offset i : Nat) (word : List Char) (s : Cursor) : Cursor :=
  let pushed := { s with tokens := s.tokens ++ [String.ofList word] }
  if i + byteLen word < offset ∧ word = "model".toList then
    { pushed with inModel := true, name := none }
  else pushed

variable (wide : Char → Bool) (offset : Nat)

-- A word is read from every one of its characters on.
def step (i : Nat) (c : Char) (rest : List Char) (s : Cursor) : Cursor :=
  if Text.isWhitespace c then s
  else if c = '\x7b' then s.openBrace
  else if c = '\x7d' then s.closeBrace
  else if wordChar wide c then s.push offset i ((c :: rest).takeWhile (wordChar wide))
  else s

-- Blanks and words go on before the place is looked at.
def scanCursor : Nat → List Char → Cursor → Cursor
  | _, [], s => s
  | i, c :: rest, s =>
      if !Text.isWhitespace c && !wordChar wide c && decide (offset ≤ i) then
        step wide offset i c rest s
      else scanCursor (i + c.utf8Size) rest (step wide offset i c rest s)

def nearestModelContext (text : List Char) : Bool × Option String :=
  let s := scanCursor wide offset 0 text Cursor.start
  (decide (0 < s.braceDepth) && s.inModel, s.name)

end Ruprizzle.Lsp
