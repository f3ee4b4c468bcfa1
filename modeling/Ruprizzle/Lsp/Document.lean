import Ruprizzle.Data.IndexMap
import Ruprizzle.Data.Run

namespace Ruprizzle.Lsp

-- The documents of the language server: each text as its characters, and places in
-- it in bytes, as the strings of the source have them.

structure Position where
  line : Nat
  character : Nat
  deriving DecidableEq, Repr

structure Range where
  start : Position
  stop : Position
  deriving DecidableEq, Repr

structure ContentChange where
  range : Option Range
  text : List Char
  deriving DecidableEq, Repr

abbrev Documents := IndexMap String (List Char)

def byteLen : List Char → Nat
  | [] => 0
  | c :: rest => c.utf8Size + byteLen rest

@[simp] theorem byteLen_append (a b : List Char) : byteLen (a ++ b) = byteLen a + byteLen b := by
  induction a with
  | nil => simp [byteLen]
  | cons c rest ih =>
      rw [List.cons_append, byteLen, byteLen, ih]
      omega

-- Taking a string apart at a byte, which has to lie between two characters.
def splitBytes : List Char → Nat → Option (List Char × List Char)
  | text, 0 => some ([], text)
  | [], _ + 1 => none
  | c :: rest, n + 1 =>
      if n + 1 < c.utf8Size then none
      else (splitBytes rest (n + 1 - c.utf8Size)).map fun (before, after) => (c :: before, after)

-- None stands for a panic.
def replaceRange (text : List Char) (start stop : Nat) (new : List Char) : Option (List Char) :=
  if stop < start then none
  else (splitBytes text start).bind fun (before, _) =>
    (splitBytes text stop).map fun (_, after) => before ++ new ++ after

-- The loop of position_to_byte_offset: the byte, the line and the column reached.
def scan (pos : Position) : Nat → Nat → Nat → List Char → Nat
  | i, _, _, [] => i
  | i, line, col, c :: rest =>
      if line = pos.line ∧ col = pos.character then i
      else if c = '\n' then scan pos (i + c.utf8Size) (line + 1) 0 rest
      else scan pos (i + c.utf8Size) line (col + 1) rest

def positionToByteOffset (text : List Char) (pos : Position) : Nat := scan pos 0 0 0 text

def applyChange (text : List Char) (range : Range) (new : List Char) : Option (List Char) :=
  replaceRange text (positionToByteOffset text range.start) (positionToByteOffset text range.stop) new

def changeText (text : List Char) (change : ContentChange) : Option (List Char) :=
  match change.range with
  | some range => applyChange text range change.text
  | none => some change.text

def didOpen (docs : Documents) (uri : String) (text : List Char) : Documents := docs.insert uri text

-- A document that is not known counts as empty.
def didChange (docs : Documents) (uri : String) (changes : List ContentChange) : Option Documents :=
  (changes.foldlM changeText ((docs.get? uri).getD [])).map fun text => docs.insert uri text

-- What the client means: lines end with LF, CRLF or CR, a column counts the UTF-16
-- units of its line, and one beyond the end of the line is the end of the line.

def utf16Size (c : Char) : Nat := if c.toNat < 0x10000 then 1 else 2

def endsLine (c : Char) (rest : List Char) : Bool :=
  c = '\n' || c = '\r' && rest.head? ≠ some '\n'

-- The text before a position and the text from it on.
def splitAt (line character : Nat) : List Char → List Char × List Char
  | [] => ([], [])
  | c :: rest =>
      if line = 0 then
        if character < utf16Size c ∨ c = '\n' ∨ c = '\r' then ([], c :: rest)
        else
          let (before, after) := splitAt 0 (character - utf16Size c) rest
          (c :: before, after)
      else
        let (before, after) := splitAt (if endsLine c rest then line - 1 else line) character rest
        (c :: before, after)

def Position.split (pos : Position) (text : List Char) : List Char × List Char :=
  splitAt pos.line pos.character text

def clientText (text : List Char) (change : ContentChange) : List Char :=
  match change.range with
  | some range => (range.start.split text).1 ++ change.text ++ (range.stop.split text).2
  | none => change.text

structure Notification where
  uri : String
  changes : List ContentChange
  deriving DecidableEq, Repr

def clientChange (docs : Documents) (n : Notification) : Documents :=
  docs.insert n.uri (n.changes.foldl clientText ((docs.get? n.uri).getD []))

def serverChange (docs : Documents) (n : Notification) : Option Documents :=
  didChange docs n.uri n.changes

end Ruprizzle.Lsp
