import Ruprizzle.Data.Heights
import Ruprizzle.Lsp.Document

namespace Ruprizzle.Lsp

-- The blocks of a schema document, which may be unfinished: its words, braces and other signs, with
-- nothing of comments, and of string literals no more than that they are there.

inductive Token
  | word (text : String)
  | left
  | right
  | sign
  deriving DecidableEq, Repr

-- What is read at the time, with what there is of a word.
inductive Mode
  | code (word : List Char)
  | comment
  | literal

def identChar (c : Char) : Bool := c.isAlphanum || c = '_'

def blank (c : Char) : Bool := c = ' ' || c = '\t' || c = '\r' || c = '\n'

def flush : List Char → List Token
  | [] => []
  | word => [.word (String.ofList word)]

def mark : Char → Token
  | '\x7b' => .left
  | '\x7d' => .right
  | _ => .sign

def readTokens : Mode → List Char → List Token
  | .code word, [] => flush word
  | _, [] => []
  | .code word, '/' :: '/' :: rest => flush word ++ readTokens .comment rest
  | .code word, c :: rest =>
      if identChar c then readTokens (.code (word ++ [c])) rest
      else if blank c then flush word ++ readTokens (.code []) rest
      else if c = '"' then flush word ++ .sign :: readTokens .literal rest
      else flush word ++ mark c :: readTokens (.code []) rest
  | .comment, c :: rest =>
      if c = '\n' ∨ c = '\r' then readTokens (.code []) rest else readTokens .comment rest
  | .literal, '\\' :: '"' :: rest => readTokens .literal rest
  | .literal, c :: rest =>
      if c = '"' then readTokens (.code []) rest else readTokens .literal rest

def tokens (text : List Char) : List Token := readTokens (.code []) text

-- The characters that start before an offset.
def upto : Nat → List Char → List Char
  | _, [] => []
  | offset, c :: rest => if offset = 0 then [] else c :: upto (offset - c.utf8Size) rest

-- How many braces are open, where what closes none counts for nothing.
def deepen (depth : Nat) : Token → Nat
  | .left => depth + 1
  | .right => depth - 1
  | _ => depth

def depth (before : List Token) : Nat := before.foldl deepen 0

def turn : Token → Int
  | .left => 1
  | .right => -1
  | _ => 0

def identifier (name : String) : Bool := name.toList.head?.any fun c => !c.isDigit

-- The offset is inside of the braces of the model that has the name: they are opened outside of
-- all others, and what is closed after that is what was opened after that.
def Enclosed (text : List Char) (offset : Nat) (name : String) : Prop :=
  ∃ before inside,
    tokens (upto offset text) = before ++ .word "model" :: .word name :: .left :: inside ∧
    depth before = 0 ∧ identifier name = true ∧ Heights.Stays turn inside

theorem upto_cons {offset : Nat} (h : offset ≠ 0) (c : Char) (rest : List Char) :
    upto offset (c :: rest) = c :: upto (offset - c.utf8Size) rest := by
  rw [upto, if_neg h]

theorem upto_prefix (offset : Nat) (text : List Char) : upto offset text <+: text := by
  induction text generalizing offset with
  | nil => exact List.prefix_refl []
  | cons c rest ih =>
      by_cases h : offset = 0
      · rw [upto, if_pos h]
        exact List.nil_prefix
      · rw [upto_cons h]
        exact List.cons_prefix_cons.mpr ⟨rfl, ih _⟩

theorem upto_starts {offset : Nat} {text before after : List Char} {c : Char}
    (h : upto offset text = before ++ c :: after) : byteLen before < offset := by
  induction text generalizing offset before with
  | nil => cases List.append_ne_nil_of_right_ne_nil before (List.cons_ne_nil c after) h.symm
  | cons d rest ih =>
      by_cases hzero : offset = 0
      · rw [upto, if_pos hzero] at h
        cases List.append_ne_nil_of_right_ne_nil before (List.cons_ne_nil c after) h.symm
      · rw [upto_cons hzero] at h
        cases before with
        | nil => exact Nat.pos_of_ne_zero hzero
        | cons e before =>
            obtain ⟨rfl, hrest⟩ := List.cons.inj h
            have hlater := ih hrest
            rw [byteLen]
            omega

theorem mark_ne_word (c : Char) (w : String) : mark c ≠ .word w := by
  unfold mark
  split <;> simp

-- What ends a word before another one.
def parting (c : Char) : Bool := blank c || c = '/'

def Mode.held : Mode → List Char
  | .code word => word
  | _ => []

section Words

variable {word : List Char} {more before after : List Token} {v w : String}

theorem flush_parted (h : flush word ++ more = before ++ .word v :: .word w :: after) :
    (∃ before', more = before' ++ .word v :: .word w :: after) ∨
      v.toList = word ∧ more = .word w :: after := by
  cases word with
  | nil => exact .inl ⟨before, h⟩
  | cons c rest =>
      cases before with
      | nil =>
          obtain ⟨hword, hmore⟩ := List.cons.inj h
          injection hword with hword
          exact .inr ⟨by rw [← hword, String.toList_ofList], hmore⟩
      | cons x before => exact .inl ⟨before, (List.cons.inj h).2⟩

theorem later_parted {x : Token} (hx : x ≠ .word v)
    (h : x :: more = before ++ .word v :: .word w :: after) :
    ∃ before', more = before' ++ .word v :: .word w :: after := by
  cases before with
  | nil => exact absurd (List.cons.inj h).1 hx
  | cons y before => exact ⟨before, (List.cons.inj h).2⟩

-- The word stands in the text, with a blank or a comment after it.
def Parted (v : String) (text : List Char) : Prop :=
  ∃ p c q, text = p ++ v.toList ++ c :: q ∧ parting c = true

theorem Parted.behind {text : List Char} (h : Parted v text) (a : List Char) :
    Parted v (a ++ text) := by
  obtain ⟨p, c, q, rfl, hc⟩ := h
  exact ⟨a ++ p, c, q, by simp only [List.append_assoc], hc⟩

theorem readTokens_parted {mode : Mode} {text : List Char}
    (h : readTokens mode text = before ++ .word v :: .word w :: after) :
    Parted v (mode.held ++ text) := by
  induction mode, text using readTokens.induct generalizing before with
  | case1 word =>
      rw [readTokens, ← List.append_nil (flush word)] at h
      rcases flush_parted h with ⟨before', hmore⟩ | ⟨-, hmore⟩
      · cases List.append_ne_nil_of_right_ne_nil before' (List.cons_ne_nil _ _) hmore.symm
      · cases hmore
  | case2 mode hmode =>
      rw [readTokens] at h
      · cases List.append_ne_nil_of_right_ne_nil before (List.cons_ne_nil _ _) h.symm
      · exact hmode
  | case3 word rest ih =>
      rw [readTokens] at h
      rcases flush_parted h with ⟨before', hmore⟩ | ⟨hword, -⟩
      · exact ((ih hmore).behind ['/', '/']).behind word
      · exact ⟨[], '/', '/' :: rest, by rw [hword]; rfl, rfl⟩
  | case4 word c rest hslash hident ih =>
      rw [readTokens, if_pos hident] at h
      · have hlater := ih h
        rwa [Mode.held, List.append_assoc] at hlater
      · exact hslash
  | case5 word c rest hslash hident hblank ih =>
      rw [readTokens, if_neg hident, if_pos hblank] at h
      · rcases flush_parted h with ⟨before', hmore⟩ | ⟨hword, -⟩
        · exact ((ih hmore).behind [c]).behind word
        · exact ⟨[], c, rest, by rw [hword]; rfl, by rw [parting, hblank]; rfl⟩
      · exact hslash
  | case6 word rest hslash hident hblank ih =>
      rw [readTokens, if_neg hident, if_neg hblank, if_pos rfl] at h
      · rcases flush_parted h with ⟨before', hmore⟩ | ⟨-, hmore⟩
        · obtain ⟨before', hrest⟩ := later_parted (by simp) hmore
          exact ((ih hrest).behind ['"']).behind word
        · cases hmore
      · exact hslash
  | case7 word c rest hslash hident hblank hquote ih =>
      rw [readTokens, if_neg hident, if_neg hblank, if_neg hquote] at h
      · rcases flush_parted h with ⟨before', hmore⟩ | ⟨-, hmore⟩
        · obtain ⟨before', hrest⟩ := later_parted (mark_ne_word c v) hmore
          exact ((ih hrest).behind [c]).behind word
        · exact absurd (List.cons.inj hmore).1 (mark_ne_word c w)
      · exact hslash
  | case8 c rest hend ih =>
      rw [readTokens, if_pos hend] at h
      exact (ih h).behind [c]
  | case9 c rest hend ih =>
      rw [readTokens, if_neg hend] at h
      exact (ih h).behind [c]
  | case10 rest ih =>
      rw [readTokens] at h
      exact (ih h).behind ['\\', '"']
  | case11 rest hescape ih =>
      rw [readTokens, if_pos rfl] at h
      · exact (ih h).behind ['"']
      · exact hescape
  | case12 c rest hescape hquote ih =>
      rw [readTokens, if_neg hquote] at h
      · exact (ih h).behind [c]
      · exact hescape

-- The keyword of a block around the offset ends before it.
theorem Enclosed.parted {text : List Char} {offset : Nat} {name : String}
    (h : Enclosed text offset name) :
    ∃ p c q, text = p ++ "model".toList ++ c :: q ∧ parting c = true ∧ byteLen p + 5 < offset := by
  obtain ⟨before, inside, htokens, -, -, -⟩ := h
  obtain ⟨p, c, q, htext, hc⟩ := readTokens_parted htokens
  obtain ⟨more, hmore⟩ := upto_prefix offset text
  have hstart := upto_starts htext
  rw [byteLen_append] at hstart
  refine ⟨p, c, q ++ more, ?_, hc, hstart⟩
  rw [← hmore]
  simp only [Mode.held, List.nil_append] at htext
  rw [htext, List.append_assoc, List.cons_append]

end Words

end Ruprizzle.Lsp
