import Mathlib.Algebra.Group.Nat.Defs
import Mathlib.Data.List.Basic

namespace Ruprizzle.Text

-- The text operations of the standard library that the parser and the dialects
-- call, on the characters of a string.

def natOfDigits (digits : List Char) : Nat :=
  digits.foldl (fun n c => 10 * n + (c.toNat - '0'.toNat)) 0

-- Unsigned and signed decimal parsing, with the range checks of a 64-bit word.
def parseUsize (text : String) : Option Nat :=
  let digits := text.toList
  if !digits.isEmpty && digits.all Char.isDigit then
    let n := natOfDigits digits
    if n < 2 ^ 64 then some n else none
  else none

def parseI64 (text : String) : Option Int :=
  match text.toList with
  | '-' :: digits =>
      if !digits.isEmpty && digits.all Char.isDigit && natOfDigits digits ≤ 2 ^ 63 then
        some (-(natOfDigits digits : Int))
      else none
  | digits =>
      if !digits.isEmpty && digits.all Char.isDigit && natOfDigits digits < 2 ^ 63 then
        some (natOfDigits digits : Int)
      else none

def isWhitespace (c : Char) : Bool :=
  let n := c.toNat
  (9 ≤ n && n ≤ 13) || n = 32 || n = 0x85 || n = 0xA0 || n = 0x1680 || (0x2000 ≤ n && n ≤ 0x200A) ||
    n = 0x2028 || n = 0x2029 || n = 0x202F || n = 0x205F || n = 0x3000

def trim (chars : List Char) : List Char :=
  ((chars.dropWhile isWhitespace).reverse.dropWhile isWhitespace).reverse

def containsWord (word text : List Char) : Bool := text.tails.any (fun t => word.isPrefixOf t)

-- Quoting doubles the quote character inside the text.
def doubled (quote : Char) (text : List Char) : List Char :=
  text.flatMap fun c => if c = quote then [c, c] else [c]

def quoted (quote : Char) (text : String) : String :=
  String.ofList (quote :: doubled quote text.toList ++ [quote])

-- The text before the last closing parenthesis, and the text from it on.
def splitLastParen (text : List Char) : Option (List Char × List Char) :=
  match text.reverse.dropWhile (· ≠ ')') with
  | [] => none
  | paren :: before =>
      some (before.reverse, paren :: (text.reverse.takeWhile (· ≠ ')')).reverse)

theorem doubled_injective (quote : Char) : Function.Injective (doubled quote) := by
  intro a
  induction a with
  | nil =>
      intro b h
      cases b with
      | nil => rfl
      | cons c rest => by_cases hc : c = quote <;> simp [doubled, hc] at h
  | cons c rest ih =>
      intro b h
      cases b with
      | nil => by_cases hc : c = quote <;> simp [doubled, hc] at h
      | cons d tail =>
          simp only [doubled, List.flatMap_cons] at h
          by_cases hc : c = quote <;> by_cases hd : d = quote
          · simp only [hc, hd, ite_true, List.cons_append, List.nil_append, List.cons.injEq,
              true_and] at h
            rw [hc, hd, ih h]
          · simp [hc, hd] at h
            exact absurd h.1.symm hd
          · simp [hc, hd] at h
          · simp only [hc, hd, ite_false, List.cons_append, List.nil_append,
              List.cons.injEq] at h
            rw [h.1, ih h.2]

theorem quoted_injective (quote : Char) : Function.Injective (quoted quote) := by
  intro a b h
  have h := String.ofList_injective h
  simp only [List.cons_append, List.cons.injEq, true_and] at h
  exact String.toList_injective (doubled_injective quote (List.append_cancel_right h))

example : quoted '\x27' "it's" = "'it''s'" := by decide

-- The text that a quoted one stands for.
def halved (quote : Char) : List Char → List Char
  | c :: c' :: rest =>
      if c = quote ∧ c' = quote then c :: halved quote rest else c :: halved quote (c' :: rest)
  | rest => rest

def unquoted (text : List Char) : String :=
  String.ofList (halved (text.headD ' ') text.tail.dropLast)

theorem halved_doubled (quote : Char) (text : List Char) :
    halved quote (doubled quote text) = text := by
  induction text with
  | nil => rfl
  | cons c rest ih =>
      have hcons : doubled quote (c :: rest)
          = (if c = quote then [c, c] else [c]) ++ doubled quote rest := rfl
      rw [hcons]
      by_cases hc : c = quote
      · simp [hc, halved, ih]
      · rw [if_neg hc]
        cases h : doubled quote rest with
        | nil =>
            rw [h] at ih
            simp [← ih, halved]
        | cons c' tail =>
            rw [h] at ih
            simp [halved, hc, ih]

theorem unquoted_quoted (quote : Char) (s : String) : unquoted (quoted quote s).toList = s := by
  simp [unquoted, quoted, halved_doubled]

end Ruprizzle.Text
