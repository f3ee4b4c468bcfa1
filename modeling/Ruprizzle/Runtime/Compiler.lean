import Ruprizzle.Runtime.Statement

namespace Ruprizzle.Runtime

-- A compiled statement: its text, as characters, and the values bound in it.
structure CompiledSql where
  sql : List Char
  binds : List Value

def placeholder : Dialect → Nat → List Char
  | .postgres, k => '$' :: Nat.toDigits 10 (k + 1)
  | .mysql, _ | .sqlite, _ => ['?']

-- The bytes of a character, each pushed as a character of its own.
def byteChars (c : Char) : List Char :=
  (String.utf8EncodeChar c).map fun b => Char.ofNat b.toNat

-- The scan for a dollar with digits, which both renumberings make byte by byte.
-- Numbers are unbounded here; the first argument counts the digits that a
-- placeholder has already taken.
def renumberFrom (offset : Nat) : Nat → List Char → List Char
  | _, [] => []
  | taken + 1, _ :: rest => renumberFrom offset taken rest
  | 0, c :: rest =>
      let digits := rest.takeWhile Char.isDigit
      if c = '$' ∧ digits ≠ [] then
        '$' :: Nat.toDigits 10 (Nat.ofDigitChars 10 digits 0 + offset) ++
          renumberFrom offset digits.length rest
      else byteChars c ++ renumberFrom offset 0 rest

def renumber (offset : Nat) (text : List Char) : List Char := renumberFrom offset 0 text

def CompiledSql.renumbered (c : CompiledSql) (offset : Nat) : CompiledSql :=
  if offset = 0 ∨ c.binds.isEmpty ∨ '$' ∉ c.sql then c else ⟨renumber offset c.sql, c.binds⟩

-- What a push writes where the statement has that many binds already.
def Push.text (d : Dialect) (binds : Nat) : Push CompiledSql → List Char
  | .str s => s.toList
  | .quoted name => (d.quoteIdent name).toList
  | .bind _ => placeholder d binds
  | .subquery c => if d = .postgres then renumber binds c.sql else c.sql
  | .renumbered c => (c.renumbered binds).sql

def Push.binds : Push CompiledSql → List Value
  | .bind value => [value]
  | .subquery c | .renumbered c => c.binds
  | .str _ | .quoted _ => []

namespace Compiler

def push (d : Dialect) (c : CompiledSql) (p : Push CompiledSql) : CompiledSql :=
  ⟨c.sql ++ p.text d c.binds.length, c.binds ++ p.binds⟩

def run (d : Dialect) (pushes : List (Push CompiledSql)) : CompiledSql :=
  pushes.foldl (push d) ⟨[], []⟩

end Compiler

-- The text of a list of pushes, and the values it binds.
def written (d : Dialect) : Nat → List (Push CompiledSql) → List Char
  | _, [] => []
  | k, p :: rest => p.text d k ++ written d (k + p.binds.length) rest

def bound (pushes : List (Push CompiledSql)) : List Value := pushes.flatMap Push.binds

@[simp] theorem bound_nil : bound [] = [] := rfl

@[simp] theorem bound_cons (p : Push CompiledSql) (rest : List (Push CompiledSql)) :
    bound (p :: rest) = p.binds ++ bound rest := rfl

@[simp] theorem bound_append (a b : List (Push CompiledSql)) :
    bound (a ++ b) = bound a ++ bound b := List.flatMap_append

theorem written_append (d : Dialect) (k : Nat) (a b : List (Push CompiledSql)) :
    written d k (a ++ b) = written d k a ++ written d (k + (bound a).length) b := by
  induction a generalizing k with
  | nil => rfl
  | cons p rest ih =>
      simp only [List.cons_append, written, bound_cons, List.length_append, List.append_assoc, ih,
        Nat.add_assoc]

theorem Compiler.foldl_push (d : Dialect) (c : CompiledSql) (pushes : List (Push CompiledSql)) :
    pushes.foldl (push d) c
      = ⟨c.sql ++ written d c.binds.length pushes, c.binds ++ bound pushes⟩ := by
  induction pushes generalizing c with
  | nil => simp [written]
  | cons p rest ih =>
      rw [List.foldl_cons, ih]
      simp only [push, written, bound_cons, List.length_append, List.append_assoc]

theorem Compiler.run_eq (d : Dialect) (pushes : List (Push CompiledSql)) :
    run d pushes = ⟨written d 0 pushes, bound pushes⟩ := by
  simp [run, foldl_push]

end Ruprizzle.Runtime
