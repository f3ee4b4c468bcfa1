import Ruprizzle.Runtime.Grammar

namespace Ruprizzle.Runtime

open ContextFree

-- An automaton that refuses what no sentence has: a value that IS NULL is compared
-- with, and what only some of the dialects take.

inductive Watch
  | plain | limited | paged | named | opened | within | listed | selecting | comparing | refused
  deriving DecidableEq, Repr

namespace Watch

def all : List Watch :=
  [plain, limited, paged, named, opened, within, listed, selecting, comparing, refused]

def refuses (d : Dialect) (q : Watch) : Lexeme → Bool
  | .word .is_ => q = comparing
  | .word .ilike => d ≠ .postgres
  | .word .offset => d ≠ .postgres ∧ q ≠ paged
  | .word .from_ => d ≠ .postgres ∧ q = selecting
  | .open_ => d = .sqlite ∧ q = opened
  | .close => d ≠ .sqlite ∧ q = listed
  | _ => false

def after (q : Watch) : Lexeme → Watch
  | .word .limit => limited
  | .number => if q = limited then paged else plain
  | .word .as_ => named
  | .open_ => if q = named then opened else if q = within then listed else plain
  | .word .in_ => within
  | .word .select => selecting
  | .compare | .word .like | .word .ilike => comparing
  | _ => plain

def next (d : Dialect) (q : Watch) (t : Lexeme) : Watch :=
  if q = refused ∨ q.refuses d t then refused else q.after t

end Watch

def Phrase.nullable : Phrase → Bool
  | quantifier | label | where_ | group | having | order | direction | page | negation => true
  | _ => false

-- What may end in a LIMIT, and what may begin with a bracket that is no query's.
def Phrase.limits : Phrase → Bool
  | statement | body | page => true
  | _ => false

def Phrase.bracketed : Phrase → Bool
  | targets | target | tables | table | items | item | cond | pred | term | terms => true
  | _ => false

-- What may be no more than a number.
def Phrase.numeric : Phrase → Bool
  | targets | target | items | item | cond | pred | term | terms => true
  | _ => false

def Phrase.leads (d : Dialect) (n : Phrase) (q : Watch) : List Watch :=
  if q = .refused then [.refused]
  else List.flatten [
    [.plain],
    if n.limits ∨ (n.numeric ∧ q = .limited) then [.paged] else [],
    if n.nullable then [q] else [],
    if d = .sqlite ∧ n.bracketed ∧ (q = .opened ∨ q = .named) then [.refused] else []]

theorem Watch.mem_all (q : Watch) : q ∈ all := by
  cases q <;> decide

theorem leads_rules (d : Dialect) : ∀ r ∈ rules d, ∀ q ∈ Watch.all,
    (ends (g := grammar d) (Watch.next d) (Phrase.leads d) r.output q)
      ⊆ r.input.leads d q := by
  cases d <;> decide +kernel

theorem stable (d : Dialect) : Stable (g := grammar d) (Watch.next d) (Phrase.leads d) :=
  fun r hr q => leads_rules d r (List.mem_toFinset.mp hr) q q.mem_all

-- Words that do not lead every state to refusal.
def Alive (d : Dialect) (ws : List Lexeme) : Prop := ∃ q, ws.foldl (Watch.next d) q ≠ .refused

variable {d : Dialect} {a b c ws : List Lexeme}

theorem Watch.refused_foldl : ws.foldl (Watch.next d) .refused = .refused := by
  induction ws with
  | nil => rfl
  | cons t rest ih => exact ih

theorem Alive.middle (h : Alive d (a ++ b ++ c)) : Alive d b := by
  obtain ⟨q, hq⟩ := h
  rw [List.foldl_append, List.foldl_append] at hq
  refine ⟨a.foldl (Watch.next d) q, fun hdead => hq ?_⟩
  rw [hdead, Watch.refused_foldl]

theorem Alive.left (h : Alive d (a ++ b)) : Alive d a := Alive.middle (a := []) h

theorem Alive.right (h : Alive d (a ++ b)) : Alive d b := Alive.middle (c := []) (by simpa using h)

theorem alive_of_spells (h : Spells (grammar d) .statement ws) : Alive d ws := by
  refine ⟨.plain, fun hdead => ?_⟩
  have hmem := (stable d).spells h .plain
  rw [hdead] at hmem
  cases d <;> exact absurd hmem (by decide)

-- What is not alive: the signs that the automaton refuses.

theorem not_alive_ilike (hd : d ≠ .postgres) : ¬ Alive d [.word .ilike] := by
  rintro ⟨q, hq⟩
  cases d with
  | postgres => exact hd rfl
  | mysql => cases q <;> exact hq rfl
  | sqlite => cases q <;> exact hq rfl

theorem not_alive_isNull : ¬ Alive d [.compare, .word .is_] := by
  rintro ⟨q, hq⟩
  cases d <;> cases q <;> exact hq rfl

theorem not_alive_emptyList (hd : d ≠ .sqlite) : ¬ Alive d [.word .in_, .open_, .close] := by
  rintro ⟨q, hq⟩
  cases d with
  | sqlite => exact hd rfl
  | postgres => cases q <;> exact hq rfl
  | mysql => cases q <;> exact hq rfl

theorem not_alive_selectFrom (hd : d ≠ .postgres) : ¬ Alive d [.word .select, .word .from_] := by
  rintro ⟨q, hq⟩
  cases d with
  | postgres => exact hd rfl
  | mysql => cases q <;> exact hq rfl
  | sqlite => cases q <;> exact hq rfl

theorem not_alive_bracketed : ¬ Alive .sqlite [.word .as_, .open_, .open_] := by
  rintro ⟨q, hq⟩
  cases q <;> exact hq rfl

end Ruprizzle.Runtime
