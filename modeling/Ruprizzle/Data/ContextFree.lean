import Mathlib.Computability.ContextFreeGrammar
import Ruprizzle.Data.Nesting

namespace Ruprizzle.ContextFree

open ContextFreeGrammar

-- Words of a context-free grammar, put together of the words of their parts, and
-- what an automaton can tell of all of them.

variable {T : Type} {g : ContextFreeGrammar T}

-- A word that the symbols of a form can become.
def Yields (g : ContextFreeGrammar T) (form : List (Symbol T g.NT)) (w : List T) : Prop :=
  g.Derives form (w.map .terminal)

def Spells (g : ContextFreeGrammar T) (n : g.NT) (w : List T) : Prop := Yields g [.nonterminal n] w

section

variable {a b rest : List (Symbol T g.NT)} {v w : List T} {n : g.NT}

theorem Yields.nil : Yields g [] [] := Derives.refl []

theorem Yields.append (hv : Yields g a v) (hw : Yields g b w) : Yields g (a ++ b) (v ++ w) := by
  have hsecond := Derives.append_left hw (v.map .terminal)
  rw [Yields, List.map_append]
  exact (Derives.append_right hv b).trans hsecond

theorem Yields.cons (t : T) (h : Yields g rest w) : Yields g (.terminal t :: rest) (t :: w) :=
  Derives.append_left h [.terminal t]

theorem Spells.before (h : Spells g n v) (hrest : Yields g rest w) :
    Yields g (.nonterminal n :: rest) (v ++ w) := Yields.append h hrest

theorem Spells.of_rule (hrule : ⟨n, a⟩ ∈ g.rules) (h : Yields g a w) : Spells g n w :=
  Produces.trans_derives ⟨_, hrule, .input_output⟩ h

-- One item, or items with a sign between them.
theorem Spells.joined {item list : g.NT} {sign : T} {words : List (List T)}
    (hone : ⟨list, [.nonterminal item]⟩ ∈ g.rules)
    (hmore : ⟨list, [.nonterminal item, .terminal sign, .nonterminal list]⟩ ∈ g.rules)
    (hne : words ≠ []) (h : ∀ word ∈ words, Spells g item word) :
    Spells g list (Nesting.joined sign words) := by
  induction words with
  | nil => exact absurd rfl hne
  | cons word rest ih =>
      obtain ⟨hword, hrest⟩ := List.forall_mem_cons.mp h
      cases rest with
      | nil => exact .of_rule hone hword
      | cons next rest =>
          have hlater : Yields g [.nonterminal list] (Nesting.joined sign (next :: rest)) :=
            ih (by simp) hrest
          exact .of_rule hmore (hword.before (hlater.cons sign))

end

section

variable {Q : Type} (step : Q → T → Q) (leads : g.NT → Q → List Q)

-- The states that an automaton can be in after a form, where it is known to which
-- ones the words of each nonterminal lead it.
def ends : List (Symbol T g.NT) → Q → List Q
  | [], q => [q]
  | .terminal t :: rest, q => ends rest (step q t)
  | .nonterminal n :: rest, q => (leads n q).flatMap (ends rest)

-- What is said of a nonterminal is what its rules say.
def Stable : Prop := ∀ r ∈ g.rules, ∀ q, ends step leads r.output q ⊆ leads r.input q

variable {step leads} {a b u v : List (Symbol T g.NT)} {q q' : Q}

theorem mem_ends_append :
    q' ∈ ends step leads (a ++ b) q ↔ ∃ p ∈ ends step leads a q, q' ∈ ends step leads b p := by
  induction a generalizing q with
  | nil => simp [ends]
  | cons s rest ih =>
      cases s with
      | terminal t => exact ih
      | nonterminal n =>
          simp only [List.cons_append, ends, List.mem_flatMap, ih]
          constructor
          · rintro ⟨p, hp, p', hp', hq'⟩
            exact ⟨p', ⟨p, hp, hp'⟩, hq'⟩
          · rintro ⟨p', ⟨p, hp, hp'⟩, hq'⟩
            exact ⟨p, hp, p', hp', hq'⟩

theorem ends_terminals (w : List T) :
    ends step leads (w.map .terminal) q = [w.foldl step q] := by
  induction w generalizing q with
  | nil => rfl
  | cons t rest ih => exact ih

theorem Stable.produces (h : Stable step leads) (huv : g.Produces u v) :
    ends step leads v q ⊆ ends step leads u q := by
  obtain ⟨r, hr, hrewrites⟩ := huv
  obtain ⟨pre, post, rfl, rfl⟩ := hrewrites.exists_parts
  intro q' hq'
  obtain ⟨p', hp', hpost⟩ := mem_ends_append.mp hq'
  obtain ⟨p, hp, hout⟩ := mem_ends_append.mp hp'
  have hinput : p' ∈ ends step leads [.nonterminal r.input] p := by
    simpa [ends] using h r hr p hout
  exact mem_ends_append.mpr ⟨p', mem_ends_append.mpr ⟨p, hp, hinput⟩, hpost⟩

theorem Stable.derives (h : Stable step leads) (huv : g.Derives u v) :
    ends step leads v q ⊆ ends step leads u q := by
  induction huv with
  | refl => exact fun _ hq => hq
  | tail _ hlast ih => exact fun _ hq => ih (h.produces hlast hq)

-- Where a word leads is among what is said of its form.
theorem Stable.yields (h : Stable step leads) {w : List T} (hw : Yields g a w) (q : Q) :
    w.foldl step q ∈ ends step leads a q := by
  refine h.derives hw ?_
  rw [ends_terminals]
  exact List.mem_singleton_self _

theorem Stable.spells (h : Stable step leads) {n : g.NT} {w : List T} (hw : Spells g n w) (q : Q) :
    w.foldl step q ∈ leads n q := by
  simpa [ends] using h.yields hw q

end

end Ruprizzle.ContextFree
