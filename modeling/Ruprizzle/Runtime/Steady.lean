import Ruprizzle.Runtime.Builder
import Ruprizzle.Runtime.Rows

namespace Ruprizzle.Runtime

open Conditions Nesting

-- Filters that the builder may take apart and join with others without their
-- texts being read differently.

variable {S : Type}

namespace FilterNode

def conjuncts : FilterNode S → List (FilterNode S)
  | and nodes => nodes
  | f => [f]

def disjuncts : FilterNode S → List (FilterNode S)
  | or nodes => nodes
  | f => [f]

def parts : FilterNode S → List (FilterNode S)
  | and nodes => nodes
  | or nodes => nodes
  | f => [f]

-- No part falls apart at an outermost OR, as a raw fragment may.
def Steady (d : Dialect) (reading : S → List Word) (f : FilterNode S) : Prop :=
  ∀ part ∈ f.parts, Contained (language d) (part.words d reading)

end FilterNode

theorem Filter.and_eq (f g : FilterNode S) :
    Filter.and f g = .and (f.conjuncts ++ g.conjuncts) := by
  have hparts : ∀ node : FilterNode S, FilterNode.flattenAnd [node] = .and node.conjuncts := by
    intro node
    cases node <;> simp [FilterNode.flattenAnd, FilterNode.conjuncts]
  have hf := FilterNode.and.inj (hparts f)
  have hg := FilterNode.and.inj (hparts g)
  rw [Filter.and, FilterNode.flattenAnd, ← hf, ← hg, ← List.flatMap_append]
  rfl

theorem Filter.or_eq (f g : FilterNode S) :
    Filter.or f g = .or (f.disjuncts ++ g.disjuncts) := by
  have hparts : ∀ node : FilterNode S, FilterNode.flattenOr [node] = .or node.disjuncts := by
    intro node
    cases node <;> simp [FilterNode.flattenOr, FilterNode.disjuncts]
  have hf := FilterNode.or.inj (hparts f)
  have hg := FilterNode.or.inj (hparts g)
  rw [Filter.or, FilterNode.flattenOr, ← hf, ← hg, ← List.flatMap_append]
  rfl

variable {engine : Engine} {db : Database} {d : Dialect} {reading : S → List Word} {env : Env}

theorem contained_joinedWords {constant w : Word} {items : List (List Word)}
    (hconstant : Contained (language d) [constant]) (hw : turn none w = some .stay)
    (h : ∀ item ∈ items, Contained (language d) item) :
    Contained (language d) (joinedWords constant w items) := by
  match items with
  | [] => exact hconstant
  | [item] => exact h item (by simp)
  | first :: second :: rest =>
      rw [joinedWords_many (by simp)]
      have hwhole := Whole.joined hw fun item hitem => (h item hitem).whole
      exact (tight_wrapped (L := language d) rfl rfl hwhole).contained

theorem contained_constant (b : Bool) :
    Contained (language d) [.keyword (if b then .true_ else .false_)] := by
  cases b <;> exact rfl

namespace FilterNode

theorem contained_and {nodes : List (FilterNode S)}
    (h : ∀ node ∈ nodes, Contained (language d) (node.words d reading)) :
    Contained (language d) ((and nodes).words d reading) := by
  rw [words_and]
  refine contained_joinedWords (contained_constant true) rfl fun item hitem => ?_
  obtain ⟨node, hnode, rfl⟩ := List.mem_map.mp hitem
  exact h node hnode

theorem contained_or {nodes : List (FilterNode S)}
    (h : ∀ node ∈ nodes, Contained (language d) (node.words d reading)) :
    Contained (language d) ((or nodes).words d reading) := by
  rw [words_or]
  refine contained_joinedWords (contained_constant false) rfl fun item hitem => ?_
  obtain ⟨node, hnode, rfl⟩ := List.mem_map.mp hitem
  exact h node hnode

variable {f g : FilterNode S}

theorem Steady.contained (h : f.Steady d reading) : Contained (language d) (f.words d reading) := by
  cases f with
  | and nodes => exact contained_and h
  | or nodes => exact contained_or h
  | _ => exact h _ (List.mem_singleton_self _)

theorem Steady.conjuncts (h : f.Steady d reading) :
    ∀ node ∈ f.conjuncts, Contained (language d) (node.words d reading) := by
  intro node hnode
  cases f with
  | and nodes => exact h node hnode
  | _ =>
      obtain rfl := List.mem_singleton.mp hnode
      exact h.contained

theorem Steady.disjuncts (h : f.Steady d reading) :
    ∀ node ∈ f.disjuncts, Contained (language d) (node.words d reading) := by
  intro node hnode
  cases f with
  | or nodes => exact h node hnode
  | _ =>
      obtain rfl := List.mem_singleton.mp hnode
      exact h.contained

theorem Steady.both_conjuncts (hf : f.Steady d reading) (hg : g.Steady d reading) :
    ∀ node ∈ f.conjuncts ++ g.conjuncts, Contained (language d) (node.words d reading) := by
  intro node hnode
  rcases List.mem_append.mp hnode with hnode | hnode
  · exact hf.conjuncts node hnode
  · exact hg.conjuncts node hnode

theorem Steady.both_disjuncts (hf : f.Steady d reading) (hg : g.Steady d reading) :
    ∀ node ∈ f.disjuncts ++ g.disjuncts, Contained (language d) (node.words d reading) := by
  intro node hnode
  rcases List.mem_append.mp hnode with hnode | hnode
  · exact hf.disjuncts node hnode
  · exact hg.disjuncts node hnode

theorem Steady.and (hf : f.Steady d reading) (hg : g.Steady d reading) :
    (Filter.and f g).Steady d reading := by
  rw [Filter.and_eq]
  exact hf.both_conjuncts hg

theorem Steady.or (hf : f.Steady d reading) (hg : g.Steady d reading) :
    (Filter.or f g).Steady d reading := by
  rw [Filter.or_eq]
  exact hf.both_disjuncts hg

theorem steady_nil : (FilterNode.and [] : FilterNode S).Steady d reading :=
  fun _ hnode => absurd hnode (List.not_mem_nil)

theorem steady_null (table column : String) (negated : Bool) :
    (FilterNode.null table column negated : FilterNode S).Steady d reading := by
  intro node hnode
  obtain rfl := List.mem_singleton.mp hnode
  exact contained_null table column negated

theorem holds_or {nodes : List (FilterNode S)}
    (h : ∀ node ∈ nodes, Contained (language d) (node.words d reading)) :
    engine.holds db d reading env (.or nodes) = nodes.any (engine.holds db d reading env) := by
  rw [Engine.holds, truth_or fun node hnode => (h node hnode).whole, Bool.eq_iff_iff,
    decide_eq_true_iff, Truth.any_eq_yes, List.any_eq_true]
  simp [Engine.holds]

theorem Steady.holds_conjuncts (h : f.Steady d reading) :
    f.conjuncts.all (engine.holds db d reading env) = engine.holds db d reading env f := by
  cases f with
  | and nodes => exact (holds_and fun _ => h).symm
  | _ => exact Bool.and_true _

theorem Steady.holds_disjuncts (h : f.Steady d reading) :
    f.disjuncts.any (engine.holds db d reading env) = engine.holds db d reading env f := by
  cases f with
  | or nodes => exact (holds_or h).symm
  | _ => exact Bool.or_false _

theorem Steady.holds_and (hf : f.Steady d reading) (hg : g.Steady d reading) :
    engine.holds db d reading env (Filter.and f g)
      = (engine.holds db d reading env f && engine.holds db d reading env g) := by
  rw [Filter.and_eq, Runtime.holds_and fun _ => hf.both_conjuncts hg, List.all_append, hf.holds_conjuncts, hg.holds_conjuncts]

theorem Steady.holds_or (hf : f.Steady d reading) (hg : g.Steady d reading) :
    engine.holds db d reading env (Filter.or f g)
      = (engine.holds db d reading env f || engine.holds db d reading env g) := by
  rw [Filter.or_eq, FilterNode.holds_or (hf.both_disjuncts hg), List.any_append, hf.holds_disjuncts, hg.holds_disjuncts]

-- A trivial filter holds anyway.
theorem Steady.keeps (h : f.Steady d reading) :
    engine.keeps db d reading env f = engine.holds db d reading env f := by
  rw [Engine.keeps]
  cases htrivial : f.isTrivial
  · exact Bool.false_or _
  · obtain rfl := eq_and_nil htrivial
    exact (Runtime.holds_and fun _ => steady_nil).symm

end FilterNode

end Ruprizzle.Runtime
