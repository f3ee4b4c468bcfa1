import Mathlib.Data.List.Basic

namespace Ruprizzle.Commands

-- A script of commands sent one at a time, and no more of them once one has
-- failed. What a command does depends on the state and on its number. It may
-- leave a trace even where it fails.

variable {C S : Type} (send : Nat → C → S → S × Bool)

def runAll (k : Nat) : List C → S → S × Bool
  | [], s => (s, true)
  | c :: rest, s =>
      match send k c s with
      | (s', true) => runAll (k + 1) rest s'
      | (s', false) => (s', false)

-- Each command has succeeded.
inductive Ran : Nat → List C → S → S → Prop
  | nil (k : Nat) (s : S) : Ran k [] s s
  | cons {k : Nat} {c : C} {rest : List C} {s mid s' : S} :
      send k c s = (mid, true) → Ran (k + 1) rest mid s' → Ran k (c :: rest) s s'

-- The first command that fails, after those before it have succeeded.
def FailsAt (k : Nat) (before : List C) (c : C) (s s' : S) : Prop :=
  ∃ mid, Ran send k before s mid ∧ send (k + before.length) c mid = (s', false)

variable {send} {k : Nat} {c : C} {l rest : List C} {s s' : S}

theorem runAll_true_iff : runAll send k l s = (s', true) ↔ Ran send k l s s' := by
  induction l generalizing k s with
  | nil =>
      constructor
      · intro h
        cases h
        exact .nil _ _
      · intro h
        cases h
        rfl
  | cons c rest ih =>
      rw [runAll]
      constructor
      · intro h
        split at h
        · rename_i mid hsend
          exact .cons hsend (ih.mp h)
        · cases h
      · intro h
        cases h with
        | cons hsend hrest =>
            rw [hsend]
            exact ih.mpr hrest

theorem runAll_false_iff : runAll send k l s = (s', false) ↔
    ∃ before c later, l = before ++ c :: later ∧ FailsAt send k before c s s' := by
  induction l generalizing k s with
  | nil =>
      constructor
      · intro h
        cases h
      · intro ⟨before, c, later, heq, _⟩
        simp at heq
  | cons c rest ih =>
      rw [runAll]
      constructor
      · intro h
        split at h
        · rename_i mid hsend
          obtain ⟨before, d, later, rfl, ⟨last, hran, hfail⟩⟩ := ih.mp h
          refine ⟨c :: before, d, later, rfl, ⟨last, .cons hsend hran, ?_⟩⟩
          rw [List.length_cons, show k + (before.length + 1) = k + 1 + before.length by omega]
          exact hfail
        · rename_i mid hsend
          obtain rfl := (Prod.mk.inj h).1
          exact ⟨[], c, rest, rfl, ⟨s, .nil k s, hsend⟩⟩
      · intro ⟨before, d, later, heq, ⟨last, hran, hfail⟩⟩
        cases hran with
        | nil =>
            obtain ⟨rfl, rfl⟩ := List.cons.inj heq
            rw [List.length_nil, Nat.add_zero] at hfail
            rw [hfail]
        | @cons _ _ before _ mid _ hsend hran =>
            obtain ⟨rfl, rfl⟩ := List.cons.inj heq
            rw [hsend]
            refine ih.mpr ⟨before, d, later, rfl, ⟨last, hran, ?_⟩⟩
            rw [List.length_cons, show k + (before.length + 1) = k + 1 + before.length by omega]
              at hfail
            exact hfail

theorem runAll_append (l rest : List C) (s : S) : runAll send k (l ++ rest) s =
    match runAll send k l s with
    | (s', true) => runAll send (k + l.length) rest s'
    | (s', false) => (s', false) := by
  induction l generalizing k s with
  | nil => rfl
  | cons c l ih =>
      rw [List.cons_append, runAll, runAll]
      split
      · rw [ih, List.length_cons, show k + (l.length + 1) = k + 1 + l.length by omega]
      · rfl

-- What each command keeps is kept by the script, up to the one that fails.
theorem Ran.keeps {I : S → Prop} (h : Ran send k l s s')
    (hstep : ∀ k c s, c ∈ l → I s → I (send k c s).1) (hs : I s) : I s' := by
  induction h with
  | nil => exact hs
  | @cons k c rest s mid s' hsend hran ih =>
      refine ih (fun k d s hd => hstep k d s (List.mem_cons_of_mem c hd)) ?_
      have hmid := hstep k c s List.mem_cons_self hs
      rw [hsend] at hmid
      exact hmid

theorem FailsAt.keeps {I : S → Prop} (h : FailsAt send k l c s s')
    (hstep : ∀ k d s, d ∈ l ++ [c] → I s → I (send k d s).1) (hs : I s) : I s' := by
  obtain ⟨mid, hran, hfail⟩ := h
  have hmid := hran.keeps (fun k d s hd => hstep k d s (List.mem_append_left _ hd)) hs
  have hlast := hstep (k + l.length) c mid (List.mem_append_right _ (List.mem_singleton.mpr rfl)) hmid
  rw [hfail] at hlast
  exact hlast

theorem ran_append : Ran send k (l ++ rest) s s' ↔
    ∃ mid, Ran send k l s mid ∧ Ran send (k + l.length) rest mid s' := by
  rw [← runAll_true_iff, runAll_append]
  constructor
  · intro h
    split at h
    · rename_i mid hmid
      exact ⟨mid, runAll_true_iff.mp hmid, runAll_true_iff.mp h⟩
    · cases h
  · intro ⟨mid, hl, hrest⟩
    rw [runAll_true_iff.mpr hl]
    exact runAll_true_iff.mpr hrest

end Ruprizzle.Commands
