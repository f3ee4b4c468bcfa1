import Mathlib.Data.List.Basic

namespace Ruprizzle.Run

-- Runs of a step that may fail: none stands for the failure, and a run stops
-- at the first one.

variable {σ α : Type} {step : σ → α → Option σ}

@[simp] theorem foldlM_nil (s : σ) : ([] : List α).foldlM step s = some s := rfl

@[simp] theorem foldlM_cons (s : σ) (a : α) (l : List α) :
    (a :: l).foldlM step s = (step s a).bind (fun t => l.foldlM step t) := rfl

theorem foldlM_append (s : σ) (l l' : List α) :
    (l ++ l').foldlM step s = (l.foldlM step s).bind (fun t => l'.foldlM step t) := by
  induction l generalizing s with
  | nil => rfl
  | cons a rest ih =>
      cases h : step s a with
      | none => simp [h]
      | some t =>
          have := ih t
          simp only [List.cons_append, foldlM_cons, h, Option.bind_some]
          exact this

-- A step that never fails where an invariant holds, and keeps it, never fails
-- in a run that starts there.
theorem foldlM_total {P : σ → Prop} {l : List α} {s : σ} (hs : P s)
    (hstep : ∀ a ∈ l, ∀ t, P t → ∃ u, step t a = some u ∧ P u) :
    ∃ u, l.foldlM step s = some u ∧ P u := by
  induction l generalizing s with
  | nil => exact ⟨s, rfl, hs⟩
  | cons a rest ih =>
      obtain ⟨t, ht, hp⟩ := hstep a (by simp) s hs
      obtain ⟨u, hu, hq⟩ := ih hp (fun b hb => hstep b (List.mem_cons_of_mem a hb))
      exact ⟨u, by simp [ht, hu], hq⟩

-- What every step keeps holds at the end of a run that did not fail.
theorem foldlM_invariant {P : σ → Prop} {l : List α} {s u : σ} (hs : P s)
    (hrun : l.foldlM step s = some u)
    (hstep : ∀ a ∈ l, ∀ t t', P t → step t a = some t' → P t') : P u := by
  induction l generalizing s with
  | nil =>
      cases hrun
      exact hs
  | cons a rest ih =>
      cases h : step s a with
      | none => simp [h] at hrun
      | some t =>
          simp only [foldlM_cons, h, Option.bind_some] at hrun
          exact ih (hstep a (by simp) s t hs h) hrun
            (fun b hb => hstep b (List.mem_cons_of_mem a hb))

-- An invariant that says what has been processed so far.
theorem foldlM_processed {P : List α → σ → Prop} {done l : List α} {s u : σ} (hs : P done s)
    (hrun : l.foldlM step s = some u)
    (hstep : ∀ done a t t', a ∈ l → P done t → step t a = some t' → P (done ++ [a]) t') :
    P (done ++ l) u := by
  induction l generalizing done s with
  | nil =>
      cases hrun
      rw [List.append_nil]
      exact hs
  | cons a rest ih =>
      cases h : step s a with
      | none => simp [h] at hrun
      | some t =>
          simp only [foldlM_cons, h, Option.bind_some] at hrun
          rw [← List.singleton_append, ← List.append_assoc]
          exact ih (hstep done a s t List.mem_cons_self hs h) hrun
            (fun done b t t' hb => hstep done b t t' (List.mem_cons_of_mem a hb))

end Ruprizzle.Run
