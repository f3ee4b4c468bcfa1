import Mathlib.Logic.Basic

namespace Ruprizzle.Retrying

-- Attempts that are made one after the other, up to a number of times, until one
-- succeeds or fails in a way that is not tried again.

inductive End (V E F : Type)
  | done (value : V)
  | fatal (error : E)
  | failed (failure : F)

variable {V E F : Type} (attempt : Nat → End V E F) (report : F → E)

-- How many attempts were made, and what came of the last one. The i-th is made
-- first, and there may be some more after it.
def loop (again : F → Bool) (i : Nat) : Nat → Nat × Except E V
  | 0 =>
      match attempt i with
      | .done v => (1, .ok v)
      | .fatal e => (1, .error e)
      | .failed f => (1, .error (report f))
  | more + 1 =>
      match attempt i with
      | .done v => (1, .ok v)
      | .fatal e => (1, .error e)
      | .failed f =>
          if again f then
            let (made, result) := loop again (i + 1) more
            (made + 1, result)
          else (1, .error (report f))

-- All attempts before the j-th from the i-th on have failed in a way that is
-- tried again.
def Reached (again : F → Bool) (i j : Nat) : Prop :=
  ∀ k < j, ∃ f, attempt (i + k) = .failed f ∧ again f = true

variable {attempt report} {again other : F → Bool} {i more : Nat}

theorem loop_made : 1 ≤ (loop attempt report again i more).1 ∧
    (loop attempt report again i more).1 ≤ more + 1 := by
  induction more generalizing i with
  | zero =>
      rw [loop]
      split <;> exact ⟨Nat.le_refl 1, Nat.le_refl 1⟩
  | succ more ih =>
      have hrest := ih (i := i + 1)
      rw [loop]
      split
      · exact ⟨Nat.le_refl 1, by omega⟩
      · exact ⟨Nat.le_refl 1, by omega⟩
      · split
        · constructor
          · exact Nat.le_add_left 1 _
          · exact Nat.succ_le_succ hrest.2
        · exact ⟨Nat.le_refl 1, by omega⟩

theorem reached_succ {f : F} (hfailed : attempt i = .failed f) (hagain : again f = true) {j : Nat} :
    Reached attempt again i (j + 1) ↔ Reached attempt again (i + 1) j := by
  constructor
  · intro h k hk
    obtain ⟨g, hg⟩ := h (k + 1) (by omega)
    rw [show i + (k + 1) = i + 1 + k by omega] at hg
    exact ⟨g, hg⟩
  · intro h k hk
    cases k with
    | zero => exact ⟨f, hfailed, hagain⟩
    | succ k =>
        obtain ⟨g, hg⟩ := h k (by omega)
        rw [show i + 1 + k = i + (k + 1) by omega] at hg
        exact ⟨g, hg⟩

-- Where the loop succeeds, the last attempt has and all others were tried again.
theorem loop_ok {made : Nat} {v : V} (h : loop attempt report again i more = (made, .ok v)) :
    ∃ j ≤ more, made = j + 1 ∧ attempt (i + j) = .done v ∧ Reached attempt again i j := by
  induction more generalizing i made with
  | zero =>
      rw [loop] at h
      split at h
      · rename_i hdone
        cases h
        exact ⟨0, Nat.zero_le _, rfl, hdone, fun k hk => absurd hk (Nat.not_lt_zero k)⟩
      · cases h
      · cases h
  | succ more ih =>
      rw [loop] at h
      split at h
      · rename_i hdone
        cases h
        exact ⟨0, Nat.zero_le _, rfl, hdone, fun k hk => absurd hk (Nat.not_lt_zero k)⟩
      · cases h
      · rename_i f hfailed
        split at h
        · rename_i hagain
          obtain ⟨hcount, hresult⟩ := Prod.mk.inj h
          obtain ⟨j, hj, hmade, hdone, hreached⟩ := ih (Prod.ext rfl hresult)
          refine ⟨j + 1, Nat.succ_le_succ hj, hcount.symm.trans (congrArg Nat.succ hmade), ?_,
            (reached_succ hfailed hagain).mpr hreached⟩
          rw [show i + (j + 1) = i + 1 + j by omega]
          exact hdone
        · cases h

theorem loop_failed {f : F} (h : attempt i = .failed f) :
    loop attempt report again i (more + 1) =
      if again f then ((loop attempt report again (i + 1) more).1 + 1,
        (loop attempt report again (i + 1) more).2)
      else (1, .error (report f)) := by
  rw [loop, h]

theorem loop_done {j : Nat} {v : V} (hj : j ≤ more) (hreached : Reached attempt again i j)
    (hdone : attempt (i + j) = .done v) :
    loop attempt report again i more = (j + 1, .ok v) := by
  induction j generalizing i more with
  | zero =>
      rw [Nat.add_zero] at hdone
      cases more <;> rw [loop, hdone]
  | succ j ih =>
      obtain ⟨f, hf, hagain⟩ := hreached 0 (Nat.succ_pos j)
      rw [Nat.add_zero] at hf
      obtain ⟨more, rfl⟩ : ∃ n, more = n + 1 := ⟨more - 1, by omega⟩
      rw [loop_failed hf, if_pos hagain,
        ih (by omega) ((reached_succ hf hagain).mp hreached) (by rw [← hdone]; congr 1; omega)]

theorem loop_over (h : ∀ f, attempt i ≠ .failed f) :
    loop attempt report again i (more + 1) = loop attempt report other i (more + 1) := by
  rw [loop, loop]
  cases hend : attempt i with
  | done v => rfl
  | fatal e => rfl
  | failed f => exact absurd hend (h f)

-- Whether there is a second attempt shows in their number.
theorem made_one_iff {f : F} (h : attempt i = .failed f) :
    (loop attempt report again i (more + 1)).1 = 1 ↔ again f = false := by
  have hmade : 1 ≤ (loop attempt report again (i + 1) more).1 := loop_made.1
  rw [loop_failed h]
  split
  · rename_i hagain
    rw [hagain]
    constructor
    · intro hone
      dsimp only at hone
      omega
    · intro hno
      cases hno
  · rename_i hagain
    exact ⟨fun _ => Bool.eq_false_iff.mpr hagain, fun _ => rfl⟩

theorem not_reached {j : Nat} (h : ∀ f, attempt i = .failed f → again f = false) (hj : 0 < j) :
    ¬ Reached attempt again i j := by
  intro hreached
  obtain ⟨f, hf, hagain⟩ := hreached 0 hj
  rw [h f hf] at hagain
  cases hagain

-- Two loops do the same exactly where their tests agree on the failures that are
-- met with attempts left.
theorem loop_eq_iff : loop attempt report again i more = loop attempt report other i more ↔
    ∀ j < more, Reached attempt other i j → ∀ f, attempt (i + j) = .failed f →
      again f = other f := by
  induction more generalizing i with
  | zero =>
      constructor
      · intro _ j hj
        exact absurd hj (Nat.not_lt_zero j)
      · intro _
        rw [loop, loop]
  | succ more ih =>
      by_cases hover : ∀ f, attempt i ≠ .failed f
      · refine ⟨fun _ j _ hreached f hf => ?_, fun _ => loop_over hover⟩
        rcases Nat.eq_zero_or_pos j with rfl | hj
        · exact absurd hf (hover f)
        · exact absurd hreached (not_reached (fun g hg => absurd hg (hover g)) hj)
      · simp only [not_forall, not_not] at hover
        obtain ⟨f, hf⟩ := hover
        -- The tests must agree on the failure at hand, and where it is tried again
        -- on all that come after it.
        have hfirst : loop attempt report again i (more + 1) =
            loop attempt report other i (more + 1) → again f = other f := by
          intro h
          have hagain : (loop attempt report again i (more + 1)).1 = 1 ↔ again f = false :=
            made_one_iff hf
          rw [h, made_one_iff hf] at hagain
          exact Bool.eq_iff_iff.mpr (by rw [← Bool.not_eq_false, ← Bool.not_eq_false, hagain])
        cases hother : other f with
        | false =>
            constructor
            · intro h j _ hreached g hg
              rcases Nat.eq_zero_or_pos j with rfl | hj
              · rw [Nat.add_zero, hf] at hg
                obtain rfl := End.failed.inj hg
                exact hfirst h
              · refine absurd hreached (not_reached (fun x hx => ?_) hj)
                rw [hf] at hx
                obtain rfl := End.failed.inj hx
                exact hother
            · intro h
              have hsame := h 0 (by omega) (fun k hk => absurd hk (Nat.not_lt_zero k)) f hf
              rw [loop_failed hf, loop_failed hf, hsame, hother]
              rfl
        | true =>
            have hrest : again f = true → (loop attempt report again i (more + 1) =
                loop attempt report other i (more + 1) ↔
                  loop attempt report again (i + 1) more = loop attempt report other (i + 1) more) := by
              intro hagain
              rw [loop_failed hf, loop_failed hf, if_pos hagain, if_pos hother, Prod.mk.injEq,
                Nat.add_right_cancel_iff, ← Prod.ext_iff]
            constructor
            · intro h j hj hreached g hg
              have hagain := (hfirst h).trans hother
              rcases j with _ | j
              · rw [Nat.add_zero, hf] at hg
                obtain rfl := End.failed.inj hg
                exact hfirst h
              · rw [show i + (j + 1) = i + 1 + j by omega] at hg
                exact ih.mp ((hrest hagain).mp h) j (by omega)
                  ((reached_succ hf hother).mp hreached) g hg
            · intro h
              have hsame := h 0 (by omega) (fun k hk => absurd hk (Nat.not_lt_zero k)) f hf
              refine (hrest (hsame.trans hother)).mpr (ih.mpr fun j hj hreached g hg => ?_)
              rw [show i + 1 + j = i + (j + 1) by omega] at hg
              exact h (j + 1) (by omega) ((reached_succ hf hother).mpr hreached) g hg

end Ruprizzle.Retrying
