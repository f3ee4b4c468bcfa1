import Mathlib.Data.List.Infix
import Ruprizzle.Data.Run

namespace Ruprizzle.Steps

-- Runs of a step that cannot fail: what holds after every part of a run, and what
-- every step of a run meets before it is made.

variable {σ α : Type} (step : σ → α → σ)

def Always (Good : σ → Prop) (s : σ) (l : List α) : Prop :=
  ∀ past, past <+: l → Good (past.foldl step s)

def Along (Meets : σ → α → Prop) (s : σ) (l : List α) : Prop :=
  ∀ past a, past ++ [a] <+: l → Meets (past.foldl step s) a

variable {step} {Good Inv : σ → Prop} {Meets : σ → α → Prop} {s : σ} {a : α} {l : List α}

theorem always_nil : Always step Good s [] ↔ Good s := by
  unfold Always
  simp

theorem always_cons : Always step Good s (a :: l) ↔ Good s ∧ Always step Good (step s a) l := by
  constructor
  · intro h
    exact ⟨h [] List.nil_prefix, fun past hpast => h (a :: past) (by simpa using hpast)⟩
  · rintro ⟨hs, hrest⟩ past hpast
    rcases List.prefix_cons_iff.mp hpast with rfl | ⟨tail, rfl, htail⟩
    · exact hs
    · exact hrest tail htail

theorem along_nil : Along step Meets s [] := by
  intro past a h
  simp at h

theorem along_cons : Along step Meets s (a :: l) ↔ Meets s a ∧ Along step Meets (step s a) l := by
  constructor
  · intro h
    exact ⟨h [] a (by simp), fun past b hpast => h (a :: past) b (by simpa using hpast)⟩
  · rintro ⟨hs, hrest⟩ past b hpast
    cases past with
    | nil =>
        obtain rfl : b = a := by simpa using hpast
        exact hs
    | cons head tail =>
        obtain ⟨rfl, htail⟩ : head = a ∧ tail ++ [b] <+: l := by simpa using hpast
        exact hrest tail b htail

theorem Along.and {Meets' : σ → α → Prop} (h : Along step Meets s l) (h' : Along step Meets' s l) :
    Along step (fun s a => Meets s a ∧ Meets' s a) s l :=
  fun past a hpast => ⟨h past a hpast, h' past a hpast⟩

theorem Along.earlier {past : List α} (h : Along step Meets s l) (hpast : past <+: l) :
    Along step Meets s past :=
  fun before a hbefore => h before a (hbefore.trans hpast)

-- A step that may fail goes along with one that cannot, where it does what that does.
theorem foldlM_eq_foldl {step' : σ → α → Option σ}
    (hstep : ∀ s a, Meets s a → step' s a = some (step s a)) (h : Along step Meets s l) :
    l.foldlM step' s = some (l.foldl step s) := by
  induction l generalizing s with
  | nil => rfl
  | cons a rest ih =>
      obtain ⟨hmeets, hrest⟩ := along_cons.mp h
      rw [Run.foldlM_cons, hstep s a hmeets, Option.bind_some, ih hrest]
      rfl

-- An invariant that the steps of a run keep holds after each part of it.
theorem always_of_along (hstep : ∀ s a, Inv s → Meets s a → Inv (step s a)) (hs : Inv s)
    (h : Along step Meets s l) : Always step Inv s l := by
  induction l generalizing s with
  | nil => exact always_nil.mpr hs
  | cons a rest ih =>
      obtain ⟨hmeets, hrest⟩ := along_cons.mp h
      exact always_cons.mpr ⟨hs, ih (hstep s a hs hmeets) hrest⟩

theorem Always.imp {Good' : σ → Prop} (himp : ∀ s, Good s → Good' s)
    (h : Always step Good s l) : Always step Good' s l :=
  fun past hpast => himp _ (h past hpast)

-- Where a step that does not meet the condition breaks what is promised, the runs
-- that keep the promise are those whose steps all meet it.
theorem always_iff (hgood : ∀ s, Inv s → Good s)
    (hstep : ∀ s a, Inv s → Meets s a → Inv (step s a))
    (hbreak : ∀ s a, Inv s → ¬Meets s a → ¬Good (step s a)) (hs : Inv s) :
    Always step Good s l ↔ Along step Meets s l := by
  refine ⟨fun h => ?_, fun h => (always_of_along hstep hs h).imp hgood⟩
  induction l generalizing s with
  | nil => exact along_nil
  | cons a rest ih =>
      obtain ⟨-, hrest⟩ := always_cons.mp h
      have hmeets : Meets s a := by
        by_contra hnot
        exact hbreak s a hs hnot (hrest [] List.nil_prefix)
      exact along_cons.mpr ⟨hmeets, ih (hstep s a hs hmeets) hrest⟩

end Ruprizzle.Steps
