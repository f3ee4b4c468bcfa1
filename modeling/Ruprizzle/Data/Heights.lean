import Mathlib.Data.List.Induction
import Mathlib.Data.List.Infix

-- Lists whose members go up or down, a step up being no higher than one.
namespace Ruprizzle.Heights

variable {α : Type} (step : α → Int)

def height : List α → Int
  | [] => 0
  | a :: rest => step a + height rest

-- What never goes below where it starts.
def Stays (l : List α) : Prop := ∀ pre, pre <+: l → 0 ≤ height step pre

variable {step}

@[simp] theorem height_nil : height step [] = 0 := rfl

@[simp] theorem height_cons (a : α) (rest : List α) :
    height step (a :: rest) = step a + height step rest := rfl

theorem height_append (a b : List α) : height step (a ++ b) = height step a + height step b := by
  induction a with
  | nil => simp
  | cons x rest ih =>
      rw [List.cons_append, height_cons, height_cons, ih]
      omega

theorem Stays.nil : Stays step ([] : List α) := fun pre hpre => by
  rw [List.prefix_nil.mp hpre]
  exact Int.le_refl 0

theorem Stays.height_nonneg {l : List α} (h : Stays step l) : 0 ≤ height step l :=
  h l (List.prefix_refl l)

theorem Stays.concat {l : List α} {x : α} (h : Stays step l) (hx : 0 ≤ height step (l ++ [x])) :
    Stays step (l ++ [x]) := by
  intro pre hpre
  rcases List.prefix_concat_iff.mp hpre with rfl | hl
  · exact hx
  · exact h pre hl

-- What ends above where it starts has a last step up from there.
theorem exists_rise (hstep : ∀ a, step a ≤ 1) {l : List α} (h : 0 < height step l) :
    ∃ a x b, l = a ++ x :: b ∧ height step a = 0 ∧ step x = 1 ∧ Stays step b := by
  induction l using List.reverseRecOn with
  | nil => exact absurd h (Int.lt_irrefl 0)
  | append_singleton l y ih =>
      have hy := hstep y
      rw [height_append, height_cons, height_nil] at h
      by_cases hl : 0 < height step l
      · obtain ⟨a, x, b, rfl, ha, hx, hb⟩ := ih hl
        rw [height_append, height_cons] at h
        refine ⟨a, x, b ++ [y], by rw [List.append_assoc, List.cons_append], ha, hx, hb.concat ?_⟩
        rw [height_append, height_cons, height_nil]
        omega
      · exact ⟨l, y, [], rfl, by omega, by omega, Stays.nil⟩

end Ruprizzle.Heights
