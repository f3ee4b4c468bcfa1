import Mathlib.Data.List.MinMax

namespace Ruprizzle.Extremes

-- The element that a pass over a list ends with: the first with the least key, or the
-- last with the greatest.

variable {α β : Type} [LinearOrder β] {f : α → β} {l : List α} {a : α}

def minByKey (f : α → β) (l : List α) : Option α := l.argmin f

def maxByKey (f : α → β) (l : List α) : Option α := l.reverse.argmax f

theorem argmax_iff : l.argmax f = some a ↔ ∃ before after, l = before ++ a :: after ∧
    (∀ e ∈ before, f e < f a) ∧ ∀ e ∈ after, f e ≤ f a := by
  induction l generalizing a with
  | nil => simp
  | cons first rest ih =>
      rw [List.argmax_cons]
      constructor
      · intro h
        cases hrest : rest.argmax f with
        | none =>
            rw [hrest] at h
            obtain rfl := Option.some.inj h
            obtain rfl := List.argmax_eq_none.mp hrest
            exact ⟨[], [], rfl, by simp, by simp⟩
        | some m =>
            rw [hrest] at h
            dsimp only at h
            split at h
            · next hlt =>
                obtain rfl := Option.some.inj h
                obtain ⟨before, after, rfl, hbefore, hafter⟩ := ih.mp hrest
                refine ⟨first :: before, after, rfl, fun e he => ?_, hafter⟩
                rcases List.mem_cons.mp he with rfl | he
                · exact hlt
                · exact hbefore e he
            · next hle =>
                obtain rfl := Option.some.inj h
                refine ⟨[], rest, rfl, by simp, fun e he => ?_⟩
                exact (List.le_of_mem_argmax he hrest).trans (not_lt.mp hle)
      · rintro ⟨before, after, heq, hbefore, hafter⟩
        cases before with
        | nil =>
            obtain ⟨rfl, rfl⟩ := List.cons.inj heq
            cases hrest : rest.argmax f with
            | none => rfl
            | some m =>
                dsimp only
                rw [if_neg (not_lt.mpr (hafter m (List.argmax_mem hrest)))]
        | cons b before =>
            obtain ⟨rfl, rfl⟩ := List.cons.inj heq
            rw [ih.mpr ⟨before, after, rfl, fun e he => hbefore e (List.mem_cons_of_mem _ he),
              hafter⟩]
            dsimp only
            rw [if_pos (hbefore _ List.mem_cons_self)]

theorem minByKey_iff : minByKey f l = some a ↔ ∃ before after, l = before ++ a :: after ∧
    (∀ e ∈ before, f a < f e) ∧ ∀ e ∈ after, f a ≤ f e :=
  argmax_iff (β := βᵒᵈ)

theorem minByKey_eq_none : minByKey f l = none ↔ l = [] := List.argmin_eq_none

theorem minByKey_map {γ : Type} {g : γ → α} {l : List γ} :
    minByKey f (l.map g) = (minByKey (fun c => f (g c)) l).map g := by
  cases h : minByKey (fun c => f (g c)) l with
  | none =>
      rw [minByKey_eq_none.mp h]
      rfl
  | some c =>
      obtain ⟨before, after, rfl, hbefore, hafter⟩ := minByKey_iff.mp h
      refine minByKey_iff.mpr ⟨before.map g, after.map g, by simp, ?_, ?_⟩
      · simpa using hbefore
      · simpa using hafter

theorem maxByKey_iff : maxByKey f l = some a ↔ ∃ before after, l = before ++ a :: after ∧
    (∀ e ∈ before, f e ≤ f a) ∧ ∀ e ∈ after, f e < f a := by
  rw [maxByKey, argmax_iff]
  constructor
  · rintro ⟨before, after, heq, hbefore, hafter⟩
    refine ⟨after.reverse, before.reverse, ?_, fun e he => hafter e (List.mem_reverse.mp he),
      fun e he => hbefore e (List.mem_reverse.mp he)⟩
    rw [← List.reverse_reverse l, heq]
    simp
  · rintro ⟨before, after, rfl, hbefore, hafter⟩
    refine ⟨after.reverse, before.reverse, by simp, fun e he => hafter e (List.mem_reverse.mp he),
      fun e he => hbefore e (List.mem_reverse.mp he)⟩

-- The elements that pass a test, one of them picked by its key.
theorem minByKey_filter {p : α → Bool} : minByKey f (l.filter p) = some a ↔
    ∃ before after, l = before ++ a :: after ∧ p a = true ∧
      (∀ e ∈ before, p e = true → f a < f e) ∧ ∀ e ∈ after, p e = true → f a ≤ f e := by
  rw [minByKey_iff]
  constructor
  · rintro ⟨before, after, heq, hbefore, hafter⟩
    obtain ⟨first, rest, rfl, hfirst, hrest⟩ := List.filter_eq_append_iff.mp heq
    obtain ⟨skipped, others, rfl, hskipped, hp, hothers⟩ := List.filter_eq_cons_iff.mp hrest
    refine ⟨first ++ skipped, others, by simp, hp, fun e he hpe => ?_, fun e he hpe => ?_⟩
    · rcases List.mem_append.mp he with he | he
      · exact hbefore e (hfirst ▸ List.mem_filter.mpr ⟨he, hpe⟩)
      · exact absurd hpe (hskipped e he)
    · exact hafter e (hothers ▸ List.mem_filter.mpr ⟨he, hpe⟩)
  · rintro ⟨before, after, rfl, hp, hbefore, hafter⟩
    refine ⟨before.filter p, after.filter p, ?_, fun e he => ?_, fun e he => ?_⟩
    · rw [List.filter_append, List.filter_cons_of_pos hp]
    · obtain ⟨he, hpe⟩ := List.mem_filter.mp he
      exact hbefore e he hpe
    · obtain ⟨he, hpe⟩ := List.mem_filter.mp he
      exact hafter e he hpe

end Ruprizzle.Extremes
