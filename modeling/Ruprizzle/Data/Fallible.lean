import Mathlib.Data.List.Forall2

namespace Ruprizzle.Fallible

-- Steps that may fail, read from what they give.

variable {ε α β : Type}

theorem bind_eq_ok {x : Except ε α} {f : α → Except ε β} {b : β} :
    x.bind f = .ok b ↔ ∃ a, x = .ok a ∧ f a = .ok b := by
  cases x <;> simp [Except.bind]

theorem map_eq_ok {x : Except ε α} {f : α → β} {b : β} :
    x.map f = .ok b ↔ ∃ a, x = .ok a ∧ f a = b := by
  cases x <;> simp [Except.map]

theorem forall₂_of_mapM {f : α → Except ε β} {items : List α} {out : List β}
    (h : items.mapM f = .ok out) : List.Forall₂ (fun a b => f a = .ok b) items out := by
  induction items generalizing out with
  | nil =>
      obtain rfl := Except.ok.inj h
      exact List.Forall₂.nil
  | cons a rest ih =>
      rw [List.mapM_cons] at h
      cases hfirst : f a with
      | error e =>
          rw [hfirst] at h
          cases h
      | ok b =>
          cases hrest : rest.mapM f with
          | error e =>
              rw [hfirst, hrest] at h
              cases h
          | ok more =>
              rw [hfirst, hrest] at h
              obtain rfl := Except.ok.inj h
              exact List.Forall₂.cons hfirst (ih hrest)

-- One item after another gives what each of them gives.
theorem mapM_ok_iff {f : α → Except ε β} {g : α → β} {items : List α} :
    items.mapM f = .ok (items.map g) ↔ ∀ a ∈ items, f a = .ok (g a) := by
  induction items with
  | nil => simp [pure, Except.pure]
  | cons a rest ih =>
      rw [List.mapM_cons, List.map_cons, List.forall_mem_cons, ← ih]
      cases hfirst : f a with
      | error e => simp [bind, Except.bind]
      | ok b =>
          cases hrest : rest.mapM f with
          | error e => simp [bind, Except.bind]
          | ok more => simp [bind, Except.bind, pure, Except.pure]

theorem mapM_error_iff {f : α → Except ε β} {items : List α} :
    (∃ e, items.mapM f = .error e) ↔ ∃ a ∈ items, ∃ e, f a = .error e := by
  induction items with
  | nil => simp [pure, Except.pure]
  | cons a rest ih =>
      rw [List.mapM_cons, List.exists_mem_cons_iff, ← ih]
      cases hfirst : f a with
      | error e => simp [bind, Except.bind]
      | ok b =>
          cases hrest : rest.mapM f with
          | error e => simp [bind, Except.bind]
          | ok more => simp [bind, Except.bind, pure, Except.pure]

-- Whatever is given is as it should be where an item is refused or all of them are.
theorem mapM_exact {f : α → Except ε β} {g : α → β} {items : List α} :
    (∀ out, items.mapM f = .ok out → out = items.map g) ↔
      (∃ a ∈ items, ∃ e, f a = .error e) ∨ ∀ a ∈ items, f a = .ok (g a) := by
  rw [← mapM_error_iff, ← mapM_ok_iff]
  cases hall : items.mapM f with
  | error e => simp
  | ok out => simp

section Matched

-- Two lists that are related item by item.

variable {R : α → β → Prop} {items : List α} {out : List β} {a : α} {b : β}

theorem exists_given (h : List.Forall₂ R items out) (ha : a ∈ items) : ∃ b ∈ out, R a b := by
  induction h with
  | nil => exact absurd ha List.not_mem_nil
  | @cons first given _ _ hfirst _ ih =>
      rcases List.mem_cons.mp ha with rfl | ha
      · exact ⟨given, List.mem_cons_self, hfirst⟩
      · obtain ⟨b, hb, hrel⟩ := ih ha
        exact ⟨b, List.mem_cons_of_mem _ hb, hrel⟩

theorem exists_taken (h : List.Forall₂ R items out) (hb : b ∈ out) : ∃ a ∈ items, R a b :=
  exists_given h.flip hb

end Matched

end Ruprizzle.Fallible
