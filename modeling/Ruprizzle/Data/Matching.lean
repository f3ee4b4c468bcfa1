import Mathlib.Data.Multiset.Bind
import Mathlib.Data.Multiset.AddSub

namespace Ruprizzle

variable {α β κ : Type} [DecidableEq κ]

-- The pairs of elements that two collections hold under the same key.
def matching (f : α → κ) (g : β → κ) (s : Multiset α) (t : Multiset β) : Multiset (α × β) :=
  (s ×ˢ t).filter (fun e => f e.1 = g e.2)

section Matching

variable {f : α → κ} {g : β → κ} {s : Multiset α} {t : Multiset β}

theorem mem_matching {a : α} {b : β} :
    (a, b) ∈ matching f g s t ↔ a ∈ s ∧ b ∈ t ∧ f a = g b := by
  simp [matching, and_assoc]

theorem matching_cons_left (a : α) :
    matching f g (a ::ₘ s) t = (t.filter (fun b => f a = g b)).map (a, ·) + matching f g s t := by
  unfold matching
  rw [Multiset.cons_product, Multiset.filter_add, Multiset.filter_map]
  rfl

theorem matching_cons_right (b : β) :
    matching f g s (b ::ₘ t) = (s.filter (fun a => f a = g b)).map (·, b) + matching f g s t := by
  unfold matching
  rw [Multiset.product_cons, Multiset.filter_add, Multiset.filter_map]
  rfl

-- A key is held once at most where keys do not repeat.
theorem filter_key (h : (t.map g).Nodup) (k : κ) :
    (k ∉ t.map g ∧ t.filter (fun b => k = g b) = 0) ∨
      ∃ b ∈ t, k = g b ∧ t.filter (fun b => k = g b) = {b} := by
  by_cases hk : k ∈ t.map g
  · right
    obtain ⟨b, hb, rfl⟩ := Multiset.mem_map.mp hk
    obtain ⟨rest, rfl⟩ := Multiset.exists_cons_of_mem hb
    rw [Multiset.map_cons, Multiset.nodup_cons] at h
    refine ⟨b, hb, rfl, ?_⟩
    rw [Multiset.filter_cons_of_pos rest (rfl : g b = g b)]
    have hrest : rest.filter (fun c => g b = g c) = 0 := by
      refine Multiset.filter_eq_nil.mpr fun c hc heq => h.1 ?_
      rw [heq]
      exact Multiset.mem_map_of_mem g hc
    rw [hrest]
    rfl
  · left
    refine ⟨hk, Multiset.filter_eq_nil.mpr fun b hb heq => hk ?_⟩
    rw [heq]
    exact Multiset.mem_map_of_mem g hb

-- Each element is matched or has a key the other side does not have.
theorem eq_matching_left (h : (t.map g).Nodup) :
    s = (matching f g s t).map Prod.fst + s.filter (fun a => f a ∉ t.map g) := by
  induction s using Multiset.induction_on with
  | empty => simp [matching]
  | cons a s ih =>
      rw [matching_cons_left, Multiset.map_add, Multiset.map_map]
      rcases filter_key h (f a) with ⟨hk, hz⟩ | ⟨b, hb, hk, hone⟩
      · rw [hz, Multiset.filter_cons_of_pos s hk]
        simp only [Multiset.map_zero, zero_add]
        rw [Multiset.add_cons, ← ih]
      · have hmem : ¬ f a ∉ t.map g := by
          rw [hk]
          exact not_not_intro (Multiset.mem_map_of_mem g hb)
        rw [hone, Multiset.filter_cons_of_neg s hmem, Multiset.map_singleton, add_assoc, ← ih]
        rfl

theorem eq_matching_right (h : (s.map f).Nodup) :
    t = (matching f g s t).map Prod.snd + t.filter (fun b => g b ∉ s.map f) := by
  induction t using Multiset.induction_on with
  | empty => simp [matching]
  | cons b t ih =>
      rw [matching_cons_right, Multiset.map_add, Multiset.map_map]
      have hsymm : s.filter (fun a => f a = g b) = s.filter (fun a => g b = f a) :=
        Multiset.filter_congr fun a _ => eq_comm
      rw [hsymm]
      rcases filter_key h (g b) with ⟨hk, hz⟩ | ⟨a, ha, hk, hone⟩
      · rw [hz, Multiset.filter_cons_of_pos t hk]
        simp only [Multiset.map_zero, zero_add]
        rw [Multiset.add_cons, ← ih]
      · have hmem : ¬ g b ∉ s.map f := by
          rw [hk]
          exact not_not_intro (Multiset.mem_map_of_mem f ha)
        rw [hone, Multiset.filter_cons_of_neg t hmem, Multiset.map_singleton, add_assoc, ← ih]
        rfl

end Matching

-- Of the elements of a list, the last under each key.
def lastOfKey (f : α → κ) : List α → List α
  | [] => []
  | a :: rest => if f a ∈ rest.map f then lastOfKey f rest else a :: lastOfKey f rest

-- And those a later one takes the place of.
def overwritten (f : α → κ) : List α → List α
  | [] => []
  | a :: rest => if f a ∈ rest.map f then a :: overwritten f rest else overwritten f rest

section LastOfKey

variable {f : α → κ}

theorem lastOfKey_cons (a : α) (rest : List α) : lastOfKey f (a :: rest) =
    if f a ∈ rest.map f then lastOfKey f rest else a :: lastOfKey f rest := rfl

theorem perm_lastOfKey (l : List α) : l.Perm (lastOfKey f l ++ overwritten f l) := by
  induction l with
  | nil => exact List.Perm.refl _
  | cons a rest ih =>
      unfold lastOfKey overwritten
      split
      · exact (ih.cons a).trans List.perm_middle.symm
      · exact ih.cons a

theorem mem_map_lastOfKey {l : List α} {k : κ} : k ∈ (lastOfKey f l).map f ↔ k ∈ l.map f := by
  induction l with
  | nil => rfl
  | cons a rest ih =>
      rw [lastOfKey_cons]
      split
      · rename_i ha
        rw [ih, List.map_cons, List.mem_cons]
        constructor
        · exact Or.inr
        · rintro (rfl | h)
          · exact ha
          · exact h
      · rw [List.map_cons, List.map_cons, List.mem_cons, List.mem_cons, ih]

theorem nodup_lastOfKey (l : List α) : ((lastOfKey f l).map f).Nodup := by
  induction l with
  | nil => exact List.nodup_nil
  | cons a rest ih =>
      rw [lastOfKey_cons]
      split
      · exact ih
      · rename_i ha
        rw [List.map_cons]
        exact List.nodup_cons.mpr ⟨fun h => ha (mem_map_lastOfKey.mp h), ih⟩

theorem overwritten_eq_nil {l : List α} : overwritten f l = [] ↔ (l.map f).Nodup := by
  induction l with
  | nil => simp [overwritten]
  | cons a rest ih =>
      unfold overwritten
      rw [List.map_cons, List.nodup_cons]
      split
      · rename_i ha
        simp [ha]
      · rename_i ha
        simp [ha, ih]

end LastOfKey

end Ruprizzle
