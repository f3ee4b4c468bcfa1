import Mathlib.Data.List.Perm.Basic

namespace Ruprizzle.Joins

-- Joins of two tables as SQL has them, in which a row without a partner may be
-- kept by itself.

variable {α β : Type}

def pairs (on : α → β → Bool) (l : List α) (r : List β) : List (Option α × Option β) :=
  l.flatMap fun a => (r.filter (on a)).map fun b => (some a, some b)

def unmatched (on : α → β → Bool) (l : List α) (r : List β) : List α :=
  l.filter fun a => !r.any (on a)

def join (keepLeft keepRight : Bool) (on : α → β → Bool) (l : List α) (r : List β) :
    List (Option α × Option β) :=
  pairs on l r ++
    (if keepLeft then (unmatched on l r).map fun a => (some a, none) else []) ++
    (if keepRight then (unmatched (fun b a => on a b) r l).map fun b => (none, some b) else [])

variable {on : α → β → Bool} {l : List α} {r : List β} {p : α → Bool} {q : β → Bool}

theorem mem_pairs {c : Option α × Option β} :
    c ∈ pairs on l r ↔ ∃ a ∈ l, ∃ b ∈ r, on a b = true ∧ c = (some a, some b) := by
  simp only [pairs, List.mem_flatMap, List.mem_map, List.mem_filter]
  constructor
  · rintro ⟨a, ha, b, ⟨hb, hon⟩, rfl⟩
    exact ⟨a, ha, b, hb, hon, rfl⟩
  · rintro ⟨a, ha, b, hb, hon, rfl⟩
    exact ⟨a, ha, b, ⟨hb, hon⟩, rfl⟩

theorem mem_unmatched {a : α} :
    a ∈ unmatched on l r ↔ a ∈ l ∧ ∀ b ∈ r, on a b = false := by
  simp [unmatched]

theorem mem_join {keepLeft keepRight : Bool} {c : Option α × Option β} :
    c ∈ join keepLeft keepRight on l r ↔
      (∃ a ∈ l, ∃ b ∈ r, on a b = true ∧ c = (some a, some b)) ∨
      (keepLeft = true ∧ ∃ a ∈ l, (∀ b ∈ r, on a b = false) ∧ c = (some a, none)) ∨
      (keepRight = true ∧ ∃ b ∈ r, (∀ a ∈ l, on a b = false) ∧ c = (none, some b)) := by
  have hleft : c ∈ (if keepLeft then (unmatched on l r).map fun a => (some a, (none : Option β))
      else []) ↔ keepLeft = true ∧ ∃ a ∈ l, (∀ b ∈ r, on a b = false) ∧ c = (some a, none) := by
    cases keepLeft
    · simp
    · simp only [ite_true, List.mem_map, mem_unmatched, true_and, and_assoc, eq_comm]
  have hright : c ∈ (if keepRight then (unmatched (fun b a => on a b) r l).map
      fun b => ((none : Option α), some b) else []) ↔
        keepRight = true ∧ ∃ b ∈ r, (∀ a ∈ l, on a b = false) ∧ c = (none, some b) := by
    cases keepRight
    · simp
    · simp only [ite_true, List.mem_map, mem_unmatched, true_and, and_assoc, eq_comm]
  rw [join, List.mem_append, List.mem_append, mem_pairs, hleft, hright, or_assoc]

theorem unmatched_cons (a : α) (rest : List α) :
    unmatched on (a :: rest) r = (if (r.filter (on a)).length = 0 then [a] else []) ++
      unmatched on rest r := by
  have hnone : (r.filter (on a)).length = 0 ↔ r.any (on a) = false := by
    rw [List.length_eq_zero_iff, List.filter_eq_nil_iff, List.any_eq_false]
  rw [unmatched, unmatched, List.filter_cons]
  by_cases h : r.any (on a) = false
  · simp [h, hnone.mpr h]
  · rw [Bool.not_eq_false] at h
    simp [h, mt hnone.mp]

-- Where each row of the left that passes stands in one combination alone, and
-- nothing else passes, there are as many combinations as rows.
theorem length_filter_join {keepLeft keepRight : Bool} {pass : Option α × Option β → Bool}
    (hpass : ∀ a ∈ l, ∀ b, (∀ row, b = some row → row ∈ r) → pass (some a, b) = p a)
    (hright : keepRight = true → ∀ b ∈ r, (∀ a ∈ l, on a b = false) → pass (none, some b) = false)
    (hone : ∀ a ∈ l, p a = true → (r.filter (on a)).length = 1 ∨
      keepLeft = true ∧ (r.filter (on a)).length = 0) :
    ((join keepLeft keepRight on l r).filter pass).length = (l.filter p).length := by
  have hkept : (if keepRight then (unmatched (fun b a => on a b) r l).map
      fun b => ((none : Option α), some b) else []).filter pass = [] := by
    cases hkeep : keepRight
    · rfl
    · rw [if_pos rfl, List.filter_eq_nil_iff]
      intro c hc
      obtain ⟨b, hb, rfl⟩ := List.mem_map.mp hc
      rw [mem_unmatched] at hb
      simp [hright hkeep b hb.1 hb.2]
  rw [join, List.filter_append, List.filter_append, hkept, List.append_nil, List.length_append]
  clear hkept hright
  induction l with
  | nil => cases keepLeft <;> rfl
  | cons a rest ih =>
      obtain ⟨hfirst, hrest⟩ := List.forall_mem_cons.mp hpass
      have hone' := (List.forall_mem_cons.mp hone).1
      have hmore := ih hrest (List.forall_mem_cons.mp hone).2
      have hpair : ∀ b ∈ r.filter (on a), pass (some a, some b) = p a := fun b hb =>
        hfirst (some b) fun row hrow => Option.some.inj hrow ▸ (List.mem_filter.mp hb).1
      have hnull : pass (some a, none) = p a := hfirst none fun row hrow => by simp at hrow
      have hpairs : (((r.filter (on a)).map fun b => (some a, some b)).filter pass).length
          = if p a = true then (r.filter (on a)).length else 0 := by
        rw [List.filter_map, List.length_map]
        by_cases hp : p a = true
        · rw [if_pos hp, List.filter_eq_self.mpr fun b hb => by simp [hpair b hb, hp]]
        · rw [if_neg hp, List.filter_eq_nil_iff.mpr fun b hb => by simp [hpair b hb, hp]]
          rfl
      have halone : (((unmatched on (a :: rest) r).map fun a => (some a, (none : Option β))).filter
          pass).length
          = (if p a = true ∧ (r.filter (on a)).length = 0 then 1 else 0) +
            (((unmatched on rest r).map fun a => (some a, (none : Option β))).filter pass).length := by
        rw [unmatched_cons, List.map_append, List.filter_append, List.length_append]
        by_cases hnone : (r.filter (on a)).length = 0
        · by_cases hp : p a = true <;> simp [hnone, hp, hnull]
        · simp only [hnone, ite_false, and_false, List.map_nil, List.filter_nil, List.length_nil]
      have hcons : pairs on (a :: rest) r
          = ((r.filter (on a)).map fun b => (some a, some b)) ++ pairs on rest r := rfl
      rw [hcons, List.filter_append, List.length_append, hpairs, List.filter_cons]
      cases keepLeft with
      | false =>
          simp only [Bool.false_eq_true, ite_false, List.filter_nil, List.length_nil, false_and,
            or_false, Nat.add_zero] at hmore hone' ⊢
          split
          · next hp =>
              rw [hone' hp, List.length_cons]
              omega
          · omega
      | true =>
          simp only [ite_true, true_and] at hmore hone' ⊢
          rw [halone]
          by_cases hp : p a = true
          · simp only [hp, ite_true, true_and, List.length_cons]
            rcases hone' hp with hmatch | hmatch
            · rw [hmatch]
              simp only [Nat.one_ne_zero, ite_false]
              omega
            · rw [hmatch]
              simp only [ite_true]
              omega
          · rw [if_neg hp, if_neg hp, if_neg fun h => hp h.1]
            omega

-- One side is narrowed in the condition of the join, the other one afterwards.

theorem filter_pairs :
    (pairs (fun a b => on a b && q b) l r).filter (fun c => c.1.all p)
      = pairs on (l.filter p) (r.filter q) := by
  induction l with
  | nil => rfl
  | cons a rest ih =>
      have hfirst : ((r.filter fun b => on a b && q b).map fun b => (some a, some b)).filter
          (fun c : Option α × Option β => c.1.all p)
          = if p a then ((r.filter q).filter (on a)).map fun b => (some a, some b) else [] := by
        rw [List.filter_map, List.filter_filter]
        cases hp : p a <;> simp [hp]
      simp only [pairs, List.flatMap_cons, List.filter_append, hfirst, List.filter_cons] at ih ⊢
      rw [ih]
      cases p a <;> simp

theorem any_and (a : α) : r.any (fun b => on a b && q b) = (r.filter q).any (on a) := by
  rw [List.any_filter]
  exact congrArg r.any (funext fun b => Bool.and_comm _ _)

theorem filter_unmatched :
    (unmatched (fun a b => on a b && q b) l r).filter p = unmatched on (l.filter p) (r.filter q) := by
  simp only [unmatched, List.filter_filter, any_and]
  exact List.filter_congr fun a _ => Bool.and_comm _ _

theorem filter_perm_iff {p p' : α → Bool} :
    (l.filter p).Perm (l.filter p') ↔ ∀ a ∈ l, p a = p' a := by
  constructor
  · intro h a ha
    have hmem := h.mem_iff (a := a)
    simp only [List.mem_filter, ha, true_and] at hmem
    cases hp : p a <;> simp_all
  · intro h
    rw [List.filter_congr h]

-- The kept rows of the other side are the right ones exactly where none is
-- narrowed away itself, nor all of its partners.
theorem perm_unmatched_iff :
    (unmatched (fun b a => on a b && q b) r l).Perm
        (unmatched (fun b a => on a b) (r.filter q) (l.filter p)) ↔
      ∀ b ∈ r, q b = true ∧
        ((∃ a ∈ l, on a b = true) → ∃ a ∈ l, p a = true ∧ on a b = true) := by
  simp only [unmatched, List.filter_filter, filter_perm_iff]
  refine forall₂_congr fun b _ => ?_
  have hboth : (l.filter p).any (fun a => on a b) = true ↔ ∃ a ∈ l, p a = true ∧ on a b = true := by
    simp [List.any_eq_true]
  cases hq : q b
  · simp
  · simp only [Bool.and_true, true_and]
    rw [← hboth]
    have hone : l.any (fun a => on a b) = true ↔ ∃ a ∈ l, on a b = true := by
      simp [List.any_eq_true]
    have hless : (l.filter p).any (fun a => on a b) = true → l.any (fun a => on a b) = true := by
      rw [hone, hboth]
      rintro ⟨a, ha, -, hon⟩
      exact ⟨a, ha, hon⟩
    rw [← hone]
    cases h : (l.filter p).any (fun a => on a b) <;> cases h' : l.any (fun a => on a b) <;> simp_all

-- A join narrowed so is the join of the narrowed tables.
theorem perm_join_iff {keepLeft keepRight : Bool} :
    ((join keepLeft keepRight (fun a b => on a b && q b) l r).filter fun c => c.1.all p).Perm
        (join keepLeft keepRight on (l.filter p) (r.filter q)) ↔
      (keepRight = true → ∀ b ∈ r, q b = true ∧
        ((∃ a ∈ l, on a b = true) → ∃ a ∈ l, p a = true ∧ on a b = true)) := by
  have hleft : (if keepLeft then (unmatched (fun a b => on a b && q b) l r).map
      fun a => (some a, (none : Option β)) else []).filter (fun c => c.1.all p)
      = if keepLeft then (unmatched on (l.filter p) (r.filter q)).map fun a => (some a, none)
        else [] := by
    cases keepLeft
    · rfl
    · simp only [ite_true, List.filter_map, ← filter_unmatched]
      rfl
  have hright : (if keepRight then (unmatched (fun b a => on a b && q b) r l).map
      fun b => ((none : Option α), some b) else []).filter (fun c => c.1.all p)
      = if keepRight then (unmatched (fun b a => on a b && q b) r l).map fun b => (none, some b)
        else [] := by
    cases keepRight <;> simp
  have hinj : Function.Injective fun b : β => ((none : Option α), some b) := fun b b' h => by
    simpa using h
  rw [join, join, List.filter_append, List.filter_append, filter_pairs, hleft, hright,
    List.perm_append_left_iff]
  cases keepRight
  · simp
  · simp only [ite_true, forall_const]
    rw [← perm_unmatched_iff]
    exact List.map_perm_map_iff hinj

end Ruprizzle.Joins
