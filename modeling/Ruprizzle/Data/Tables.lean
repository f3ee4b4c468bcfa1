import Mathlib.Data.List.Nodup

namespace Ruprizzle.Tables

-- Rows that a statement changes in their places.

variable {α : Type} {p q : α → Bool} {f : α → α} {rows : List α}

def updateWhere (p : α → Bool) (f : α → α) (rows : List α) : List α :=
  rows.map fun row => if p row then f row else row

@[simp] theorem length_updateWhere : (updateWhere p f rows).length = rows.length :=
  List.length_map _

theorem mem_updateWhere {row : α} :
    row ∈ updateWhere p f rows ↔ (row ∈ rows ∧ p row = false) ∨ ∃ old ∈ rows, p old = true ∧ f old = row := by
  unfold updateWhere
  rw [List.mem_map]
  constructor
  · intro ⟨old, hold, heq⟩
    by_cases hp : p old = true
    · rw [if_pos hp] at heq
      exact Or.inr ⟨old, hold, hp, heq⟩
    · rw [if_neg hp] at heq
      exact Or.inl ⟨heq ▸ hold, heq ▸ Bool.eq_false_iff.mpr hp⟩
  · intro h
    rcases h with ⟨hrow, hp⟩ | ⟨old, hold, hp, heq⟩
    · exact ⟨row, hrow, if_neg (Bool.eq_false_iff.mp hp)⟩
    · exact ⟨old, hold, (if_pos hp).trans heq⟩

-- Each row satisfies the second condition after the change just when it satisfied the
-- first one before.
def Stable (p q : α → Bool) (f : α → α) (rows : List α) : Prop :=
  ∀ row ∈ rows, q (if p row then f row else row) = p row

theorem filter_updateWhere (h : Stable p q f rows) :
    (updateWhere p f rows).filter q = (rows.filter p).map f := by
  have hsame : rows.filter (q ∘ fun row => if p row then f row else row) = rows.filter p := List.filter_congr h
  unfold updateWhere
  rw [List.filter_map, hsame]
  refine List.map_congr_left fun row hrow => if_pos (List.mem_filter.mp hrow).2

-- Where no two rows are alike, the rows that are found by the condition afterwards are
-- the changed ones only if it is stable.
theorem stable_iff (hnodup : (updateWhere p f rows).Nodup) :
    (updateWhere p f rows).filter q = (rows.filter p).map f ↔ Stable p q f rows := by
  refine ⟨fun h row hrow => ?_, filter_updateWhere⟩
  have hfound : ∀ new, new ∈ updateWhere p f rows → (q new = true ↔ ∃ old ∈ rows, p old = true ∧ f old = new) := by
    intro new hnew
    have hmem : new ∈ (updateWhere p f rows).filter q ↔ new ∈ (rows.filter p).map f := by rw [h]
    rw [List.mem_filter, and_iff_right hnew] at hmem
    rw [hmem, List.mem_map]
    refine exists_congr fun old => ?_
    rw [List.mem_filter, and_assoc]
  have hnew : (if p row then f row else row) ∈ updateWhere p f rows := List.mem_map.mpr ⟨row, hrow, rfl⟩
  by_cases hp : p row = true
  · rw [if_pos hp] at hnew ⊢
    rw [hp]
    exact (hfound _ hnew).mpr ⟨row, hrow, hp, rfl⟩
  · rw [if_neg hp] at hnew ⊢
    rw [Bool.eq_false_iff.mpr hp, Bool.eq_false_iff]
    intro hq
    -- Another row has been changed into this one, which has stayed.
    obtain ⟨old, hold, hpold, heq⟩ := (hfound _ hnew).mp hq
    obtain ⟨i, hi, hrowi⟩ := List.mem_iff_getElem.mp hrow
    obtain ⟨j, hj, holdj⟩ := List.mem_iff_getElem.mp hold
    have hlengthi : i < (updateWhere p f rows).length := by simpa using hi
    have hlengthj : j < (updateWhere p f rows).length := by simpa using hj
    have hsame : (updateWhere p f rows)[i] = (updateWhere p f rows)[j] := by
      simp only [updateWhere, List.getElem_map, hrowi, holdj, if_pos hpold, heq]
      exact if_neg hp
    have hplaces : i = j := hnodup.getElem_inj_iff.mp hsame
    subst hplaces
    rw [← hrowi, holdj] at hp
    exact hp hpold

-- Where a change is visible, it tells which rows satisfied the condition.
theorem updateWhere_inj {p' : α → Bool} (h : ∀ row, p row = true ∨ p' row = true → f row ≠ row) :
    updateWhere p f rows = updateWhere p' f rows ↔ ∀ row ∈ rows, p row = p' row := by
  unfold updateWhere
  rw [List.map_inj_left]
  refine forall₂_congr fun row _ => ?_
  cases hp : p row <;> cases hp' : p' row <;> simp [h row, hp, hp', Ne.symm (h row _)]

-- The rows that remain tell which were taken out.
theorem filter_inj {p' : α → Bool} :
    rows.filter (fun row => !p row) = rows.filter (fun row => !p' row) ↔ ∀ row ∈ rows, p row = p' row := by
  refine ⟨fun h row hrow => ?_, fun h => List.filter_congr fun row hrow => by rw [h row hrow]⟩
  have hmem : row ∈ rows.filter (fun row => !p row) ↔ row ∈ rows.filter (fun row => !p' row) := by rw [h]
  rw [List.mem_filter, List.mem_filter, and_iff_right hrow, and_iff_right hrow] at hmem
  exact Bool.not_inj (Bool.eq_iff_iff.mpr hmem)

end Ruprizzle.Tables
