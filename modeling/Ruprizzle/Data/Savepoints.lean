import Mathlib.Data.List.Nodup
import Mathlib.Data.List.TakeWhile

namespace Ruprizzle.Savepoints

-- What has been done in a transaction, and marks in it that it can be taken back to.
-- The latest mark comes first. A command on a mark that does not exist fails.

variable {κ α : Type}

structure Log (κ α : Type) where
  done : List α
  marks : List (κ × List α)
  deriving DecidableEq, Repr

namespace Log

def empty : Log κ α := ⟨[], []⟩

def names (log : Log κ α) : List κ := log.marks.map Prod.fst

def add (log : Log κ α) (a : α) : Log κ α := { log with done := log.done ++ [a] }

def mark (log : Log κ α) (k : κ) : Log κ α := { log with marks := (k, log.done) :: log.marks }

-- The marks after the latest of this name go, and with release it goes as well.

def release [DecidableEq κ] (log : Log κ α) (k : κ) : Option (Log κ α) :=
  match log.marks.dropWhile fun m => m.1 ≠ k with
  | [] => none
  | _ :: marks => some { log with marks }

def rollbackTo [DecidableEq κ] (log : Log κ α) (k : κ) : Option (Log κ α) :=
  match log.marks.dropWhile fun m => m.1 ≠ k with
  | [] => none
  | (k, done) :: marks => some ⟨done, (k, done) :: marks⟩

end Log

-- Transactions within transactions, the innermost first: what each has done since it
-- began.

def total : List (List α) → List α
  | [] => []
  | f :: rest => total rest ++ f

def addTop (frames : List (List α)) (a : α) : Option (List (List α)) :=
  match frames with
  | [] => none
  | f :: rest => some ((f ++ [a]) :: rest)

def merge : List (List α) → Option (List (List α))
  | f :: g :: rest => some ((g ++ f) :: rest)
  | _ => none

def discard : List (List α) → Option (List (List α))
  | _ :: g :: rest => some (g :: rest)
  | _ => none

-- Each mark stands where its transaction began.
def marksOf : List κ → List (List α) → List (κ × List α)
  | k :: ks, _ :: rest => (k, total rest) :: marksOf ks rest
  | _, _ => []

structure Stands (log : Log κ α) (ks : List κ) (frames : List (List α)) : Prop where
  done : log.done = total frames
  marks : (marksOf ks frames).Sublist log.marks
  nodup : log.names.Nodup
  depth : frames.length = ks.length + 1

theorem marksOf_top (ks : List κ) (f g : List α) (frames : List (List α)) :
    marksOf ks (f :: frames) = marksOf ks (g :: frames) := by
  cases ks <;> rfl

theorem marksOf_inner {inner ks : List κ} {frames : List (List α)}
    (h : frames.length = (inner ++ ks).length + 1) :
    ∃ frames', frames'.length = ks.length + 1 ∧
      (marksOf ks frames').Sublist (marksOf (inner ++ ks) frames) := by
  induction inner generalizing frames with
  | nil => exact ⟨frames, h, List.Sublist.refl _⟩
  | cons i rest ih =>
      match frames, h with
      | f :: frames, h =>
          obtain ⟨frames', hlength, hsub⟩ := ih (Nat.succ.inj h)
          exact ⟨frames', hlength, hsub.cons _⟩

namespace Stands

variable {log : Log κ α} {k : κ} {ks : List κ} {f g : List α} {frames : List (List α)}

theorem start : Stands (Log.empty : Log κ α) [] [[]] :=
  ⟨rfl, List.Sublist.slnil, List.nodup_nil, rfl⟩

theorem add (h : Stands log ks (f :: frames)) (a : α) :
    Stands (log.add a) ks ((f ++ [a]) :: frames) where
  done := by simp [Log.add, total, h.done]
  marks := marksOf_top ks f _ frames ▸ h.marks
  nodup := h.nodup
  depth := h.depth

theorem mark (h : Stands log ks frames) (hk : k ∉ log.names) :
    Stands (log.mark k) (k :: ks) ([] :: frames) where
  done := by simp [Log.mark, total, h.done]
  marks := by
    simp only [marksOf, Log.mark, ← h.done]
    exact h.marks.cons_cons _
  nodup := List.nodup_cons.mpr ⟨hk, h.nodup⟩
  depth := by simp [h.depth]

end Stands

variable [DecidableEq κ]

theorem dropWhile_of_sublist {k : κ} {m : List α} {marks all : List (κ × List α)}
    (hsub : ((k, m) :: marks).Sublist all) (hnodup : (all.map Prod.fst).Nodup) :
    ∃ rest, all.dropWhile (fun m => m.1 ≠ k) = (k, m) :: rest ∧ marks.Sublist rest := by
  induction all with
  | nil => cases hsub
  | cons head tail ih =>
      obtain ⟨hhead, htail⟩ := List.nodup_cons.mp hnodup
      cases hsub with
      | cons _ hsub =>
          have hmem : (k, m) ∈ tail := hsub.subset (by simp)
          have hne : head.1 ≠ k := by
            rintro rfl
            exact hhead (List.mem_map.mpr ⟨_, hmem, rfl⟩)
          rw [List.dropWhile_cons_of_pos (by simp [hne])]
          exact ih hsub htail
      | cons_cons _ hsub =>
          exact ⟨tail, List.dropWhile_cons_of_neg (by simp), hsub⟩

-- Of two marks the earlier one, that is the later in the list, drops the other.
theorem not_mem_dropWhile {j k : κ} {m n : List α} {marks all : List (κ × List α)}
    (hsub : ((j, m) :: (k, n) :: marks).Sublist all) (hnodup : (all.map Prod.fst).Nodup) :
    j ∉ (all.dropWhile fun m => m.1 ≠ k).map Prod.fst := by
  induction all with
  | nil => cases hsub
  | cons head tail ih =>
      obtain ⟨hhead, htail⟩ := List.nodup_cons.mp hnodup
      have hmem : (k, n) ∈ tail := by
        cases hsub with
        | cons _ hsub => exact hsub.subset (by simp)
        | cons_cons _ hsub => exact hsub.subset (by simp)
      have hne : head.1 ≠ k := by
        rintro rfl
        exact hhead (List.mem_map.mpr ⟨_, hmem, rfl⟩)
      rw [List.dropWhile_cons_of_pos (by simp [hne])]
      cases hsub with
      | cons _ hsub => exact ih hsub htail
      | cons_cons _ hsub =>
          intro hj
          exact hhead (((List.dropWhile_sublist _).map Prod.fst).subset hj)

theorem dropWhile_eq_nil {k : κ} {all : List (κ × List α)} (h : k ∉ all.map Prod.fst) :
    all.dropWhile (fun m => m.1 ≠ k) = [] := by
  rw [List.dropWhile_eq_nil_iff]
  intro m hm
  have hne : m.1 ≠ k := by
    rintro rfl
    exact h (List.mem_map_of_mem hm)
  simpa using hne

theorem rollbackTo_eq_none {log : Log κ α} {k : κ} (h : k ∉ log.names) :
    log.rollbackTo k = none := by
  unfold Log.rollbackTo
  rw [dropWhile_eq_nil h]

namespace Stands

variable {log : Log κ α} {k : κ} {ks : List κ} {f g : List α} {frames : List (List α)}

-- The mark of the innermost transaction is there, above those of the others.
theorem dropWhile (h : Stands log (k :: ks) (f :: g :: frames)) :
    ∃ rest, log.marks.dropWhile (fun m => m.1 ≠ k) = (k, total (g :: frames)) :: rest ∧
      (marksOf ks (g :: frames)).Sublist rest ∧ ((k, total (g :: frames)) :: rest).Sublist log.marks := by
  obtain ⟨rest, hdrop, hsub⟩ := dropWhile_of_sublist h.marks h.nodup
  exact ⟨rest, hdrop, hsub, hdrop ▸ List.dropWhile_sublist _⟩

theorem release (h : Stands log (k :: ks) (f :: g :: frames)) :
    ∃ log', log.release k = some log' ∧ Stands log' ks ((g ++ f) :: frames) ∧
      ∀ j ∈ log'.names, j ∈ log.names := by
  obtain ⟨rest, hdrop, hsub, hall⟩ := h.dropWhile
  have hnames := hall.map Prod.fst
  refine ⟨{ log with marks := rest }, by simp only [Log.release, hdrop], ?_, ?_⟩
  · refine ⟨?_, marksOf_top ks g _ frames ▸ hsub, ?_, by simpa using h.depth⟩
    · simp [h.done, total]
    · exact (List.nodup_cons.mp (hnames.nodup h.nodup)).2
  · exact fun j hj => hnames.subset (List.mem_cons_of_mem _ hj)

theorem rollbackTo (h : Stands log (k :: ks) (f :: g :: frames)) :
    ∃ log', log.rollbackTo k = some log' ∧ Stands log' ks (g :: frames) ∧
      ∀ j ∈ log'.names, j ∈ log.names := by
  obtain ⟨rest, hdrop, hsub, hall⟩ := h.dropWhile
  have hnames := hall.map Prod.fst
  refine ⟨⟨total (g :: frames), (k, total (g :: frames)) :: rest⟩,
    by simp only [Log.rollbackTo, hdrop], ?_, fun j hj => hnames.subset hj⟩
  exact ⟨rfl, hsub.cons _, hnames.nodup h.nodup, by simpa using h.depth⟩

-- Taking a transaction back takes the marks of those in it away.
theorem rollbackTo_outer {j : κ} {inner : List κ}
    (h : Stands log (inner ++ j :: k :: ks) frames) :
    ∃ log', log.rollbackTo k = some log' ∧ log'.rollbackTo j = none := by
  obtain ⟨frames', hlength, hinner⟩ := marksOf_inner h.depth
  match frames', hlength with
  | _ :: f :: frames', _ =>
      have hsub := hinner.trans h.marks
      simp only [marksOf] at hsub
      obtain ⟨rest, hdrop, -⟩ := dropWhile_of_sublist ((List.sublist_cons_self _ _).trans hsub) h.nodup
      have hnot := not_mem_dropWhile hsub h.nodup
      rw [hdrop] at hnot
      exact ⟨⟨total frames', (k, total frames') :: rest⟩, by simp only [Log.rollbackTo, hdrop],
        rollbackTo_eq_none hnot⟩

end Stands

end Ruprizzle.Savepoints
