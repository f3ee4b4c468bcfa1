import Mathlib.Order.Bounds.Basic

namespace Ruprizzle.Edits

-- Texts that are changed one symbol at a time, and how many changes it takes.

variable {α : Type}

-- One symbol is put in, taken out or replaced, at the head or further on.
inductive Edit : List α → List α → Prop
  | insert (c : α) (xs : List α) : Edit xs (c :: xs)
  | delete (c : α) (xs : List α) : Edit (c :: xs) xs
  | substitute (c d : α) (xs : List α) : Edit (c :: xs) (d :: xs)
  | cons (c : α) {xs ys : List α} (edit : Edit xs ys) : Edit (c :: xs) (c :: ys)

inductive Chain : Nat → List α → List α → Prop
  | done (xs : List α) : Chain 0 xs xs
  | step {n : Nat} {xs ys zs : List α} (first : Edit xs ys) (rest : Chain n ys zs) :
      Chain (n + 1) xs zs

variable {c d : α} {m n : Nat} {xs ys zs : List α}

theorem Edit.append_left (h : Edit xs ys) : ∀ zs, Edit (zs ++ xs) (zs ++ ys)
  | [] => h
  | c :: zs => .cons c (h.append_left zs)

theorem Edit.append_right (h : Edit xs ys) (zs : List α) : Edit (xs ++ zs) (ys ++ zs) := by
  induction h with
  | insert c xs => exact .insert c (xs ++ zs)
  | delete c xs => exact .delete c (xs ++ zs)
  | substitute c d xs => exact .substitute c d (xs ++ zs)
  | cons c _ ih => exact .cons c ih

theorem Edit.symm (h : Edit xs ys) : Edit ys xs := by
  induction h with
  | insert c xs => exact .delete c xs
  | delete c xs => exact .insert c xs
  | substitute c d xs => exact .substitute d c xs
  | cons c _ ih => exact .cons c ih

theorem Edit.reverse (h : Edit xs ys) : Edit xs.reverse ys.reverse := by
  induction h with
  | insert c xs =>
      have hlast := (Edit.insert c []).append_left xs.reverse
      rwa [List.append_nil, ← List.reverse_cons] at hlast
  | delete c xs =>
      have hlast := (Edit.delete c []).append_left xs.reverse
      rwa [List.append_nil, ← List.reverse_cons] at hlast
  | substitute c d xs =>
      rw [List.reverse_cons, List.reverse_cons]
      exact (Edit.substitute c d []).append_left xs.reverse
  | cons c _ ih =>
      rw [List.reverse_cons, List.reverse_cons]
      exact ih.append_right [c]

namespace Chain

theorem single (h : Edit xs ys) : Chain 1 xs ys := .step h (.done ys)

theorem trans (h : Chain m xs ys) (h' : Chain n ys zs) : Chain (m + n) xs zs := by
  induction h with
  | done => rwa [Nat.zero_add]
  | step first _ ih =>
      rw [Nat.add_right_comm]
      exact .step first (ih h')

theorem cons (c : α) (h : Chain n xs ys) : Chain n (c :: xs) (c :: ys) := by
  induction h with
  | done xs => exact .done (c :: xs)
  | step first _ ih => exact .step (.cons c first) ih

theorem reverse (h : Chain n xs ys) : Chain n xs.reverse ys.reverse := by
  induction h with
  | done xs => exact .done xs.reverse
  | step first _ ih => exact .step first.reverse ih

theorem reverse_iff : Chain n xs.reverse ys.reverse ↔ Chain n xs ys := by
  refine ⟨fun h => ?_, reverse⟩
  have hback := h.reverse
  rwa [List.reverse_reverse, List.reverse_reverse] at hback

theorem symm (h : Chain n xs ys) : Chain n ys xs := by
  induction h with
  | done xs => exact .done xs
  | step first _ ih => exact ih.trans (single first.symm)

theorem symm_iff : Chain n ys xs ↔ Chain n xs ys := ⟨symm, symm⟩

theorem inserted : ∀ ys : List α, Chain ys.length [] ys
  | [] => .done []
  | c :: ys => (inserted ys).trans (single (.insert c ys))

theorem deleted : ∀ xs : List α, Chain xs.length xs []
  | [] => .done []
  | c :: xs => .step (.delete c xs) (deleted xs)

end Chain

variable [DecidableEq α]

def distance : List α → List α → Nat
  | [], ys => ys.length
  | x :: xs, [] => (x :: xs).length
  | x :: xs, y :: ys =>
      min (min (distance xs (y :: ys) + 1) (distance (x :: xs) ys + 1))
        (distance xs ys + if x = y then 0 else 1)
termination_by xs ys => xs.length + ys.length

@[simp] theorem distance_nil_left (ys : List α) : distance [] ys = ys.length := by
  rw [distance]

@[simp] theorem distance_nil_right (xs : List α) : distance xs [] = xs.length := by
  cases xs <;> rw [distance]

theorem distance_cons_cons (x y : α) (xs ys : List α) : distance (x :: xs) (y :: ys) =
    min (min (distance xs (y :: ys) + 1) (distance (x :: xs) ys + 1))
      (distance xs ys + if x = y then 0 else 1) := by
  rw [distance]

theorem distance_self (xs : List α) : distance xs xs = 0 := by
  induction xs with
  | nil => exact distance_nil_left []
  | cons x xs ih =>
      rw [distance_cons_cons, ih, if_pos rfl]
      exact Nat.min_zero _

theorem chain_distance (xs ys : List α) : Chain (distance xs ys) xs ys := by
  induction xs, ys using distance.induct with
  | case1 ys =>
      rw [distance_nil_left]
      exact .inserted ys
  | case2 x xs =>
      rw [distance_nil_right]
      exact .deleted (x :: xs)
  | case3 x xs y ys hdelete hinsert hboth =>
      have hsubstitute : Chain (distance xs ys + if x = y then 0 else 1) (x :: xs) (y :: ys) := by
        refine (hboth.cons x).trans ?_
        split
        · next heq =>
            rw [heq]
            exact .done (y :: ys)
        · exact .single (.substitute x y ys)
      rw [distance_cons_cons]
      rcases Nat.le_total (min (distance xs (y :: ys) + 1) (distance (x :: xs) ys + 1))
        (distance xs ys + if x = y then 0 else 1) with hle | hle
      · rw [Nat.min_eq_left hle]
        rcases Nat.le_total (distance xs (y :: ys)) (distance (x :: xs) ys) with hle | hle
        · rw [Nat.min_eq_left (Nat.succ_le_succ hle)]
          exact .step (.delete x xs) hdelete
        · rw [Nat.min_eq_right (Nat.succ_le_succ hle)]
          exact hinsert.trans (.single (.insert y ys))
      · rw [Nat.min_eq_right hle]
        exact hsubstitute

-- An edit of the second text changes the distance by one at most.

theorem distance_insert (c : α) (xs ys : List α) : distance xs (c :: ys) ≤ distance xs ys + 1 := by
  cases xs with
  | nil => simp
  | cons x xs =>
      rw [distance_cons_cons]
      omega

theorem distance_delete (c : α) (xs ys : List α) : distance xs ys ≤ distance xs (c :: ys) + 1 := by
  induction xs with
  | nil =>
      simp only [distance_nil_left, List.length_cons]
      omega
  | cons x xs ih =>
      have hfirst : distance (x :: xs) ys ≤ distance xs ys + 1 := by
        cases ys with
        | nil => simp
        | cons y ys =>
            rw [distance_cons_cons]
            omega
      rw [distance_cons_cons]
      omega

theorem distance_substitute (c d : α) (xs ys : List α) :
    distance xs (d :: ys) ≤ distance xs (c :: ys) + 1 := by
  induction xs with
  | nil => simp
  | cons x xs ih =>
      rw [distance_cons_cons, distance_cons_cons]
      split <;> split <;> omega

theorem distance_edit (h : Edit ys zs) (xs : List α) : distance xs zs ≤ distance xs ys + 1 := by
  induction h generalizing xs with
  | insert c ys => exact distance_insert c xs ys
  | delete c ys => exact distance_delete c xs ys
  | substitute c d ys => exact distance_substitute c d xs ys
  | @cons c ys zs _ ih =>
      induction xs with
      | nil =>
          have hlength := ih []
          simp only [distance_nil_left, List.length_cons] at hlength ⊢
          omega
      | cons x xs ihx =>
          have hboth := ih xs
          have hrest := ih (x :: xs)
          rw [distance_cons_cons, distance_cons_cons]
          omega

theorem Chain.distance_le (h : Chain n ys zs) (xs : List α) :
    distance xs zs ≤ distance xs ys + n := by
  induction h with
  | done => exact Nat.le_refl _
  | step first _ ih =>
      have hfirst := distance_edit first xs
      omega

-- The distance is the least number of edits that lead from one text to the other.
theorem isLeast_distance (xs ys : List α) : IsLeast {n | Chain n xs ys} (distance xs ys) := by
  refine ⟨chain_distance xs ys, fun n h => ?_⟩
  have hle := Chain.distance_le h xs
  rwa [distance_self, Nat.zero_add] at hle

theorem distance_reverse (xs ys : List α) :
    distance xs.reverse ys.reverse = distance xs ys := by
  have hleast := isLeast_distance xs.reverse ys.reverse
  simp only [Chain.reverse_iff] at hleast
  exact hleast.unique (isLeast_distance xs ys)

theorem distance_comm (xs ys : List α) : distance xs ys = distance ys xs := by
  have hleast := isLeast_distance xs ys
  rw [show {n | Chain n xs ys} = {n | Chain n ys xs} from Set.ext fun n => Chain.symm_iff] at hleast
  exact hleast.unique (isLeast_distance ys xs)

-- Texts with the same head are as far apart as what follows.
theorem distance_cons_self (x : α) (xs ys : List α) :
    distance (x :: xs) (x :: ys) = distance xs ys := by
  have hdelete := distance_delete x xs ys
  have hinsert := distance_delete x ys xs
  rw [distance_comm ys xs, distance_comm ys (x :: xs)] at hinsert
  rw [distance_cons_cons, if_pos rfl]
  omega

-- A table filled row by row: how far a text, read up to some place, is from each
-- beginning of another one. What has been read stands in reverse.
def row (p : List α) : List α → List α → List Nat
  | q, [] => [distance p q]
  | q, y :: ys => distance p q :: row p (y :: q) ys

theorem row_nil (q ys : List α) : row [] q ys = List.range' q.length (ys.length + 1) := by
  induction ys generalizing q with
  | nil => simp [row]
  | cons y ys ih =>
      rw [row, ih, distance_nil_left, List.length_cons, List.length_cons,
        List.range'_succ (n := ys.length + 1)]

theorem row_getElem? (p q ys : List α) :
    (row p q ys)[ys.length]? = some (distance p (ys.reverse ++ q)) := by
  induction ys generalizing q with
  | nil => rfl
  | cons y ys ih =>
      rw [row, List.length_cons, List.getElem?_cons_succ, ih, List.reverse_cons,
        List.append_assoc, List.singleton_append]

theorem row_cons (p q ys : List α) : ∃ rest, row p q ys = distance p q :: rest := by
  cases ys with
  | nil => exact ⟨[], rfl⟩
  | cons y ys => exact ⟨row p (y :: q) ys, rfl⟩

-- A pass over the first text that turns each row into the next ends in the distance.
theorem foldl_rows {step : List Nat → α × Nat → List Nat} {ys : List α}
    (hstep : ∀ x p, step (row p [] ys) (x, p.length) = row (x :: p) [] ys) (xs : List α) :
    (xs.zipIdx.foldl step (List.range (ys.length + 1)))[ys.length]? = some (distance xs ys) := by
  have hrows : ∀ (xs p : List α), (xs.zipIdx p.length).foldl step (row p [] ys) =
      row (xs.reverse ++ p) [] ys := by
    intro xs
    induction xs with
    | nil => exact fun p => rfl
    | cons x xs ih =>
        intro p
        rw [List.zipIdx_cons, List.foldl_cons, hstep, ← List.length_cons (a := x), ih,
          List.reverse_cons, List.append_assoc, List.singleton_append]
  have hall := hrows xs []
  rw [row_nil, List.length_nil, ← List.range_eq_range', List.append_nil] at hall
  rw [hall, row_getElem?, List.append_nil, distance_reverse]

end Ruprizzle.Edits
