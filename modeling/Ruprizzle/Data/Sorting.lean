import Mathlib.Data.List.Sort

namespace Ruprizzle

variable {α : Type}

-- The contract a comparator owes to a sort on the elements of a list.
structure TotalOn (cmp : α → α → Ordering) (l : List α) : Prop where
  swap : ∀ a ∈ l, ∀ b ∈ l, cmp b a = (cmp a b).swap
  trans : ∀ a ∈ l, ∀ b ∈ l, ∀ c ∈ l, cmp a b ≠ .gt → cmp b c ≠ .gt → cmp a c ≠ .gt

def InOrder (cmp : α → α → Ordering) (l : List α) : Prop := l.Pairwise (fun a b => cmp a b ≠ .gt)

-- The sort of the standard library. A comparator that is no total order may
-- make it stop, or leave the elements in any order; it never loses one.
structure SortBy where
  sort : {α : Type} → (α → α → Ordering) → List α → Option (List α)
  perm : ∀ {α : Type} (cmp : α → α → Ordering) (l r : List α), sort cmp l = some r → r.Perm l
  sorted : ∀ {α : Type} (cmp : α → α → Ordering) (l : List α), TotalOn cmp l →
    ∃ r, sort cmp l = some r ∧ InOrder cmp r

-- The order in which a hash table gives its entries back.
structure HashOrder where
  order : {α : Type} → List α → List α
  perm : ∀ {α : Type} (l : List α), (order l).Perm l

theorem HashOrder.mem_order (o : HashOrder) {l : List α} {a : α} : a ∈ o.order l ↔ a ∈ l :=
  (o.perm l).mem_iff

theorem HashOrder.order_eq_nil (o : HashOrder) {l : List α} : o.order l = [] ↔ l = [] := by
  constructor
  · intro h
    have := o.perm l
    rw [h] at this
    exact this.symm.eq_nil
  · rintro rfl
    exact (o.perm []).eq_nil

def HashOrder.asInserted : HashOrder := ⟨fun l => l, fun l => List.Perm.refl l⟩

namespace TotalOn

variable {cmp : α → α → Ordering} {l : List α}

theorem of_perm {l' : List α} (h : TotalOn cmp l) (hp : l'.Perm l) : TotalOn cmp l' :=
  ⟨fun a ha b hb => h.swap a (hp.mem_iff.mp ha) b (hp.mem_iff.mp hb),
    fun a ha b hb c hc => h.trans a (hp.mem_iff.mp ha) b (hp.mem_iff.mp hb) c (hp.mem_iff.mp hc)⟩

theorem tail {a : α} (h : TotalOn cmp (a :: l)) : TotalOn cmp l :=
  ⟨fun b hb c hc => h.swap b (List.mem_cons_of_mem a hb) c (List.mem_cons_of_mem a hc),
    fun b hb c hc d hd => h.trans b (List.mem_cons_of_mem a hb) c (List.mem_cons_of_mem a hc) d
      (List.mem_cons_of_mem a hd)⟩

end TotalOn

-- Places an element behind the elements it is not less than. The sorted part
-- is held backwards, its last element first.
def place (cmp : α → α → Ordering) (a : α) : List α → List α
  | [] => [a]
  | b :: rest => if cmp a b = .lt then b :: place cmp a rest else a :: b :: rest

-- What the standard library runs on a short list.
def insertionSortBy (cmp : α → α → Ordering) (l : List α) : List α :=
  (l.foldl (fun sorted a => place cmp a sorted) []).reverse

theorem place_perm (cmp : α → α → Ordering) (a : α) (l : List α) :
    (place cmp a l).Perm (a :: l) := by
  induction l with
  | nil => exact List.Perm.refl _
  | cons b rest ih =>
      unfold place
      split
      · exact (ih.cons b).trans (List.Perm.swap a b rest)
      · exact List.Perm.refl _

theorem foldl_place_perm (cmp : α → α → Ordering) (l sorted : List α) :
    (l.foldl (fun sorted a => place cmp a sorted) sorted).Perm (l ++ sorted) := by
  induction l generalizing sorted with
  | nil => exact List.Perm.refl _
  | cons a rest ih =>
      have h := (ih (place cmp a sorted)).trans ((place_perm cmp a sorted).append_left rest)
      exact h.trans List.perm_middle

theorem insertionSortBy_perm (cmp : α → α → Ordering) (l : List α) :
    (insertionSortBy cmp l).Perm l := by
  have h := foldl_place_perm cmp l []
  rw [List.append_nil] at h
  exact (List.reverse_perm _).trans h

-- Backwards, each element is not greater than the ones before it.
theorem place_ordered {cmp : α → α → Ordering} {a : α} {l : List α}
    (ht : TotalOn cmp (a :: l)) (h : l.Pairwise (fun x y => cmp y x ≠ .gt)) :
    (place cmp a l).Pairwise (fun x y => cmp y x ≠ .gt) := by
  induction l with
  | nil => simp [place]
  | cons b rest ih =>
      obtain ⟨hb, hrest⟩ := List.pairwise_cons.mp h
      have hab := ht.swap a (by simp) b (by simp)
      have ht' : TotalOn cmp (a :: rest) := (ht.of_perm (List.Perm.swap a b rest)).tail
      unfold place
      split
      · rename_i hlt
        refine List.pairwise_cons.mpr ⟨?_, ih ht' hrest⟩
        intro x hx
        rcases List.mem_cons.mp ((place_perm cmp a rest).mem_iff.mp hx) with rfl | hx
        · simp [hlt]
        · exact hb x hx
      · rename_i hnlt
        have hba : cmp b a ≠ .gt := by
          rw [hab]
          cases hcmp : cmp a b with
          | lt => exact absurd hcmp hnlt
          | eq => simp
          | gt => simp
        refine List.pairwise_cons.mpr ⟨?_, h⟩
        intro x hx
        rcases List.mem_cons.mp hx with rfl | hx
        · exact hba
        · exact ht.trans x (by simp [hx]) b (by simp) a (by simp) (hb x hx) hba

theorem foldl_place_ordered {cmp : α → α → Ordering} (l sorted : List α)
    (ht : TotalOn cmp (l ++ sorted)) (h : sorted.Pairwise (fun x y => cmp y x ≠ .gt)) :
    (l.foldl (fun sorted a => place cmp a sorted) sorted).Pairwise (fun x y => cmp y x ≠ .gt) := by
  induction l generalizing sorted with
  | nil => exact h
  | cons a rest ih =>
      have hsub : TotalOn cmp (a :: sorted) :=
        ⟨fun x hx y hy => ht.swap x (by simp at hx ⊢; tauto) y (by simp at hy ⊢; tauto),
          fun x hx y hy z hz => ht.trans x (by simp at hx ⊢; tauto) y (by simp at hy ⊢; tauto) z
            (by simp at hz ⊢; tauto)⟩
      refine ih (place cmp a sorted) ?_ (place_ordered hsub h)
      exact ht.of_perm (((place_perm cmp a sorted).append_left rest).trans List.perm_middle)

theorem insertionSortBy_inOrder {cmp : α → α → Ordering} {l : List α} (ht : TotalOn cmp l) :
    InOrder cmp (insertionSortBy cmp l) := by
  unfold InOrder insertionSortBy
  rw [List.pairwise_reverse]
  exact foldl_place_ordered l [] (by simpa using ht) List.Pairwise.nil

def SortBy.insertion : SortBy where
  sort := fun cmp l => some (insertionSortBy cmp l)
  perm := by
    intro α cmp l r h
    cases h
    exact insertionSortBy_perm cmp l
  sorted := fun _ _ ht => ⟨_, rfl, insertionSortBy_inOrder ht⟩

open Classical in
-- A sort that stops whenever the comparator breaks the contract.
noncomputable def SortBy.strict : SortBy where
  sort := fun cmp l => if TotalOn cmp l then some (insertionSortBy cmp l) else none
  perm := by
    intro α cmp l r h
    split at h
    · cases h
      exact insertionSortBy_perm cmp l
    · cases h
  sorted := by
    intro α cmp l ht
    exact ⟨_, by simp [ht], insertionSortBy_inOrder ht⟩

theorem SortBy.strict_sort (cmp : α → α → Ordering) (l : List α) :
    (∃ r, SortBy.strict.sort cmp l = some r) ↔ TotalOn cmp l := by
  simp [SortBy.strict]

-- In a list sorted by a total order, whatever is less stands before.
theorem InOrder.before {cmp : α → α → Ordering} {l : List α} (h : InOrder cmp l)
    (hs : ∀ a ∈ l, ∀ b ∈ l, cmp b a = (cmp a b).swap) {i j : Nat} (hi : i < l.length)
    (hj : j < l.length) (hlt : cmp l[i] l[j] = .lt) : i < j := by
  rcases Nat.lt_trichotomy i j with hij | hij | hij
  · exact hij
  · subst hij
    have := hs l[i] (List.getElem_mem hi) l[i] (List.getElem_mem hi)
    rw [hlt] at this
    cases this
  · have hgt : cmp l[j] l[i] = .gt := by
      rw [hs l[i] (List.getElem_mem hi) l[j] (List.getElem_mem hj), hlt]
      rfl
    exact absurd hgt (List.pairwise_iff_getElem.mp h j i hj hi hij)

end Ruprizzle
