import Mathlib.Data.List.Perm.Basic
import Mathlib.Data.List.Pairwise

namespace Ruprizzle.Runtime

-- A tree that is put together in memory from a root and a flat list of the rows
-- below it. Keys are compared by an equality that may not be reflexive, as that of
-- values is not for a float that is no number.

structure HierarchyNode (M : Type) where
  item : M
  depth : Nat
  children : List (HierarchyNode M)

variable {M K : Type}

namespace HierarchyNode

mutual

def flatten : HierarchyNode M → List M
  | ⟨item, _, children⟩ => item :: flattenAll children

def flattenAll : List (HierarchyNode M) → List M
  | [] => []
  | child :: rest => child.flatten ++ flattenAll rest

end

mutual

def nodes : HierarchyNode M → List (HierarchyNode M)
  | ⟨item, depth, children⟩ => ⟨item, depth, children⟩ :: nodesOf children

def nodesOf : List (HierarchyNode M) → List (HierarchyNode M)
  | [] => []
  | child :: rest => child.nodes ++ nodesOf rest

end

abbrev Groups (K M : Type) := List (K × List M)

section

variable [BEq K]

-- The first group of the key is added to, or a new one is put at the end.
def insertGroup (pid : K) (d : M) : Groups K M → Groups K M
  | [] => [(pid, [d])]
  | (k, list) :: rest =>
      if k == pid then (k, list ++ [d]) :: rest else (k, list) :: insertGroup pid d rest

def groupByParent (getParentId : M → Option K) (descendants : List M) : Groups K M :=
  descendants.foldl (fun byParent d =>
    match getParentId d with
    | some pid => insertGroup pid d byParent
    | none => byParent) []

def swapRemove {α : Type} (l : List α) (idx : Nat) : List α :=
  match l.getLast? with
  | some last => (l.set idx last).dropLast
  | none => l

def takeChildren (id : K) (byParent : Groups K M) : List M × Groups K M :=
  match byParent.findIdx? fun group => group.1 == id with
  | some idx => ((byParent[idx]?.map Prod.snd).getD [], swapRemove byParent idx)
  | none => ([], byParent)

theorem perm_swapRemove {α : Type} {l : List α} {idx : Nat} (h : idx < l.length) :
    l.Perm (l[idx] :: swapRemove l idx) := by
  have hne : l ≠ [] := List.ne_nil_of_length_pos (by omega)
  obtain ⟨init, last, rfl⟩ := List.eq_nil_or_concat' l |>.resolve_left hne
  have hswap : swapRemove (init ++ [last]) idx = ((init ++ [last]).set idx last).dropLast := by
    simp only [swapRemove, List.getLast?_concat]
  rw [hswap]
  rw [List.length_append, List.length_singleton] at h
  rcases Nat.lt_or_ge idx init.length with hlt | hge
  · rw [List.set_append_left _ _ hlt, List.dropLast_concat, List.getElem_append_left hlt]
    have hset := List.set_perm_cons_eraseIdx hlt last
    have hget := List.getElem_cons_eraseIdx_perm hlt
    refine (List.perm_append_singleton last init).trans ?_
    refine (List.Perm.cons last hget.symm).trans ?_
    exact (List.Perm.swap _ _ _).trans (List.Perm.cons _ hset.symm)
  · obtain rfl : idx = init.length := by omega
    have hset : (init ++ [last]).set init.length last = init ++ [last] := by
      rw [List.set_append_right _ _ (Nat.le_refl _), Nat.sub_self]
      rfl
    rw [hset, List.dropLast_concat, List.getElem_concat_length rfl]
    exact List.perm_append_singleton last init

-- Either a group is taken out, or there is none and nothing is below the node.
theorem takeChildren_cases (id : K) (byParent : Groups K M) :
    (∃ group, (group.1 == id) = true ∧ (takeChildren id byParent).1 = group.2 ∧
      byParent.Perm (group :: (takeChildren id byParent).2)) ∨
    (∀ group ∈ byParent, (group.1 == id) = false) ∧ takeChildren id byParent = ([], byParent) := by
  cases hidx : byParent.findIdx? fun group => group.1 == id with
  | none =>
      refine .inr ⟨fun group hgroup => ?_, by rw [takeChildren, hidx]⟩
      exact List.findIdx?_eq_none_iff.mp hidx group hgroup
  | some idx =>
      obtain ⟨hlt, hkey, -⟩ := List.findIdx?_eq_some_iff_getElem.mp hidx
      refine .inl ⟨byParent[idx], hkey, ?_, ?_⟩
      · rw [takeChildren, hidx]
        simp [List.getElem?_eq_getElem hlt]
      · rw [takeChildren, hidx]
        exact perm_swapRemove hlt

theorem takeChildren_smaller (id : K) (byParent : Groups K M) :
    (takeChildren id byParent).2.length < byParent.length ∨
      (takeChildren id byParent).2 = byParent ∧ (takeChildren id byParent).1 = [] := by
  rcases takeChildren_cases id byParent with ⟨group, -, -, hperm⟩ | ⟨-, hnone⟩
  · refine .inl ?_
    have hlength := hperm.length_eq
    rw [List.length_cons] at hlength
    omega
  · exact .inr ⟨by rw [hnone], by rw [hnone]⟩

theorem length_takeChildren (id : K) (byParent : Groups K M) :
    (takeChildren id byParent).2.length ≤ byParent.length := by
  rcases takeChildren_smaller id byParent with hless | ⟨hsame, -⟩
  · omega
  · exact Nat.le_of_eq (congrArg List.length hsame)

-- A node takes its group out before its children are built, one after another, with
-- the groups that the one before has left. So there are fewer of them below.
mutual

def buildNode (getId : M → K) (item : M) (depth : Nat) (byParent : Groups K M) :
    HierarchyNode M × { left : Groups K M // left.length ≤ byParent.length } :=
  let taken := takeChildren (getId item) byParent
  let built := buildNodes getId taken.1 (depth + 1) taken.2
  (⟨item, depth, built.1⟩, ⟨built.2.val, Nat.le_trans built.2.property (length_takeChildren _ _)⟩)
termination_by (byParent.length, 1)
decreasing_by
  rcases takeChildren_smaller (getId item) byParent with hless | ⟨hsame, hnone⟩
  · exact Prod.Lex.left _ _ hless
  · rw [hsame, hnone]
    exact Prod.Lex.right _ Nat.one_pos

def buildNodes (getId : M → K) (items : List M) (depth : Nat) (byParent : Groups K M) :
    List (HierarchyNode M) × { left : Groups K M // left.length ≤ byParent.length } :=
  match items with
  | [] => ([], ⟨byParent, Nat.le_refl _⟩)
  | child :: rest =>
      let first := buildNode getId child depth byParent
      let more := buildNodes getId rest depth first.2.val
      (first.1 :: more.1, ⟨more.2.val, Nat.le_trans more.2.property first.2.property⟩)
termination_by (byParent.length, 2 * items.length)
decreasing_by
  · refine Prod.Lex.right _ ?_
    rw [List.length_cons]
    omega
  · rcases Nat.lt_or_eq_of_le first.2.property with hless | hsame
    · exact Prod.Lex.left _ _ hless
    · rw [hsame]
      refine Prod.Lex.right _ ?_
      rw [List.length_cons]
      omega

end

def fromFlat (getId : M → K) (getParentId : M → Option K) (root : M)
    (descendants : List M) : HierarchyNode M :=
  (buildNode getId root 0 (groupByParent getParentId descendants)).1

end

end HierarchyNode

end Ruprizzle.Runtime
