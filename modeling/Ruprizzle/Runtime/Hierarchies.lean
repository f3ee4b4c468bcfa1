import Mathlib.Data.List.Flatten
import Mathlib.Data.List.Induction
import Ruprizzle.Runtime.Hierarchy

namespace Ruprizzle.Runtime

-- What a tree built from a flat list holds.

variable {M K : Type}

namespace HierarchyNode

theorem mem_nodesOf {x : HierarchyNode M} {children : List (HierarchyNode M)} :
    x ∈ nodesOf children ↔ ∃ child ∈ children, x ∈ child.nodes := by
  induction children with
  | nil => simp [nodesOf]
  | cons child rest ih => simp [nodesOf, ih]

theorem nodes_eq (t : HierarchyNode M) : t.nodes = t :: nodesOf t.children := by
  cases t
  rfl

theorem mem_nodes_self (t : HierarchyNode M) : t ∈ t.nodes := by
  rw [nodes_eq]
  exact List.mem_cons_self

mutual

theorem flatten_eq : (t : HierarchyNode M) → t.flatten = t.nodes.map item
  | ⟨item, depth, children⟩ => by
      rw [flatten, nodes, List.map_cons, flattenAll_eq children]

theorem flattenAll_eq : (children : List (HierarchyNode M)) →
    flattenAll children = (nodesOf children).map item
  | [] => rfl
  | child :: rest => by
      rw [flattenAll, nodesOf, List.map_append, flatten_eq child, flattenAll_eq rest]

end

-- What goes from a node to its children holds in the whole tree.
mutual

theorem nodes_induction {P : HierarchyNode M → Prop}
    (hstep : ∀ x, P x → ∀ child ∈ x.children, P child) :
    (t : HierarchyNode M) → P t → ∀ x ∈ t.nodes, P x
  | ⟨item, depth, children⟩ => by
      intro ht x hx
      rw [nodes, List.mem_cons] at hx
      rcases hx with rfl | hx
      · exact ht
      · exact nodesOf_induction hstep children (hstep _ ht) x hx

theorem nodesOf_induction {P : HierarchyNode M → Prop}
    (hstep : ∀ x, P x → ∀ child ∈ x.children, P child) :
    (children : List (HierarchyNode M)) → (∀ child ∈ children, P child) →
      ∀ x ∈ nodesOf children, P x
  | [] => by simp [nodesOf]
  | child :: rest => by
      intro hall x hx
      rw [nodesOf, List.mem_append] at hx
      obtain ⟨hfirst, hrest⟩ := List.forall_mem_cons.mp hall
      rcases hx with hx | hx
      · exact nodes_induction hstep child hfirst x hx
      · exact nodesOf_induction hstep rest hrest x hx

end

mutual

theorem mem_nodes_child {x child : HierarchyNode M} (hchild : child ∈ x.children) :
    (t : HierarchyNode M) → x ∈ t.nodes → child ∈ nodesOf t.children
  | ⟨item, depth, children⟩ => by
      intro hx
      rw [nodes, List.mem_cons] at hx
      rcases hx with rfl | hx
      · exact mem_nodesOf.mpr ⟨child, hchild, mem_nodes_self child⟩
      · exact mem_nodesOf_child hchild children hx

theorem mem_nodesOf_child {x child : HierarchyNode M} (hchild : child ∈ x.children) :
    (children : List (HierarchyNode M)) → x ∈ nodesOf children → child ∈ nodesOf children
  | [] => by simp [nodesOf]
  | first :: rest => by
      intro hx
      rw [nodesOf, List.mem_append] at hx ⊢
      rcases hx with hx | hx
      · refine .inl ?_
        rw [nodes_eq]
        exact List.mem_cons_of_mem _ (mem_nodes_child hchild first hx)
      · exact .inr (mem_nodesOf_child hchild rest hx)

end

-- Every node but the root is a child of one.
theorem mem_nodes_cases {t x : HierarchyNode M} (hx : x ∈ t.nodes) :
    x = t ∨ ∃ p ∈ t.nodes, x ∈ p.children := by
  have hall := nodes_induction (P := fun x => x ∈ t.nodes ∧ (x = t ∨ ∃ p ∈ t.nodes, x ∈ p.children))
    (fun x hx child hchild => ⟨?_, .inr ⟨x, hx.1, hchild⟩⟩) t ⟨mem_nodes_self t, .inl rfl⟩ x hx
  · exact hall.2
  · rw [nodes_eq]
    exact List.mem_cons_of_mem _ (mem_nodes_child hchild t hx.1)

theorem mem_below {t y : HierarchyNode M} (hy : y ∈ nodesOf t.children) :
    ∃ p ∈ t.nodes, y ∈ p.children := by
  obtain ⟨child, hchild, hmem⟩ := mem_nodesOf.mp hy
  rcases mem_nodes_cases hmem with rfl | ⟨p, hp, hin⟩
  · exact ⟨t, mem_nodes_self t, hchild⟩
  · refine ⟨p, ?_, hin⟩
    rw [nodes_eq]
    exact List.mem_cons_of_mem _ (mem_nodesOf.mpr ⟨child, hchild, hp⟩)

section

variable [BEq K] (getId : M → K) (getParentId : M → Option K)

-- A row names another one as its parent.
def ChildOf (x c : M) : Prop := ∃ pid, getParentId c = some pid ∧ (pid == getId x) = true

-- Parent links that lead from the root to a row, and how many.
inductive Path (root : M) (rows : List M) : Nat → M → Prop
  | start : Path root rows 0 root
  | step {n : Nat} {x c : M} : Path root rows n x → c ∈ rows → ChildOf getId getParentId x c →
      Path root rows (n + 1) c

def Reached (root : M) (rows : List M) (c : M) : Prop :=
  ∃ n, Path getId getParentId root rows (n + 1) c

def IsDistance (root : M) (rows : List M) (n : Nat) (c : M) : Prop :=
  Path getId getParentId root rows n c ∧ ∀ m, Path getId getParentId root rows m c → n ≤ m

variable {getId getParentId}

-- The keys of the groups differ, so that it does not matter in which order they are
-- looked through.
def Apart (groups : Groups K M) : Prop := groups.Pairwise fun a b => ¬ (a.1 == b.1) = true

-- A group of the children of a key: what it is compared with gives the same for
-- the key and for what any of its rows names.
structure Grouped (getParentId : M → Option K) (rows : List M) (group : K × List M) : Prop where
  order : group.2.Sublist rows
  parent : ∀ c ∈ group.2, ∃ pid, getParentId c = some pid ∧ ∀ id, (group.1 == id) = (pid == id)

variable [PartialEquivBEq K]

theorem beq_left_congr {a b : K} (h : (a == b) = true) (c : K) : (a == c) = (b == c) := by
  rw [Bool.eq_iff_iff]
  exact ⟨fun hac => PartialEquivBEq.trans (PartialEquivBEq.symm h) hac,
    fun hbc => PartialEquivBEq.trans h hbc⟩

theorem mem_insertGroup {pid : K} {d : M} {groups : Groups K M} {group : K × List M}
    (h : group ∈ insertGroup pid d groups) :
    group ∈ groups ∨ group = (pid, [d]) ∨
      ∃ list, (group.1, list) ∈ groups ∧ (group.1 == pid) = true ∧ group.2 = list ++ [d] := by
  induction groups with
  | nil => exact .inr (.inl (List.mem_singleton.mp h))
  | cons first rest ih =>
      obtain ⟨k, list⟩ := first
      rw [insertGroup] at h
      split at h
      · next hkey =>
          rcases List.mem_cons.mp h with rfl | hrest
          · exact .inr (.inr ⟨list, List.mem_cons_self, hkey, rfl⟩)
          · exact .inl (List.mem_cons_of_mem _ hrest)
      · rcases List.mem_cons.mp h with rfl | hrest
        · exact .inl List.mem_cons_self
        · rcases ih hrest with hold | hnew | ⟨list', hmem, hkey, heq⟩
          · exact .inl (List.mem_cons_of_mem _ hold)
          · exact .inr (.inl hnew)
          · exact .inr (.inr ⟨list', List.mem_cons_of_mem _ hmem, hkey, heq⟩)

theorem mem_key_insertGroup {pid : K} {d : M} {groups : Groups K M} {group : K × List M}
    (h : group ∈ insertGroup pid d groups) : group.1 = pid ∨ ∃ g ∈ groups, g.1 = group.1 := by
  rcases mem_insertGroup h with hold | rfl | ⟨list, hmem, -, -⟩
  · exact .inr ⟨group, hold, rfl⟩
  · exact .inl rfl
  · exact .inr ⟨_, hmem, rfl⟩

theorem apart_insertGroup {pid : K} {d : M} {groups : Groups K M} (h : Apart groups) :
    Apart (insertGroup pid d groups) := by
  induction groups with
  | nil => exact List.pairwise_singleton _ _
  | cons first rest ih =>
      obtain ⟨k, list⟩ := first
      obtain ⟨hfirst, hrest⟩ := List.pairwise_cons.mp h
      rw [insertGroup]
      split
      · exact List.pairwise_cons.mpr ⟨hfirst, hrest⟩
      · next hkey =>
          refine List.pairwise_cons.mpr ⟨fun group hgroup => ?_, ih hrest⟩
          rcases mem_key_insertGroup hgroup with hpid | ⟨g, hg, hsame⟩
          · rw [hpid]
            exact hkey
          · rw [← hsame]
            exact hfirst g hg

theorem perm_insertGroup (pid : K) (d : M) (groups : Groups K M) :
    ((insertGroup pid d groups).flatMap Prod.snd).Perm (groups.flatMap Prod.snd ++ [d]) := by
  induction groups with
  | nil => exact List.Perm.refl _
  | cons first rest ih =>
      obtain ⟨k, list⟩ := first
      rw [insertGroup]
      split
      · rw [List.flatMap_cons, List.flatMap_cons, List.append_assoc, List.append_assoc]
        exact List.Perm.append_left list List.perm_append_comm
      · rw [List.flatMap_cons, List.flatMap_cons, List.append_assoc]
        exact List.Perm.append_left list ih

theorem grouped_insertGroup {pid : K} {d : M} {rows : List M} (hd : getParentId d = some pid)
    {groups : Groups K M} (h : ∀ group ∈ groups, Grouped getParentId rows group) :
    ∀ group ∈ insertGroup pid d groups, Grouped getParentId (rows ++ [d]) group := by
  intro group hgroup
  rcases mem_insertGroup hgroup with hold | rfl | ⟨list, hmem, hkey, hlist⟩
  · exact ⟨(h group hold).order.trans (List.sublist_append_left _ _), (h group hold).parent⟩
  · refine ⟨List.sublist_append_right _ _, fun c hc => ⟨pid, ?_, fun id => rfl⟩⟩
    rw [List.mem_singleton.mp hc, hd]
  · have hbefore := h _ hmem
    refine ⟨hlist ▸ hbefore.order.append (List.Sublist.refl [d]), fun c hc => ?_⟩
    rw [hlist, List.mem_append] at hc
    rcases hc with hc | hc
    · exact hbefore.parent c hc
    · rw [List.mem_singleton.mp hc]
      exact ⟨pid, hd, beq_left_congr hkey⟩

-- The rows with a parent, in groups.
structure GroupsOf (getParentId : M → Option K) (rows : List M) (groups : Groups K M) : Prop where
  apart : Apart groups
  whole : (groups.flatMap Prod.snd).Perm (rows.filter fun c => (getParentId c).isSome)
  grouped : ∀ group ∈ groups, Grouped getParentId rows group

theorem groupByParent_groups (getParentId : M → Option K) (rows : List M) :
    GroupsOf getParentId rows (groupByParent getParentId rows) := by
  induction rows using List.reverseRecOn with
  | nil => exact ⟨List.Pairwise.nil, List.Perm.refl _, by simp [groupByParent]⟩
  | append_singleton rows d ih =>
      rw [groupByParent, List.foldl_append, List.foldl_cons, List.foldl_nil, ← groupByParent]
      cases hd : getParentId d with
      | none =>
          refine ⟨ih.apart, ?_, fun group hgroup => ?_⟩
          · rw [List.filter_append, List.filter_cons_of_neg (by simp [hd]), List.filter_nil,
              List.append_nil]
            exact ih.whole
          · have hgrouped := ih.grouped group hgroup
            exact ⟨hgrouped.order.trans (List.sublist_append_left _ _), hgrouped.parent⟩
      | some pid =>
          refine ⟨apart_insertGroup ih.apart, ?_, grouped_insertGroup hd ih.grouped⟩
          rw [List.filter_append, List.filter_cons_of_pos (by simp [hd]), List.filter_nil]
          exact (perm_insertGroup pid d _).trans (ih.whole.append_right _)

-- The children of a node are one of the groups that are taken, or there are none.
structure Placed (getId : M → K) (taken : Groups K M) (x : HierarchyNode M) : Prop where
  items : x.children = [] ∨
    ∃ group ∈ taken, (group.1 == getId x.item) = true ∧ x.children.map item = group.2
  depths : ∀ child ∈ x.children, child.depth = x.depth + 1

theorem Placed.mono {getId : M → K} {taken more : Groups K M} (h : taken ⊆ more)
    {x : HierarchyNode M} (hx : Placed getId taken x) : Placed getId more x := by
  refine ⟨hx.items.imp_right ?_, hx.depths⟩
  rintro ⟨group, hgroup, hrest⟩
  exact ⟨group, h hgroup, hrest⟩

-- Nodes made for some rows: each group is taken by a node or left, and what is left
-- belongs to none of them.
structure Built (getId : M → K) (before : Groups K M) (items : List M)
    (nodes : List (HierarchyNode M)) (taken after : Groups K M) : Prop where
  split : before.Perm (taken ++ after)
  rows : (nodes.map item).Perm (items ++ taken.flatMap Prod.snd)
  closed : ∀ x ∈ nodes, ∀ group ∈ after, (group.1 == getId x.item) = false
  placed : ∀ x ∈ nodes, Placed getId taken x

theorem apart_perm {a b : Groups K M} (h : a.Perm b) (ha : Apart a) : Apart b := by
  refine (h.pairwise_iff ?_).mp ha
  intro x y hxy hyx
  exact hxy (PartialEquivBEq.symm hyx)

-- One of the groups is that of the node, the others are for the nodes below.
theorem Built.node {getId : M → K} {root : M} {depth : Nat} {group : K × List M}
    {before rest taken after : Groups K M} {children : List (HierarchyNode M)} (hapart : Apart before)
    (hkey : (group.1 == getId root) = true) (hperm : before.Perm (group :: rest))
    (hitems : children.map item = group.2) (hdepths : ∀ child ∈ children, child.depth = depth + 1)
    (h : Built getId rest group.2 (nodesOf children) taken after) :
    Built getId before [root] (⟨root, depth, children⟩ :: nodesOf children) (group :: taken) after := by
  have hothers : ∀ g ∈ rest, ¬ (group.1 == g.1) = true :=
    (List.pairwise_cons.mp (apart_perm hperm hapart)).1
  refine ⟨hperm.trans (h.split.cons group), ?_, fun x hx => ?_, fun x hx => ?_⟩
  · rw [List.map_cons, List.flatMap_cons, List.singleton_append]
    exact h.rows.cons root
  · rcases List.mem_cons.mp hx with rfl | hx
    · intro g hg
      have hrest : g ∈ rest := h.split.mem_iff.mpr (List.mem_append_right _ hg)
      rw [← Bool.not_eq_true]
      intro hroot
      exact hothers g hrest (PartialEquivBEq.trans hkey (PartialEquivBEq.symm hroot))
    · exact h.closed x hx
  · rcases List.mem_cons.mp hx with rfl | hx
    · exact ⟨.inr ⟨group, List.mem_cons_self, hkey, hitems⟩, hdepths⟩
    · exact (h.placed x hx).mono (List.subset_cons_self _ _)

theorem Built.append {getId : M → K} {before mid after first more : Groups K M} {child : M}
    {items : List M} {a b : List (HierarchyNode M)} (ha : Built getId before [child] a first mid)
    (hb : Built getId mid items b more after) :
    Built getId before (child :: items) (a ++ b) (first ++ more) after := by
  refine ⟨?_, ?_, fun x hx => ?_, fun x hx => ?_⟩
  · rw [List.append_assoc]
    exact ha.split.trans (hb.split.append_left first)
  · rw [List.map_append, List.flatMap_append]
    refine (ha.rows.append hb.rows).trans ?_
    rw [List.singleton_append, List.cons_append, List.cons_append, ← List.append_assoc,
      ← List.append_assoc]
    exact (List.perm_append_comm.append_right _).cons child
  · rcases List.mem_append.mp hx with hx | hx
    · intro g hg
      exact ha.closed x hx g (hb.split.mem_iff.mpr (List.mem_append_right _ hg))
    · exact hb.closed x hx
  · rcases List.mem_append.mp hx with hx | hx
    · exact (ha.placed x hx).mono (List.subset_append_left _ _)
    · exact (hb.placed x hx).mono (List.subset_append_right _ _)

section

variable (getId : M → K)

-- What building one node comes to, where there are that many groups at most.
def NodeBuilt (n : Nat) : Prop :=
  ∀ (root : M) (depth : Nat) (before : Groups K M), before.length ≤ n → Apart before →
    (buildNode getId root depth before).1.item = root ∧
    (buildNode getId root depth before).1.depth = depth ∧
    ∃ taken, Built getId before [root] (buildNode getId root depth before).1.nodes taken
      (buildNode getId root depth before).2.val

def NodesBuilt (n : Nat) : Prop :=
  ∀ (items : List M) (depth : Nat) (before : Groups K M), before.length ≤ n → Apart before →
    (buildNodes getId items depth before).1.map item = items ∧
    (∀ child ∈ (buildNodes getId items depth before).1, child.depth = depth) ∧
    ∃ taken, Built getId before items (nodesOf (buildNodes getId items depth before).1) taken
      (buildNodes getId items depth before).2.val

theorem buildNode_fst (root : M) (depth : Nat) (before : Groups K M) :
    (buildNode getId root depth before).1 = ⟨root, depth, (buildNodes getId
      (takeChildren (getId root) before).1 (depth + 1) (takeChildren (getId root) before).2).1⟩ := by
  rw [buildNode]

theorem buildNode_snd (root : M) (depth : Nat) (before : Groups K M) :
    (buildNode getId root depth before).2.val = (buildNodes getId
      (takeChildren (getId root) before).1 (depth + 1)
      (takeChildren (getId root) before).2).2.val := by
  rw [buildNode]

variable {getId}

theorem nodesBuilt_of_nodeBuilt {n : Nat} (h : NodeBuilt getId n) : NodesBuilt getId n := by
  intro items
  induction items with
  | nil =>
      intro depth before _ _
      rw [buildNodes]
      exact ⟨rfl, by simp, [], List.Perm.refl _, List.Perm.refl _, by simp [nodesOf], by simp [nodesOf]⟩
  | cons child rest ih =>
      intro depth before hlength hapart
      obtain ⟨hitem, hdepth, first, hfirst⟩ := h child depth before hlength hapart
      have hmid : Apart (buildNode getId child depth before).2.val :=
        (List.pairwise_append.mp (apart_perm hfirst.split hapart)).2.1
      have hless : (buildNode getId child depth before).2.val.length ≤ n :=
        Nat.le_trans (buildNode getId child depth before).2.property hlength
      obtain ⟨hitems, hdepths, more, hmore⟩ := ih depth _ hless hmid
      rw [buildNodes]
      refine ⟨?_, List.forall_mem_cons.mpr ⟨hdepth, hdepths⟩, first ++ more, hfirst.append hmore⟩
      rw [List.map_cons, hitem, hitems]

theorem nodeBuilt_of_smaller {n : Nat} (h : ∀ m < n, NodesBuilt getId m) : NodeBuilt getId n := by
  intro root depth before hlength hapart
  rw [buildNode_fst, buildNode_snd]
  refine ⟨rfl, rfl, ?_⟩
  rcases takeChildren_cases (getId root) before with ⟨group, hkey, hitems, hperm⟩ | ⟨hnone, htake⟩
  · -- fewer groups are left for the children
    have hfewer : (takeChildren (getId root) before).2.length < n := by
      have hcount := hperm.length_eq
      rw [List.length_cons] at hcount
      omega
    have hrest : Apart (takeChildren (getId root) before).2 :=
      (List.pairwise_cons.mp (apart_perm hperm hapart)).2
    rw [hitems]
    obtain ⟨hrows, hdepths, taken, hbuilt⟩ := h _ hfewer group.2 (depth + 1) _ (Nat.le_refl _) hrest
    exact ⟨group :: taken, Built.node hapart hkey hperm hrows hdepths hbuilt⟩
  · rw [htake]
    refine ⟨[], ?_⟩
    rw [buildNodes, nodes, nodesOf]
    refine ⟨List.Perm.refl _, List.Perm.refl _, fun x hx => ?_, fun x hx => ?_⟩
    · rw [List.mem_singleton.mp hx]
      exact hnone
    · rw [List.mem_singleton.mp hx]
      exact ⟨.inl rfl, by simp⟩

theorem nodeBuilt (getId : M → K) (n : Nat) : NodeBuilt getId n := by
  induction n using Nat.strongRecOn with
  | ind n ih => exact nodeBuilt_of_smaller fun m hm => nodesBuilt_of_nodeBuilt (ih m hm)

-- The group of the root is gone before anything below the root is built.
theorem buildNode_below (root : M) (depth : Nat) {before : Groups K M} (hapart : Apart before) :
    ∀ x ∈ nodesOf (buildNode getId root depth before).1.children, x.children ≠ [] →
      (getId x.item == getId root) = false := by
  rw [buildNode_fst]
  rcases takeChildren_cases (getId root) before with ⟨group, hkey, hitems, hperm⟩ | ⟨hnone, htake⟩
  · have hothers := (List.pairwise_cons.mp (apart_perm hperm hapart)).1
    have hrest := (List.pairwise_cons.mp (apart_perm hperm hapart)).2
    obtain ⟨-, -, taken, hbuilt⟩ := nodesBuilt_of_nodeBuilt (nodeBuilt getId _)
      (takeChildren (getId root) before).1 (depth + 1) _ (Nat.le_refl _) hrest
    intro x hx hne
    obtain ⟨g, hg, hgkey, -⟩ := (hbuilt.placed x hx).items.resolve_left hne
    have hmem : g ∈ (takeChildren (getId root) before).2 :=
      hbuilt.split.mem_iff.mpr (List.mem_append_left _ hg)
    rw [← Bool.not_eq_true]
    intro hsame
    refine hothers g hmem (PartialEquivBEq.trans hkey (PartialEquivBEq.symm ?_))
    exact PartialEquivBEq.trans hgkey hsame
  · intro x hx
    rw [htake, buildNodes] at hx
    simp [nodesOf] at hx

end

section

variable {getId : M → K} {root : M} {rows : List M}

-- The tree, with the groups that were taken for it and those that were left.
structure Exact (getId : M → K) (getParentId : M → Option K) (root : M) (rows : List M)
    (t : HierarchyNode M) (taken after : Groups K M) : Prop where
  top : t.item = root ∧ t.depth = 0
  groups : GroupsOf getParentId rows (taken ++ after)
  built : Built getId (taken ++ after) [root] t.nodes taken after
  below : ∀ x ∈ nodesOf t.children, x.children ≠ [] → (getId x.item == getId root) = false

theorem GroupsOf.perm {groups more : Groups K M} (h : groups.Perm more)
    (hgroups : GroupsOf getParentId rows groups) : GroupsOf getParentId rows more := by
  refine ⟨apart_perm h hgroups.apart, ?_, fun group hgroup => ?_⟩
  · exact (h.flatMap_right Prod.snd).symm.trans hgroups.whole
  · exact hgroups.grouped group (h.mem_iff.mpr hgroup)

theorem exists_exact (getId : M → K) (getParentId : M → Option K) (root : M) (rows : List M) :
    ∃ taken after, Exact getId getParentId root rows (fromFlat getId getParentId root rows)
      taken after := by
  have hgroups := groupByParent_groups getParentId rows
  obtain ⟨hitem, hdepth, taken, hbuilt⟩ :=
    nodeBuilt getId _ root 0 (groupByParent getParentId rows) (Nat.le_refl _) hgroups.apart
  refine ⟨taken, _, ⟨hitem, hdepth⟩, hgroups.perm hbuilt.split, ?_, ?_⟩
  · exact ⟨List.Perm.refl _, hbuilt.rows, hbuilt.closed, hbuilt.placed⟩
  · exact buildNode_below root 0 hgroups.apart

namespace Exact

variable {t : HierarchyNode M} {taken after : Groups K M}

theorem flatten_below (h : Exact getId getParentId root rows t taken after) :
    ((nodesOf t.children).map item).Perm (taken.flatMap Prod.snd) := by
  have hrows := h.built.rows
  rw [nodes_eq, List.map_cons, h.top.1, List.singleton_append] at hrows
  exact hrows.cons_inv

-- The children of a node are those of one group, which name the node.
theorem child (h : Exact getId getParentId root rows t taken after) {x c : HierarchyNode M}
    (hx : x ∈ t.nodes) (hc : c ∈ x.children) :
    ChildOf getId getParentId x.item c.item ∧ c.item ∈ rows ∧ c.depth = x.depth + 1 := by
  have hplaced := h.built.placed x hx
  have hne : x.children ≠ [] := List.ne_nil_of_mem hc
  obtain ⟨group, hgroup, hkey, hitems⟩ := hplaced.items.resolve_left hne
  have hgrouped := h.groups.grouped group (List.mem_append_left _ hgroup)
  have hmem : c.item ∈ group.2 := hitems ▸ List.mem_map_of_mem hc
  obtain ⟨pid, hpid, hsame⟩ := hgrouped.parent c.item hmem
  rw [hsame] at hkey
  exact ⟨⟨pid, hpid, hkey⟩, hgrouped.order.subset hmem, hplaced.depths c hc⟩

theorem siblings (h : Exact getId getParentId root rows t taken after) {x : HierarchyNode M}
    (hx : x ∈ t.nodes) : (x.children.map item).Sublist rows := by
  rcases (h.built.placed x hx).items with hnone | ⟨group, hgroup, -, hitems⟩
  · rw [hnone]
    exact List.nil_sublist _
  · rw [hitems]
    exact (h.groups.grouped group (List.mem_append_left _ hgroup)).order

-- The depth of a node is how many links lead to it.
theorem path (h : Exact getId getParentId root rows t taken after) {x : HierarchyNode M}
    (hx : x ∈ t.nodes) : Path getId getParentId root rows x.depth x.item := by
  refine (nodes_induction (P := fun x => x ∈ t.nodes ∧ Path getId getParentId root rows x.depth x.item)
    (fun x hx c hc => ?_) t ⟨mem_nodes_self t, ?_⟩ x hx).2
  · obtain ⟨hchild, hrow, hdepth⟩ := h.child hx.1 hc
    refine ⟨?_, hdepth ▸ hx.2.step hrow hchild⟩
    rw [nodes_eq]
    exact List.mem_cons_of_mem _ (mem_nodes_child hc t hx.1)
  · rw [h.top.1, h.top.2]
    exact .start

-- A row of a group that is left names no row of the tree.
theorem not_after (h : Exact getId getParentId root rows t taken after) {x : HierarchyNode M}
    (hx : x ∈ t.nodes) {c : M} (hchild : ChildOf getId getParentId x.item c)
    {group : K × List M} (hgroup : group ∈ after) (hc : c ∈ group.2) : False := by
  obtain ⟨pid, hpid, hkey⟩ := hchild
  obtain ⟨pid', hpid', hsame⟩ := (h.groups.grouped group (List.mem_append_right _ hgroup)).parent c hc
  obtain rfl : pid' = pid := Option.some.inj (hpid'.symm.trans hpid)
  have hopen := h.built.closed x hx group hgroup
  rw [hsame, hkey] at hopen
  exact Bool.noConfusion hopen

theorem mem_nodes_of_path (h : Exact getId getParentId root rows t taken after) {n : Nat} {c : M}
    (hpath : Path getId getParentId root rows n c) : ∃ x ∈ t.nodes, x.item = c := by
  induction hpath with
  | start => exact ⟨t, mem_nodes_self t, h.top.1⟩
  | @step n p c _ hrow hchild ih =>
      obtain ⟨x, hx, rfl⟩ := ih
      obtain ⟨pid, hpid, -⟩ := id hchild
      have hin : c ∈ (taken ++ after).flatMap Prod.snd := by
        rw [h.groups.whole.mem_iff, List.mem_filter]
        exact ⟨hrow, by rw [hpid]; rfl⟩
      obtain ⟨group, hgroup, hc⟩ := List.mem_flatMap.mp hin
      have htaken := (List.mem_append.mp hgroup).resolve_right fun hafter =>
        h.not_after hx hchild hafter hc
      have hbelow := h.flatten_below.mem_iff.mpr (List.mem_flatMap.mpr ⟨group, htaken, hc⟩)
      obtain ⟨y, hy, hitem⟩ := List.mem_map.mp hbelow
      exact ⟨y, by rw [nodes_eq]; exact List.mem_cons_of_mem _ hy, hitem⟩

theorem reached_of_taken (h : Exact getId getParentId root rows t taken after) {group : K × List M}
    (hgroup : group ∈ taken) {c : M} (hc : c ∈ group.2) : Reached getId getParentId root rows c := by
  have hbelow := h.flatten_below.mem_iff.mpr (List.mem_flatMap.mpr ⟨group, hgroup, hc⟩)
  obtain ⟨y, hy, rfl⟩ := List.mem_map.mp hbelow
  obtain ⟨p, hp, hchild⟩ := mem_below hy
  obtain ⟨hlink, hrow, -⟩ := h.child hp hchild
  exact ⟨p.depth, (h.path hp).step hrow hlink⟩

theorem not_reached_of_after (h : Exact getId getParentId root rows t taken after)
    {group : K × List M} (hgroup : group ∈ after) {c : M} (hc : c ∈ group.2) :
    ¬ Reached getId getParentId root rows c := by
  rintro ⟨n, hpath⟩
  cases hpath with
  | step hparent _ hchild =>
      obtain ⟨x, hx, rfl⟩ := h.mem_nodes_of_path hparent
      exact h.not_after hx hchild hgroup hc

-- The rows that are reached from the root stand below it, each of them once.
theorem once (h : Exact getId getParentId root rows t taken after) :
    ∃ below left, t.flatten = root :: below ∧ rows.Perm (below ++ left) ∧
      (∀ c ∈ below, Reached getId getParentId root rows c) ∧
      ∀ c ∈ left, ¬ Reached getId getParentId root rows c := by
  refine ⟨(nodesOf t.children).map item,
    after.flatMap Prod.snd ++ rows.filter fun c => !(getParentId c).isSome, ?_, ?_, ?_, ?_⟩
  · rw [flatten_eq, nodes_eq, List.map_cons, h.top.1]
  · have hwhole := h.groups.whole
    rw [List.flatMap_append] at hwhole
    have hparents := (List.filter_append_perm (fun c => (getParentId c).isSome) rows).symm
    rw [← List.append_assoc]
    exact hparents.trans ((hwhole.symm.trans (h.flatten_below.symm.append_right _)).append_right _)
  · intro c hc
    obtain ⟨group, hgroup, hmem⟩ := List.mem_flatMap.mp (h.flatten_below.mem_iff.mp hc)
    exact h.reached_of_taken hgroup hmem
  · intro c hc
    rcases List.mem_append.mp hc with hleft | hnone
    · obtain ⟨group, hgroup, hmem⟩ := List.mem_flatMap.mp hleft
      exact h.not_reached_of_after hgroup hmem
    · rintro ⟨n, hpath⟩
      cases hpath with
      | step _ _ hlink =>
          obtain ⟨pid, hpid, -⟩ := hlink
          simp [hpid] at hnone

theorem parents_agree {a b c : M} (ha : ChildOf getId getParentId a c)
    (hb : ChildOf getId getParentId b c) : (getId a == getId b) = true := by
  obtain ⟨pid, hpid, hkey⟩ := ha
  obtain ⟨pid', hpid', hkey'⟩ := hb
  obtain rfl : pid' = pid := Option.some.inj (hpid'.symm.trans hpid)
  exact PartialEquivBEq.trans (PartialEquivBEq.symm hkey) hkey'

-- A root that anything names has a key that equals itself.
theorem root_of_path {n : Nat} {c : M} (h : Path getId getParentId root rows (n + 1) c) :
    (getId root == getId root) = true := by
  induction n generalizing c with
  | zero =>
      cases h with
      | step hstart _ hlink =>
          cases hstart
          exact parents_agree hlink hlink
  | succ n ih =>
      cases h with
      | step hparent _ _ => exact ih hparent

-- Rows with different keys are told apart by them.
theorem eq_of_key (hdistinct : rows.Pairwise fun a b => ¬ (getId a == getId b) = true) {a b : M}
    (ha : a ∈ rows) (hb : b ∈ rows) (hkey : (getId a == getId b) = true) : a = b := by
  by_contra hne
  have hsymm : Std.Symm fun x y => ¬ (getId x == getId y) = true :=
    ⟨fun x y hxy hyx => hxy (PartialEquivBEq.symm hyx)⟩
  exact hdistinct.forall ha hb hne hkey

-- No shorter way leads to a row than that in the tree. The way from a row back to
-- the root is given by the keys until it meets the root.
theorem shortest (h : Exact getId getParentId root rows t taken after)
    (hdistinct : rows.Pairwise fun a b => ¬ (getId a == getId b) = true) {m : Nat} :
    ∀ {x c : HierarchyNode M}, x ∈ t.nodes → c ∈ x.children → (getId c.item == getId root) = false →
      Path getId getParentId root rows m c.item → c.depth ≤ m := by
  induction m with
  | zero =>
      intro x c hx hc hroot hpath
      obtain ⟨hlink, hrow, -⟩ := h.child hx hc
      have hself := root_of_path ((h.path hx).step hrow hlink)
      cases hpath
      rw [hroot] at hself
      exact Bool.noConfusion hself
  | succ m ih =>
      intro x c hx hc hroot hpath
      obtain ⟨hlink, hrow, hdepth⟩ := h.child hx hc
      have hself := root_of_path ((h.path hx).step hrow hlink)
      cases hpath with
      | @step _ y _ hparent _ hlink' =>
          have hkey := parents_agree hlink hlink'
          rcases mem_nodes_cases hx with rfl | ⟨p, hp, hin⟩
          · rw [hdepth, h.top.2]
            omega
          · cases hmeet : getId x.item == getId root with
            | true =>
                have hbelow := h.below x (mem_nodes_child hin t hp) (List.ne_nil_of_mem hc)
                rw [hmeet] at hbelow
                exact Bool.noConfusion hbelow
            | false =>
                have hrowx := (h.child hp hin).2.1
                have hsame : x.item = y := by
                  cases hparent with
                  | start =>
                      rw [hmeet] at hkey
                      exact Bool.noConfusion hkey
                  | step _ hrowy _ => exact eq_of_key hdistinct hrowx hrowy hkey
                have hless := ih hp hin hmeet (hsame ▸ hparent)
                omega

end Exact

-- Every row that is reached from the root stands once below it, under a row that it
-- names, with the number of links that lead to it as its depth (the shortest way,
-- except for a row with the key of the root itself); no other row is there, and the
-- children of a node keep their order.
structure Reconstructs (getId : M → K) (getParentId : M → Option K) (root : M) (rows : List M)
    (t : HierarchyNode M) : Prop where
  top : t.item = root ∧ t.depth = 0
  once : ∃ below left, t.flatten = root :: below ∧ rows.Perm (below ++ left) ∧
    (∀ c ∈ below, Reached getId getParentId root rows c) ∧
    ∀ c ∈ left, ¬ Reached getId getParentId root rows c
  linked : ∀ x ∈ t.nodes, ∀ c ∈ x.children,
    ChildOf getId getParentId x.item c.item ∧ c.depth = x.depth + 1
  distance : ∀ x ∈ nodesOf t.children, (getId x.item == getId root) = false →
    IsDistance getId getParentId root rows x.depth x.item
  siblings : ∀ x ∈ t.nodes, (x.children.map item).Sublist rows

theorem fromFlat_reconstructs (getId : M → K) (getParentId : M → Option K) (root : M) (rows : List M)
    (hdistinct : rows.Pairwise fun a b => ¬ (getId a == getId b) = true) :
    Reconstructs getId getParentId root rows (fromFlat getId getParentId root rows) := by
  obtain ⟨taken, after, h⟩ := exists_exact getId getParentId root rows
  refine ⟨h.top, h.once, fun x hx c hc => ?_, fun x hx hroot => ?_, fun x hx => h.siblings hx⟩
  · obtain ⟨hlink, -, hdepth⟩ := h.child hx hc
    exact ⟨hlink, hdepth⟩
  · obtain ⟨p, hp, hchild⟩ := mem_below hx
    have hnode : x ∈ (fromFlat getId getParentId root rows).nodes := by
      rw [nodes_eq]
      exact List.mem_cons_of_mem _ hx
    exact ⟨h.path hnode, fun m hm => h.shortest hdistinct hp hchild hroot hm⟩

-- A cycle through the root, which is itself in the list, and an orphan.
theorem fromFlat_reconstructs_cycle :
    Reconstructs Prod.fst Prod.snd (1, some 3) [(2, some 1), (3, some 2), (1, some 3), (4, some 9)]
      (fromFlat Prod.fst Prod.snd ((1 : Nat), some 3)
        [(2, some 1), (3, some 2), (1, some 3), (4, some 9)]) :=
  fromFlat_reconstructs Prod.fst Prod.snd _ _ (by decide)

end

end

end HierarchyNode

end Ruprizzle.Runtime
