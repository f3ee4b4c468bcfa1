import Mathlib.Data.List.Basic
import Mathlib.Logic.Relation

namespace Ruprizzle.Reachability

-- Directed graphs, with their classes of mutual reachability.

variable {α : Type} (edge : α → α → Prop)

abbrev Reach : α → α → Prop := Relation.ReflTransGen edge

def Mutual (a b : α) : Prop := Reach edge a b ∧ Reach edge b a

def OnCycle (a : α) : Prop := Relation.TransGen edge a a

-- What is mutually reachable with any of the members, and only that.
structure IsClass (l : List α) : Prop where
  filled : l ≠ []
  members : ∀ a ∈ l, ∀ b, b ∈ l ↔ Mutual edge a b

variable {edge} {l : List α} {a b v z : α}

-- A path out of a set takes an edge that leaves it.
theorem exists_leaving {A : α → Prop} (h : Reach edge a z) (ha : A a) (hz : ¬ A z) :
    ∃ x y, A x ∧ ¬ A y ∧ edge x y ∧ Reach edge y z := by
  induction h using Relation.ReflTransGen.head_induction_on with
  | refl => exact absurd ha hz
  | @head c d hcd hdz ih =>
      by_cases hd : A d
      · exact ih hd
      · exact ⟨c, d, ha, hd, hcd, hdz⟩

theorem closed_reach {A : α → Prop} (hclosed : ∀ x, A x → ∀ y, edge x y → A y)
    (h : Reach edge a z) (ha : A a) : A z := by
  by_contra hz
  obtain ⟨x, y, hx, hy, hedge, _⟩ := exists_leaving h ha hz
  exact hy (hclosed x hx y hedge)

-- All that reach a root and are reached from it, where all edges that leave them lead
-- to what never comes back.
theorem isClass_of_root {P : α → Prop} (hv : v ∈ l) (hdown : ∀ x ∈ l, Reach edge v x)
    (hup : ∀ x ∈ l, Reach edge x v) (hout : ∀ x ∈ l, ∀ y, edge x y → y ∈ l ∨ P y)
    (hclosed : ∀ x, P x → ∀ y, edge x y → P y) (hdisjoint : ∀ x ∈ l, ¬ P x) :
    IsClass edge l := by
  refine ⟨List.ne_nil_of_mem hv, fun a ha b => ⟨fun hb => ?_, fun ⟨hab, hba⟩ => ?_⟩⟩
  · exact ⟨(hup a ha).trans (hdown b hb), (hup b hb).trans (hdown a ha)⟩
  · by_contra hb
    obtain ⟨x, y, hx, hy, hedge, hyb⟩ := exists_leaving (A := fun x => x ∈ l) hab ha hb
    have hp : P y := (hout x hx y hedge).resolve_left hy
    exact hdisjoint a ha (closed_reach hclosed hba (closed_reach hclosed hyb hp))

-- A member is on a cycle where it has another beside it, or an edge to itself.
theorem IsClass.onCycle_iff (h : IsClass edge l) (ha : a ∈ l) : OnCycle edge a ↔ (∃ b ∈ l, b ≠ a) ∨ edge a a := by
  constructor
  · intro hcycle
    obtain ⟨c, hac, hca⟩ := Relation.TransGen.head'_iff.mp hcycle
    by_cases hc : c = a
    · exact Or.inr (hc ▸ hac)
    · refine Or.inl ⟨c, ?_, hc⟩
      exact (h.members a ha c).mpr ⟨Relation.ReflTransGen.single hac, hca⟩
  · intro hor
    rcases hor with ⟨b, hb, hne⟩ | hloop
    · obtain ⟨hab, hba⟩ := (h.members a ha b).mp hb
      obtain ⟨c, hac, hcb⟩ := (Relation.ReflTransGen.cases_head_iff.mp hab).resolve_left (Ne.symm hne)
      exact Relation.TransGen.head' hac (hcb.trans hba)
    · exact Relation.TransGen.single hloop

theorem OnCycle.of_mutual (h : OnCycle edge a) (hmutual : Mutual edge a b) : OnCycle edge b :=
  Relation.TransGen.trans_right hmutual.2 (h.trans_left hmutual.1)

-- Edges that no path leads back over make no difference to what is on a cycle.
section Subgraph

variable {edge' : α → α → Prop} (hsub : ∀ x y, edge' x y → edge x y)
  (hback : ∀ x y, edge x y → Reach edge y x → edge' x y)

include hback in
theorem reach_within (hab : Reach edge a b) (hba : Reach edge b a) : Reach edge' a b := by
  induction hab using Relation.ReflTransGen.head_induction_on with
  | refl => exact .refl
  | @head c d hcd hdb ih =>
      have hdc : Reach edge d c := hdb.trans hba
      exact (ih (hba.tail hcd)).head (hback c d hcd hdc)

include hsub hback in
theorem mutual_within : Mutual edge a b ↔ Mutual edge' a b := by
  constructor
  · intro ⟨hab, hba⟩
    exact ⟨reach_within hback hab hba, reach_within hback hba hab⟩
  · intro ⟨hab, hba⟩
    exact ⟨Relation.ReflTransGen.mono hsub a b hab, Relation.ReflTransGen.mono hsub b a hba⟩

include hsub hback in
theorem onCycle_within : OnCycle edge a ↔ OnCycle edge' a := by
  constructor
  · intro h
    obtain ⟨c, hac, hca⟩ := Relation.TransGen.head'_iff.mp h
    have hac' : Reach edge a c := Relation.ReflTransGen.single hac
    exact Relation.TransGen.head' (hback a c hac hca) (reach_within hback hca hac')
  · intro h
    exact Relation.TransGen.mono hsub a a h

include hsub hback in
theorem isClass_within (h : IsClass edge l) : IsClass edge' l :=
  ⟨h.filled, fun a ha b => (h.members a ha b).trans (mutual_within hsub hback)⟩

end Subgraph

end Ruprizzle.Reachability
