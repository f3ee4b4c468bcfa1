import Ruprizzle.Data.Reachability
import Ruprizzle.Migrate.Tarjan

namespace Ruprizzle.Cycle

open Reachability

-- The components the search finds are the classes of mutual reachability.

variable (graph : Graph)

def Edge (a b : ModelName) : Prop := b ∈ successors graph a

-- What the graph mentions.
def Known (v : ModelName) : Prop := v ∈ graph.keys ∨ ∃ a, Edge graph a v

namespace Tarjan

def num (s : Tarjan) (w : ModelName) : Nat := (s.indices.get? w).getD 0

def low (s : Tarjan) (w : ModelName) : Nat := (s.lowlinks.get? w).getD 0

-- What holds between two calls. The models being searched are on the stack, and the
-- others on it reach one of them below; those off the stack are in complete components.
structure Consistent (s : Tarjan) (searched : List ModelName) : Prop where
  sound : s.Sound
  onStack : ∀ w, w ∈ s.onStack ↔ w ∈ s.stack
  seen : ∀ w, w ∈ s.indices.keys ↔ w ∈ s.stack ∨ w ∈ s.sccs.flatten
  once : (s.stack ++ s.sccs.flatten).Nodup
  fresh : ∀ w ∈ s.indices.keys, s.num w < s.index
  sorted : s.stack.Pairwise fun a b => s.num b < s.num a
  down : s.stack.Pairwise fun a b => Reach (Edge graph) b a
  searching : ∀ u ∈ searched, u ∈ s.stack
  home : ∀ w ∈ s.stack, ∃ u ∈ searched, s.num u ≤ s.num w ∧ Reach (Edge graph) w u
  black : ∀ w ∈ s.indices.keys, w ∉ searched → ∀ x, Edge graph w x → x ∈ s.indices.keys
  closed : ∀ w ∈ s.sccs.flatten, ∀ x, Edge graph w x → x ∈ s.sccs.flatten
  known : ∀ w ∈ s.indices.keys, Known graph w
  classes : ∀ scc ∈ s.sccs, IsClass (Edge graph) scc

-- The numbers of models seen earlier stay as they are.
structure Keeps (s t : Tarjan) : Prop where
  seen : ∀ w ∈ s.indices.keys, w ∈ t.indices.keys
  num : ∀ w ∈ s.indices.keys, t.num w = s.num w
  low : ∀ w ∈ s.indices.keys, t.low w = s.low w

-- The link of v is the number of v or of a model below that v reaches. No edge of the
-- models it heeds goes further below, and none of those it is told of is.
structure Linked (s t : Tarjan) (v : ModelName) (heeded told : List ModelName) : Prop where
  le : t.low v ≤ t.num v
  reach : t.low v = t.num v ∨ ∃ u ∈ s.stack, t.num u = t.low v ∧ Reach (Edge graph) v u
  edge : ∀ x ∈ heeded, ∀ y ∈ s.stack, Edge graph x y → t.low v ≤ t.num y
  told : ∀ y ∈ told, y ∈ s.stack → t.low v ≤ t.num y

variable {graph} {s t u : Tarjan} {v w : ModelName} {searched left heeded told : List ModelName}

theorem Keeps.trans (h : s.Keeps t) (h' : t.Keeps u) : s.Keeps u :=
  ⟨fun w hw => h'.seen w (h.seen w hw), fun w hw => (h'.num w (h.seen w hw)).trans (h.num w hw),
    fun w hw => (h'.low w (h.seen w hw)).trans (h.low w hw)⟩

theorem Consistent.stack_seen (h : s.Consistent graph searched) (hw : w ∈ s.stack) :
    w ∈ s.indices.keys := (h.seen w).mpr (Or.inl hw)

-- A model further up the stack has the greater number, and is reached.
theorem Consistent.above {top base : List ModelName} (h : s.Consistent graph searched)
    (hstack : s.stack = top ++ base) {x y : ModelName} (hx : x ∈ top) (hy : y ∈ base) :
    s.num y < s.num x ∧ Reach (Edge graph) y x := by
  have hsorted := h.sorted
  have hdown := h.down
  rw [hstack, List.pairwise_append] at hsorted hdown
  exact ⟨hsorted.2.2 x hx y hy, hdown.2.2 x hx y hy⟩

variable (graph) in
theorem start_consistent : start.Consistent graph [] := by
  have hnone : ∀ w, w ∉ start.indices.keys := by simp [start]
  constructor
  · exact ⟨by simp [start], by simp [start]⟩
  · exact fun w => Iff.rfl
  · exact fun w => iff_of_false (hnone w) (by simp [start])
  · exact List.nodup_nil
  · exact fun w hw => absurd hw (hnone w)
  · exact List.Pairwise.nil
  · exact List.Pairwise.nil
  · exact fun u hu => hu
  · exact fun w hw => absurd hw List.not_mem_nil
  · exact fun w hw => absurd hw (hnone w)
  · exact fun w hw => absurd hw List.not_mem_nil
  · exact fun w hw => absurd hw (hnone w)
  · exact fun scc hscc => absurd hscc List.not_mem_nil

theorem num_enter (hv : v ∉ s.indices.keys) (hw : w ∈ s.indices.keys) : (s.enter v).num w = s.num w := by
  have hne : w ≠ v := fun heq => hv (heq ▸ hw)
  unfold num enter
  rw [IndexMap.get?_insert, if_neg hne]

theorem num_enter_self : (s.enter v).num v = s.index := by
  unfold num enter
  rw [IndexMap.get?_insert, if_pos rfl]
  rfl

theorem low_enter (hv : v ∉ s.indices.keys) (hw : w ∈ s.indices.keys) : (s.enter v).low w = s.low w := by
  have hne : w ≠ v := fun heq => hv (heq ▸ hw)
  unfold low enter
  rw [IndexMap.get?_insert, if_neg hne]

theorem low_enter_self : (s.enter v).low v = s.index := by
  unfold low enter
  rw [IndexMap.get?_insert, if_pos rfl]
  rfl

theorem seen_enter : w ∈ (s.enter v).indices.keys ↔ w = v ∨ w ∈ s.indices.keys :=
  IndexMap.mem_keys_insert

theorem keeps_enter (hv : v ∉ s.indices.keys) : s.Keeps (s.enter v) :=
  ⟨fun _ hw => seen_enter.mpr (Or.inr hw), fun _ hw => num_enter hv hw, fun _ hw => low_enter hv hw⟩

-- A model that those being searched reach may be searched next.
theorem Consistent.enter (h : s.Consistent graph searched) (hv : v ∉ s.indices.keys)
    (hknown : Known graph v) (hreach : ∀ u ∈ searched, Reach (Edge graph) u v) :
    (s.enter v).Consistent graph (v :: searched) := by
  have hstack : ∀ w ∈ s.stack, (s.enter v).num w = s.num w := fun w hw => num_enter hv (h.stack_seen hw)
  have hnew : v ∉ s.stack ++ s.sccs.flatten := by
    intro hin
    exact hv ((h.seen v).mpr (List.mem_append.mp hin))
  constructor
  · exact enter_sound h.sound v
  · intro w
    change w ∈ v :: s.onStack ↔ w ∈ v :: s.stack
    rw [List.mem_cons, List.mem_cons, h.onStack]
  · intro w
    rw [seen_enter, h.seen]
    change _ ↔ w ∈ v :: s.stack ∨ w ∈ s.sccs.flatten
    rw [List.mem_cons, or_assoc]
  · exact List.nodup_cons.mpr ⟨hnew, h.once⟩
  · intro w hw
    change _ < s.index + 1
    rcases seen_enter.mp hw with rfl | hw
    · rw [num_enter_self]
      omega
    · rw [num_enter hv hw]
      have := h.fresh w hw
      omega
  · refine List.pairwise_cons.mpr ⟨fun w hw => ?_, ?_⟩
    · rw [num_enter_self, hstack w hw]
      exact h.fresh w (h.stack_seen hw)
    · refine h.sorted.imp_of_mem fun ha hb hlt => ?_
      rw [hstack _ ha, hstack _ hb]
      exact hlt
  · refine List.pairwise_cons.mpr ⟨fun w hw => ?_, h.down⟩
    obtain ⟨u, hu, _, hwu⟩ := h.home w hw
    exact hwu.trans (hreach u hu)
  · intro u hu
    rcases List.mem_cons.mp hu with rfl | hu
    · exact List.mem_cons_self
    · exact List.mem_cons_of_mem v (h.searching u hu)
  · intro w hw
    rcases List.mem_cons.mp hw with rfl | hw
    · exact ⟨w, List.mem_cons_self, Nat.le_refl _, .refl⟩
    · obtain ⟨u, hu, hle, hwu⟩ := h.home w hw
      refine ⟨u, List.mem_cons_of_mem v hu, ?_, hwu⟩
      rw [hstack u (h.searching u hu), hstack w hw]
      exact hle
  · intro w hw hnot x hx
    rw [List.mem_cons, not_or] at hnot
    have hold := (seen_enter.mp hw).resolve_left hnot.1
    exact seen_enter.mpr (Or.inr (h.black w hold hnot.2 x hx))
  · exact h.closed
  · intro w hw
    rcases seen_enter.mp hw with rfl | hw
    · exact hknown
    · exact h.known w hw
  · exact h.classes

-- Lowering the link of a model on the stack touches nothing else.
theorem lower_spec {bound : Option Nat} (h : s.Consistent graph searched) (hv : v ∈ s.indices.keys)
    (hlower : s.lower v bound = some t) :
    t.Consistent graph searched ∧ t.stack = s.stack ∧ t.sccs = s.sccs ∧ t.indices = s.indices ∧
      (∃ n, bound = some n ∧ t.low v = min (s.low v) n) ∧ ∀ w, w ≠ v → t.low w = s.low w := by
  unfold lower at hlower
  cases hlow : s.lowlinks.get? v with
  | none =>
      rw [hlow] at hlower
      cases hlower
  | some a =>
      cases bound with
      | none =>
          rw [hlow] at hlower
          cases hlower
      | some n =>
          rw [hlow] at hlower
          obtain rfl := Option.some.inj hlower
          refine ⟨⟨⟨fun w => ?_, h.sound.filled⟩, h.onStack, h.seen, h.once, h.fresh, h.sorted, h.down,
            h.searching, h.home, h.black, h.closed, h.known, h.classes⟩, rfl, rfl, rfl, ⟨n, rfl, ?_⟩, fun w hw => ?_⟩
          · rw [IndexMap.mem_keys_insert, h.sound.numbered]
            constructor
            · exact Or.inr
            · intro hor
              rcases hor with rfl | hw
              · exact (h.sound.numbered w).mp hv
              · exact hw
          · unfold low
            rw [IndexMap.get?_insert, if_pos rfl, hlow]
            rfl
          · unfold low
            rw [IndexMap.get?_insert, if_neg hw]

variable (graph) in
-- While v is being searched: its edges to the models told have been followed, and what
-- is left of that stands on the stack above it.
structure Searching (s t : Tarjan) (v : ModelName) (searched left heeded told : List ModelName) :
    Prop where
  consistent : t.Consistent graph (v :: searched)
  stack : t.stack = left ++ v :: s.stack
  keeps : s.Keeps t
  before : v ∉ s.indices.keys
  seen : v ∈ t.indices.keys
  num : t.num v = s.index
  linked : s.Linked graph t v heeded told
  followed : ∀ w ∈ told, w ∈ t.indices.keys

variable (graph) in
-- After the search of v, which may have completed its component.
structure Searched (s t : Tarjan) (v : ModelName) (searched left : List ModelName) : Prop where
  consistent : t.Consistent graph searched
  stack : t.stack = left ++ s.stack
  keeps : s.Keeps t
  seen : v ∈ t.indices.keys
  num : t.num v = s.index
  linked : s.Linked graph t v left []

theorem Searching.start (h : s.Consistent graph searched) (hv : v ∉ s.indices.keys)
    (hknown : Known graph v) (hreach : ∀ u ∈ searched, Reach (Edge graph) u v) :
    s.Searching graph (s.enter v) v searched [] [] [] := by
  refine ⟨h.enter hv hknown hreach, rfl, keeps_enter hv, hv, seen_enter.mpr (Or.inl rfl), num_enter_self,
    ⟨?_, Or.inl ?_, fun x hx => absurd hx List.not_mem_nil, fun y hy => absurd hy List.not_mem_nil⟩,
    fun w hw => absurd hw List.not_mem_nil⟩
  · rw [low_enter_self, num_enter_self]
  · rw [low_enter_self, num_enter_self]

-- On the stack, only the models below v have smaller numbers.
theorem Searching.below (h : s.Searching graph t v searched left heeded told) {y : ModelName}
    (hy : y ∈ t.stack) : y ∈ s.stack ∧ t.num y < t.num v ∨ y ∈ left ++ [v] ∧ t.num v ≤ t.num y := by
  have hstack : t.stack = (left ++ [v]) ++ s.stack := by rw [h.stack]; simp
  rw [h.stack, List.mem_append, List.mem_cons] at hy
  rcases hy with hy | rfl | hy
  · have hlt := (h.consistent.above h.stack hy List.mem_cons_self).1
    exact Or.inr ⟨List.mem_append_left _ hy, Nat.le_of_lt hlt⟩
  · exact Or.inr ⟨List.mem_append_right _ List.mem_cons_self, Nat.le_refl _⟩
  · have hv : v ∈ left ++ [v] := List.mem_append_right _ List.mem_cons_self
    exact Or.inl ⟨hy, (h.consistent.above hstack hv hy).1⟩

theorem Searching.stack_mem (h : s.Searching graph t v searched left heeded told) {y : ModelName}
    (hy : y ∈ s.stack) : y ∈ t.stack := by
  rw [h.stack]
  exact List.mem_append_right _ (List.mem_cons_of_mem v hy)

theorem num_of_indices (h : t.indices = u.indices) (w : ModelName) : t.num w = u.num w := by
  unfold num
  rw [h]

-- Lowering the link of v to a number of its own search or of a model below it.
theorem Searching.lowered (h : s.Searching graph t v searched left heeded told) {bound : Option Nat}
    (hlower : t.lower v bound = some u) {a : Nat} (ha : bound = some a)
    (hreach : a < t.num v → ∃ x ∈ s.stack, t.num x = a ∧ Reach (Edge graph) v x)
    {extra more : List ModelName}
    (hextra : ∀ x ∈ extra, ∀ y ∈ s.stack, Edge graph x y → a ≤ t.num y)
    (hmore : ∀ y ∈ more, y ∈ s.stack → a ≤ t.num y) (hseen : ∀ y ∈ more, y ∈ t.indices.keys) :
    s.Searching graph u v searched left (extra ++ heeded) (told ++ more) := by
  obtain ⟨hconsistent, hstack, -, hindices, ⟨n, hn, hlow⟩, hothers⟩ := lower_spec h.consistent h.seen hlower
  obtain rfl : a = n := Option.some.inj (ha.symm.trans hn)
  have hnum : ∀ w, u.num w = t.num w := num_of_indices hindices
  refine ⟨hconsistent, hstack.trans h.stack, ⟨fun w hw => ?_, fun w hw => ?_, fun w hw => ?_⟩, h.before, ?_, ?_,
    ⟨?_, ?_, fun x hx y hy hedge => ?_, fun y hy hbelow => ?_⟩, fun w hw => ?_⟩
  · rw [hindices]
    exact h.keeps.seen w hw
  · rw [hnum]
    exact h.keeps.num w hw
  · have hwv : w ≠ v := fun heq => h.before (heq ▸ hw)
    rw [hothers w hwv]
    exact h.keeps.low w hw
  · rw [hindices]
    exact h.seen
  · rw [hnum]
    exact h.num
  · rw [hnum, hlow]
    exact (Nat.min_le_left _ _).trans h.linked.le
  · rw [hnum, hlow]
    rcases Nat.lt_or_ge a (t.low v) with hlt | hle
    · rw [Nat.min_eq_right (Nat.le_of_lt hlt)]
      obtain ⟨x, hx, hnumx, hvx⟩ := hreach (Nat.lt_of_lt_of_le hlt h.linked.le)
      exact Or.inr ⟨x, hx, by rw [hnum, hnumx], hvx⟩
    · rw [Nat.min_eq_left hle]
      rcases h.linked.reach with heq | ⟨x, hx, hnumx, hvx⟩
      · exact Or.inl heq
      · exact Or.inr ⟨x, hx, by rw [hnum, hnumx], hvx⟩
  · rw [hnum, hlow]
    rcases List.mem_append.mp hx with hx | hx
    · exact (Nat.min_le_right _ _).trans (hextra x hx y hy hedge)
    · exact (Nat.min_le_left _ _).trans (h.linked.edge x hx y hy hedge)
  · rw [hnum, hlow]
    rcases List.mem_append.mp hy with hy | hy
    · exact (Nat.min_le_left _ _).trans (h.linked.told y hy hbelow)
    · exact (Nat.min_le_right _ _).trans (hmore y hy hbelow)
  · rw [hindices]
    rcases List.mem_append.mp hw with hw | hw
    · exact h.followed w hw
    · exact hseen w hw

-- An edge of v to a model seen before.
theorem Searching.follow_seen (h : s.Searching graph t v searched left left told)
    (hedge : Edge graph v w) (hw : w ∈ t.indices.keys) :
    ∀ u, (if w ∈ t.onStack then t.lower v (t.indices.get? w) else some t) = some u →
      s.Searching graph u v searched left left (told ++ [w]) := by
  intro u hu
  by_cases hon : w ∈ t.onStack
  · rw [if_pos hon] at hu
    have hstack := (h.consistent.onStack w).mp hon
    obtain ⟨n, hn⟩ := IndexMap.mem_keys_iff_get?.mp hw
    have hnum : t.num w = n := by
      unfold Tarjan.num
      rw [hn]
      rfl
    refine h.lowered hu hn (fun hlt => ?_) (fun x hx => absurd hx List.not_mem_nil) ?_ ?_
    · rcases h.below hstack with ⟨hbelow, _⟩ | ⟨_, hle⟩
      · exact ⟨w, hbelow, hnum, Relation.ReflTransGen.single hedge⟩
      · omega
    · intro y hy _
      rw [List.mem_singleton.mp hy, hnum]
    · intro y hy
      rw [List.mem_singleton.mp hy]
      exact hw
  · rw [if_neg hon] at hu
    obtain rfl := Option.some.inj hu
    refine ⟨h.consistent, h.stack, h.keeps, h.before, h.seen, h.num,
      ⟨h.linked.le, h.linked.reach, h.linked.edge, fun y hy hbelow => ?_⟩, fun y hy => ?_⟩
    · rcases List.mem_append.mp hy with hy | hy
      · exact h.linked.told y hy hbelow
      · rw [List.mem_singleton.mp hy] at hbelow
        exact absurd ((h.consistent.onStack w).mpr (h.stack_mem hbelow)) hon
    · rcases List.mem_append.mp hy with hy | hy
      · exact h.followed y hy
      · rw [List.mem_singleton.mp hy]
        exact hw

-- An edge of v to a model that is then searched.
theorem Searching.follow_new (h : s.Searching graph t v searched left left told)
    (hedge : Edge graph v w) {after : List ModelName} (hw : w ∉ t.indices.keys)
    (hs : t.Searched graph u w (v :: searched) after) {u' : Tarjan}
    (hu : u.lower v (u.lowlinks.get? w) = some u') :
    s.Searching graph u' v searched (after ++ left) (after ++ left) (told ++ [w]) := by
  have hnum : ∀ y ∈ t.stack, u.num y = t.num y := fun y hy =>
    hs.keeps.num y (h.consistent.stack_seen hy)
  have hnumv : u.num v = t.num v := hs.keeps.num v h.seen
  have hlowv : u.low v = t.low v := hs.keeps.low v h.seen
  have hbase : s.Searching graph u v searched (after ++ left) left told := by
    refine ⟨hs.consistent, ?_, h.keeps.trans hs.keeps, h.before, hs.keeps.seen v h.seen, ?_,
      ⟨?_, ?_, fun x hx y hy hxy => ?_, fun y hy hbelow => ?_⟩,
      fun y hy => hs.keeps.seen y (h.followed y hy)⟩
    · rw [hs.stack, h.stack, List.append_assoc]
    · rw [hnumv, h.num]
    · rw [hlowv, hnumv]
      exact h.linked.le
    · rw [hlowv, hnumv]
      rcases h.linked.reach with heq | ⟨x, hx, hnumx, hvx⟩
      · exact Or.inl heq
      · exact Or.inr ⟨x, hx, by rw [hnum x (h.stack_mem hx), hnumx], hvx⟩
    · rw [hlowv, hnum y (h.stack_mem hy)]
      exact h.linked.edge x hx y hy hxy
    · rw [hlowv, hnum y (h.stack_mem hbelow)]
      exact h.linked.told y hy hbelow
  obtain ⟨n, hn⟩ := IndexMap.mem_keys_iff_get?.mp ((hs.consistent.sound.numbered w).mp hs.seen)
  have hlow : u.low w = n := by
    unfold Tarjan.low
    rw [hn]
    rfl
  refine hbase.lowered hu hn (fun hlt => ?_) (fun x hx y hy hxy => ?_) (fun y hy hbelow => ?_)
    (fun y hy => ?_)
  · -- Its own number is greater than that of v, so the link leads below v.
    have hfresh := h.consistent.fresh v h.seen
    rw [← hlow, hnumv] at hlt
    rcases hs.linked.reach with heq | ⟨x, hx, hnumx, hwx⟩
    · rw [heq, hs.num] at hlt
      omega
    · rcases h.below hx with ⟨hbelow, _⟩ | ⟨_, hle⟩
      · exact ⟨x, hbelow, hnumx.trans hlow, Relation.ReflTransGen.head hedge hwx⟩
      · rw [← hnumx, hnum x hx] at hlt
        omega
  · rw [← hlow]
    exact hs.linked.edge x hx y (h.stack_mem hy) hxy
  · rw [List.mem_singleton.mp hy] at hbelow
    exact absurd (h.consistent.stack_seen (h.stack_mem hbelow)) hw
  · rw [List.mem_singleton.mp hy]
    exact hs.seen

theorem popTo_split {base : List ModelName} (hv : v ∉ left) :
    popTo v (left ++ v :: base) = some (left ++ [v], base) := by
  induction left with
  | nil =>
      change popTo v (v :: base) = some ([v], base)
      unfold popTo
      rw [if_pos rfl]
  | cons w rest ih =>
      rw [List.mem_cons, not_or] at hv
      rw [List.cons_append]
      unfold popTo
      rw [if_neg (Ne.symm hv.1), ih hv.2]
      rfl

-- A model whose component is not complete stays on the stack.
theorem Searching.keep (h : s.Searching graph t v searched left left told)
    (htold : ∀ w, Edge graph v w → w ∈ told) (hbase : ∀ w ∈ searched, w ∈ s.stack)
    (hlow : t.low v ≠ t.num v) : s.Searched graph t v searched (left ++ [v]) := by
  have hc := h.consistent
  have hle := h.linked.le
  refine ⟨⟨hc.sound, hc.onStack, hc.seen, hc.once, hc.fresh, hc.sorted, hc.down,
    fun w hw => h.stack_mem (hbase w hw), fun w hw => ?_, fun w hw hnot x hx => ?_, hc.closed, hc.known,
    hc.classes⟩, ?_, h.keeps, h.seen, h.num,
    ⟨hle, h.linked.reach, fun x hx y hy hedge => ?_, fun y hy => absurd hy List.not_mem_nil⟩⟩
  · obtain ⟨z, hz, hnum, hwz⟩ := hc.home w hw
    rcases List.mem_cons.mp hz with rfl | hz
    · obtain ⟨x, hx, hnumx, hzx⟩ := h.linked.reach.resolve_left hlow
      obtain ⟨y, hy, hnumy, hxy⟩ := hc.home x (h.stack_mem hx)
      rcases List.mem_cons.mp hy with rfl | hy
      · omega
      · exact ⟨y, hy, by omega, (hwz.trans hzx).trans hxy⟩
    · exact ⟨z, hz, hnum, hwz⟩
  · by_cases hwv : w = v
    · exact h.followed x (htold x (hwv ▸ hx))
    · refine hc.black w hw (fun hin => ?_) x hx
      rcases List.mem_cons.mp hin with heq | hin
      · exact hwv heq
      · exact hnot hin
  · rw [h.stack]
    simp
  · rcases List.mem_append.mp hx with hx | hx
    · exact h.linked.edge x hx y hy hedge
    · rw [List.mem_singleton.mp hx] at hedge
      exact h.linked.told y (htold y hedge) hy

-- Where the link of v is its own number, the edges of what stands above leave it only
-- for complete components.
theorem Searching.out (h : s.Searching graph t v searched left left told)
    (htold : ∀ w, Edge graph v w → w ∈ told) (hbase : ∀ w ∈ searched, w ∈ s.stack)
    (hlow : t.low v = t.num v) {x y : ModelName} (hx : x ∈ left ++ [v]) (hedge : Edge graph x y) :
    y ∈ left ++ [v] ∨ y ∈ t.sccs.flatten := by
  have hc := h.consistent
  have hstack : t.stack = (left ++ [v]) ++ s.stack := by rw [h.stack]; simp
  have hxt : x ∈ t.stack := by
    rw [hstack]
    exact List.mem_append_left _ hx
  have hseen : y ∈ t.indices.keys := by
    by_cases hxv : x = v
    · exact h.followed y (htold y (hxv ▸ hedge))
    · refine hc.black x (hc.stack_seen hxt) (fun hin => ?_) y hedge
      have hbelow := hbase x ((List.mem_cons.mp hin).resolve_left hxv)
      have honce := (List.nodup_append.mp hc.once).1
      rw [hstack] at honce
      exact (List.nodup_append.mp honce).2.2 x hx x hbelow rfl
  rcases (hc.seen y).mp hseen with hy | hy
  · rcases h.below hy with ⟨hbelow, hlt⟩ | ⟨habove, _⟩
    · have hle : t.low v ≤ t.num y := by
        rcases List.mem_append.mp hx with hx | hx
        · exact h.linked.edge x hx y hbelow hedge
        · rw [List.mem_singleton.mp hx] at hedge
          exact h.linked.told y (htold y hedge) hbelow
      omega
    · exact Or.inl habove
  · exact Or.inr hy

-- What then stands above is a class.
theorem Searching.isClass (h : s.Searching graph t v searched left left told)
    (htold : ∀ w, Edge graph v w → w ∈ told) (hbase : ∀ w ∈ searched, w ∈ s.stack)
    (hlow : t.low v = t.num v) : IsClass (Edge graph) (left ++ [v]) := by
  have hc := h.consistent
  have hstack : t.stack = (left ++ [v]) ++ s.stack := by rw [h.stack]; simp
  have honce := hc.once
  rw [hstack, List.append_assoc, List.nodup_append] at honce
  have hdisjoint : ∀ x ∈ left ++ [v], x ∉ t.sccs.flatten := fun x hx hin =>
    honce.2.2 x hx x (List.mem_append_right _ hin) rfl
  refine isClass_of_root (List.mem_append_right _ List.mem_cons_self) (fun x hx => ?_) (fun x hx => ?_)
    (fun x hx y hedge => h.out htold hbase hlow hx hedge) hc.closed hdisjoint
  · rcases List.mem_append.mp hx with hx | hx
    · exact (hc.above h.stack hx List.mem_cons_self).2
    · rw [List.mem_singleton.mp hx]
  · have hxt : x ∈ t.stack := by
      rw [hstack]
      exact List.mem_append_left _ hx
    obtain ⟨z, hz, _, hxz⟩ := hc.home x hxt
    rcases List.mem_cons.mp hz with rfl | hz
    · exact hxz
    · -- The way to a model below would pass through a complete component.
      have hbelow := hbase z hz
      have hnot : z ∉ left ++ [v] := fun hin => honce.2.2 z hin z (List.mem_append_left _ hbelow) rfl
      obtain ⟨a, b, ha, hb, hedge, hbz⟩ := exists_leaving (A := fun a => a ∈ left ++ [v]) hxz hx hnot
      have hdone := (h.out htold hbase hlow ha hedge).resolve_left hb
      have hzdone := closed_reach (A := fun a => a ∈ t.sccs.flatten) hc.closed hbz hdone
      exact absurd rfl ((List.nodup_append.mp honce.2.1).2.2 z hbelow z hzdone)

-- A complete component is taken off the stack.
theorem Searching.pop (h : s.Searching graph t v searched left left told)
    (htold : ∀ w, Edge graph v w → w ∈ told) (hbase : ∀ w ∈ searched, w ∈ s.stack)
    (hlow : t.low v = t.num v) :
    s.Searched graph
      { t with
        stack := s.stack
        onStack := t.onStack.filter (fun w => w ∉ left ++ [v])
        sccs := t.sccs ++ [left ++ [v]] } v searched [] := by
  have hc := h.consistent
  have hstack : t.stack = (left ++ [v]) ++ s.stack := by rw [h.stack]; simp
  have honce := hc.once
  have hsorted := hc.sorted
  have hdown := hc.down
  rw [hstack, List.append_assoc, List.nodup_append] at honce
  rw [hstack, List.pairwise_append] at hsorted hdown
  have hflatten : (t.sccs ++ [left ++ [v]]).flatten = t.sccs.flatten ++ (left ++ [v]) := by simp
  refine ⟨⟨⟨hc.sound.numbered, fun scc hscc => ?_⟩, fun w => ?_, fun w => ?_, ?_, hc.fresh, hsorted.2.1,
    hdown.2.1, hbase, fun w hw => ?_, fun w hw hnot x hx => ?_, fun w hw x hx => ?_, hc.known, fun scc hscc => ?_⟩,
    rfl, ⟨h.keeps.seen, h.keeps.num, h.keeps.low⟩, h.seen, h.num,
    ⟨h.linked.le, Or.inl hlow, fun x hx => absurd hx List.not_mem_nil, fun y hy => absurd hy List.not_mem_nil⟩⟩
  · rcases List.mem_append.mp hscc with hscc | hscc
    · exact hc.sound.filled scc hscc
    · rw [List.mem_singleton.mp hscc]
      exact List.append_ne_nil_of_right_ne_nil left (List.cons_ne_nil v [])
  · change w ∈ t.onStack.filter _ ↔ w ∈ s.stack
    rw [List.mem_filter, decide_eq_true_eq, hc.onStack, hstack, List.mem_append]
    constructor
    · intro ⟨hor, hnot⟩
      exact hor.resolve_left hnot
    · intro hw
      exact ⟨Or.inr hw, fun hin => honce.2.2 w hin w (List.mem_append_left _ hw) rfl⟩
  · change w ∈ t.indices.keys ↔ w ∈ s.stack ∨ w ∈ (t.sccs ++ [left ++ [v]]).flatten
    rw [hc.seen, hstack, hflatten, List.mem_append, List.mem_append (s := t.sccs.flatten)]
    tauto
  · change (s.stack ++ (t.sccs ++ [left ++ [v]]).flatten).Nodup
    rw [hflatten, ← List.append_assoc]
    exact List.nodup_append_comm.mp (List.nodup_append.mpr honce)
  · have hw' : w ∈ t.stack := h.stack_mem hw
    obtain ⟨z, hz, hnum, hwz⟩ := hc.home w hw'
    rcases List.mem_cons.mp hz with rfl | hz
    · have hlt := (hc.above hstack (List.mem_append_right _ List.mem_cons_self) hw).1
      omega
    · exact ⟨z, hz, hnum, hwz⟩
  · by_cases hwv : w = v
    · exact h.followed x (htold x (hwv ▸ hx))
    · exact hc.black w hw (fun hin => hnot ((List.mem_cons.mp hin).resolve_left hwv)) x hx
  · change x ∈ (t.sccs ++ [left ++ [v]]).flatten
    change w ∈ (t.sccs ++ [left ++ [v]]).flatten at hw
    rw [hflatten, List.mem_append] at hw ⊢
    rcases hw with hw | hw
    · exact Or.inl (hc.closed w hw x hx)
    · exact (h.out htold hbase hlow hw hx).symm
  · rcases List.mem_append.mp hscc with hscc | hscc
    · exact hc.classes scc hscc
    · rw [List.mem_singleton.mp hscc]
      exact h.isClass htold hbase hlow

theorem Searching.leave (h : s.Searching graph t v searched left left told)
    (htold : ∀ w, Edge graph v w → w ∈ told) (hbase : ∀ w ∈ searched, w ∈ s.stack)
    (hleave : t.leave v = some u) : ∃ after, s.Searched graph u v searched after := by
  obtain ⟨index, hindex⟩ := IndexMap.mem_keys_iff_get?.mp h.seen
  obtain ⟨link, hlink⟩ := IndexMap.mem_keys_iff_get?.mp ((h.consistent.sound.numbered v).mp h.seen)
  have hnum : t.num v = index := by
    unfold Tarjan.num
    rw [hindex]
    rfl
  have hlow : t.low v = link := by
    unfold Tarjan.low
    rw [hlink]
    rfl
  unfold Tarjan.leave at hleave
  simp only [hindex, hlink, Option.bind_eq_bind, Option.bind_some] at hleave
  by_cases hroot : link = index
  · have hnot : v ∉ left := by
      have honce := (List.nodup_append.mp h.consistent.once).1
      rw [h.stack, List.nodup_append] at honce
      exact fun hin => honce.2.2 v hin v List.mem_cons_self rfl
    rw [if_pos hroot, h.stack, popTo_split hnot] at hleave
    obtain rfl := Option.some.inj hleave
    exact ⟨[], h.pop htold hbase (hlow.trans (hroot.trans hnum.symm))⟩
  · rw [if_neg hroot] at hleave
    obtain rfl := Option.some.inj hleave
    refine ⟨left ++ [v], h.keep htold hbase fun heq => hroot ?_⟩
    rw [← hlow, heq, hnum]

end Tarjan

variable {graph}

theorem strongconnect_searched {fuel : Nat} {v : ModelName} {s u : Tarjan} {searched : List ModelName}
    (h : s.Consistent graph searched) (hv : v ∉ s.indices.keys) (hknown : Known graph v)
    (hreach : ∀ w ∈ searched, Reach (Edge graph) w v) (hrun : strongconnect graph fuel v s = some u) :
    ∃ after, s.Searched graph u v searched after := by
  induction fuel generalizing v s u searched with
  | zero => cases hrun
  | succ fuel ih =>
      unfold strongconnect at hrun
      obtain ⟨t, hloop, hleave⟩ := Option.bind_eq_some_iff.mp hrun
      have hdone := Run.foldlM_processed
        (P := fun done t => ∃ left, s.Searching graph t v searched left left done)
        ⟨[], Tarjan.Searching.start h hv hknown hreach⟩ hloop ?_
      · obtain ⟨left, hsearching⟩ := hdone
        exact hsearching.leave (fun w hw => hw) h.searching hleave
      · rintro done w t t' hw ⟨left, hsearching⟩ hstep
        have hedge : Edge graph v w := hw
        by_cases hseen : w ∈ t.indices.keys
        · rw [if_neg (by simpa using hseen)] at hstep
          exact ⟨left, hsearching.follow_seen hedge hseen t' hstep⟩
        · rw [if_pos (by simpa using hseen)] at hstep
          obtain ⟨u, hcall, hlower⟩ := Option.bind_eq_some_iff.mp hstep
          have hbelow : ∀ z ∈ v :: searched, Reach (Edge graph) z w := by
            intro z hz
            rcases List.mem_cons.mp hz with rfl | hz
            · exact Relation.ReflTransGen.single hedge
            · exact (hreach z hz).tail hedge
          obtain ⟨after, hsearched⟩ := ih hsearching.consistent hseen (Or.inr ⟨v, hedge⟩) hbelow hcall
          exact ⟨after ++ left, hsearching.follow_new hedge hseen hsearched hlower⟩

-- The components share out what the graph mentions, and each is a class.
theorem tarjanScc_classes {order : HashOrder} {sccs : List (List ModelName)}
    (h : tarjanScc order graph = some sccs) :
    sccs.flatten.Nodup ∧ (∀ m, m ∈ sccs.flatten ↔ Known graph m) ∧ ∀ scc ∈ sccs, IsClass (Edge graph) scc := by
  unfold tarjanScc at h
  obtain ⟨s, hloop, hs⟩ := Option.bind_eq_some_iff.mp h
  obtain rfl := Option.some.inj hs
  have hstart : Tarjan.start.Consistent graph [] ∧
      ∀ w ∈ ([] : List ModelName), w ∈ Tarjan.start.indices.keys :=
    ⟨Tarjan.start_consistent graph, fun w hw => absurd hw List.not_mem_nil⟩
  have hdone := Run.foldlM_processed
    (P := fun done t => t.Consistent graph [] ∧ ∀ w ∈ done, w ∈ t.indices.keys) hstart hloop ?_
  · obtain ⟨hc, hseen⟩ := hdone
    have hempty : ∀ w, w ∉ s.stack := by
      intro w hw
      obtain ⟨u, hu, _⟩ := hc.home w hw
      exact List.not_mem_nil hu
    have hflatten : ∀ m, m ∈ s.indices.keys ↔ m ∈ s.sccs.flatten := by
      intro m
      rw [hc.seen]
      exact or_iff_right (hempty m)
    refine ⟨(List.nodup_append.mp hc.once).2.1, fun m => ⟨fun hm => hc.known m ((hflatten m).mpr hm), fun hm => ?_⟩,
      hc.classes⟩
    have hkeys : ∀ w ∈ graph.keys, w ∈ s.sccs.flatten := by
      intro w hw
      refine (hflatten w).mp (hseen w ?_)
      rw [List.nil_append]
      exact (order.perm graph.keys).mem_iff.mpr hw
    rcases hm with hm | ⟨a, hedge⟩
    · exact hkeys m hm
    · have ha : a ∈ graph.keys := by
        by_contra hnot
        unfold Edge at hedge
        rw [successors_of_not_mem hnot] at hedge
        exact List.not_mem_nil hedge
      exact hc.closed a (hkeys a ha) m hedge
  · intro done w t t' hw ⟨hc, hseen⟩ hstep
    have hkey := (order.perm graph.keys).mem_iff.mp hw
    by_cases hin : w ∈ t.indices.keys
    · rw [if_neg (by simpa using hin)] at hstep
      obtain rfl := Option.some.inj hstep
      refine ⟨hc, fun x hx => ?_⟩
      rcases List.mem_append.mp hx with hx | hx
      · exact hseen x hx
      · rw [List.mem_singleton.mp hx]
        exact hin
    · rw [if_pos (by simpa using hin)] at hstep
      obtain ⟨after, hsearched⟩ := strongconnect_searched hc hin (Or.inl hkey)
        (fun x hx => absurd hx List.not_mem_nil) hstep
      refine ⟨hsearched.consistent, fun x hx => ?_⟩
      rcases List.mem_append.mp hx with hx | hx
      · exact hsearched.keeps.seen x (hseen x hx)
      · rw [List.mem_singleton.mp hx]
        exact hsearched.seen

end Ruprizzle.Cycle
