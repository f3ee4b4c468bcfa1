import Ruprizzle.Data.Run
import Ruprizzle.Migrate.Cycle

namespace Ruprizzle.Cycle

-- The search for cycles always comes to an end with an answer: each lookup it
-- makes finds an entry, and each pop finds the model it pops down to.

theorem popTo_of_mem {v : ModelName} {base stack : List ModelName}
    (h : (v :: base) <:+ stack) :
    ∃ scc left, popTo v stack = some (scc, left) ∧ scc ≠ [] ∧ base <:+ left := by
  induction stack with
  | nil => simp at h
  | cons w rest ih =>
      unfold popTo
      by_cases hw : w = v
      · refine ⟨[w], rest, by simp [hw], by simp, ?_⟩
        rcases List.suffix_cons_iff.mp h with heq | hsuffix
        · exact (List.cons.inj heq).2 ▸ List.suffix_refl base
        · exact (List.suffix_cons v base).trans hsuffix
      · have hsuffix : (v :: base) <:+ rest := by
          rcases List.suffix_cons_iff.mp h with heq | hsuffix
          · exact absurd (List.cons.inj heq).1.symm hw
          · exact hsuffix
        obtain ⟨scc, left, hpop, _, hbase⟩ := ih hsuffix
        exact ⟨w :: scc, left, by simp [hw, hpop], by simp, hbase⟩

-- Every model entered has both numbers, and no component is empty.
structure Tarjan.Sound (s : Tarjan) : Prop where
  numbered : ∀ w, w ∈ s.indices.keys ↔ w ∈ s.lowlinks.keys
  filled : ∀ scc ∈ s.sccs, scc ≠ []

-- What a call has added to the state it started from.
structure Tarjan.Extends (s t : Tarjan) : Prop where
  sound : t.Sound
  stack : s.stack <:+ t.stack
  entered : ∀ w ∈ s.indices.keys, w ∈ t.indices.keys

theorem Tarjan.Extends.trans {s t u : Tarjan} (h : s.Extends t) (h' : t.Extends u) :
    s.Extends u :=
  ⟨h'.sound, h.stack.trans h'.stack, fun w hw => h'.entered w (h.entered w hw)⟩

theorem Tarjan.enter_sound {s : Tarjan} (h : s.Sound) (v : ModelName) : (s.enter v).Sound := by
  refine ⟨fun w => ?_, h.filled⟩
  simp only [Tarjan.enter, IndexMap.mem_keys_insert, h.numbered w]

theorem Tarjan.lower_extends {s : Tarjan} (h : s.Sound) {v : ModelName}
    (hv : v ∈ s.indices.keys) {bound : Option Nat} (hb : ∃ n, bound = some n) :
    ∃ t, s.lower v bound = some t ∧ s.Extends t ∧ t.indices = s.indices := by
  obtain ⟨n, rfl⟩ := hb
  obtain ⟨low, hlow⟩ := IndexMap.mem_keys_iff_get?.mp ((h.numbered v).mp hv)
  refine ⟨{ s with lowlinks := s.lowlinks.insert v (min low n) }, by simp [lower, hlow],
    ⟨⟨fun w => ?_, h.filled⟩, List.suffix_refl _, fun w hw => hw⟩, rfl⟩
  simp only [IndexMap.mem_keys_insert, h.numbered w]
  constructor
  · exact Or.inr
  · rintro (rfl | hw)
    · exact (h.numbered w).mp hv
    · exact hw

theorem Tarjan.leave_extends {s t : Tarjan} {v : ModelName} (h : (s.enter v).Extends t) :
    ∃ u, t.leave v = some u ∧ s.Extends u ∧ ∀ w ∈ t.indices.keys, w ∈ u.indices.keys := by
  have hv : v ∈ t.indices.keys :=
    h.entered v (IndexMap.mem_keys_insert.mpr (Or.inl rfl))
  have hentered : ∀ w ∈ s.indices.keys, w ∈ t.indices.keys :=
    fun w hw => h.entered w (IndexMap.mem_keys_insert.mpr (Or.inr hw))
  obtain ⟨index, hindex⟩ := IndexMap.mem_keys_iff_get?.mp hv
  obtain ⟨low, hlow⟩ := IndexMap.mem_keys_iff_get?.mp ((h.sound.numbered v).mp hv)
  have hstack : (v :: s.stack) <:+ t.stack := h.stack
  by_cases hroot : low = index
  · obtain ⟨scc, left, hpop, hfilled, hbase⟩ := popTo_of_mem hstack
    refine ⟨{ t with
        stack := left
        onStack := t.onStack.filter (fun w => w ∉ scc)
        sccs := t.sccs ++ [scc] }, by simp [leave, hlow, hindex, hroot, hpop],
      ⟨⟨h.sound.numbered, ?_⟩, hbase, hentered⟩, fun w hw => hw⟩
    intro x hx
    rcases List.mem_append.mp hx with hx | hx
    · exact h.sound.filled x hx
    · rw [List.mem_singleton.mp hx]
      exact hfilled
  · exact ⟨t, by simp [leave, hlow, hindex, hroot],
      ⟨h.sound, (List.suffix_cons v s.stack).trans hstack, hentered⟩, fun w hw => hw⟩

-- The models of the graph that have not been entered bound the fuel.
def unvisited (graph : Graph) (s : Tarjan) : List ModelName :=
  graph.keys.filter (fun w => w ∉ s.indices.keys)

theorem unvisited_length_le {graph : Graph} {s t : Tarjan}
    (h : ∀ w ∈ s.indices.keys, w ∈ t.indices.keys) :
    (unvisited graph t).length ≤ (unvisited graph s).length := by
  unfold unvisited
  apply List.Sublist.length_le
  apply List.monotone_filter_right
  intro w hw
  simp only [decide_eq_true_eq] at hw ⊢
  exact fun hs => hw (h w hs)

theorem unvisited_enter_lt {graph : Graph} {s : Tarjan} {v : ModelName} (hv : v ∈ graph.keys)
    (hs : v ∉ s.indices.keys) :
    (unvisited graph (s.enter v)).length < (unvisited graph s).length := by
  have hsub : (unvisited graph (s.enter v)).Sublist (unvisited graph s) := by
    apply List.monotone_filter_right
    intro w hw
    simp only [decide_eq_true_eq, Tarjan.enter, IndexMap.mem_keys_insert, not_or] at hw ⊢
    exact hw.2
  have hmem : v ∈ unvisited graph s := List.mem_filter.mpr ⟨hv, by simpa using hs⟩
  have hnot : v ∉ unvisited graph (s.enter v) := by
    simp [unvisited, Tarjan.enter, IndexMap.mem_keys_insert]
  rcases Nat.lt_or_ge (unvisited graph (s.enter v)).length (unvisited graph s).length with h | h
  · exact h
  · exact absurd (hsub.eq_of_length_le h ▸ hmem) hnot

theorem successors_of_not_mem {graph : Graph} {v : ModelName} (h : v ∉ graph.keys) :
    successors graph v = [] := by
  simp [successors, IndexMap.get?_eq_none.mpr h]

theorem strongconnect_extends (graph : Graph) (fuel : Nat) (v : ModelName) (s : Tarjan)
    (hsound : s.Sound) (hv : v ∉ s.indices.keys) (hfuel : (unvisited graph s).length < fuel) :
    ∃ t, strongconnect graph fuel v s = some t ∧ s.Extends t ∧ v ∈ t.indices.keys := by
  induction fuel generalizing v s with
  | zero => omega
  | succ fuel ih =>
      -- The loop over the successors keeps the entered state extended.
      have hloop : ∃ t, (successors graph v).foldlM (fun (s : Tarjan) w =>
          if ¬ s.indices.contains w then do
            let s ← strongconnect graph fuel w s
            s.lower v (s.lowlinks.get? w)
          else if w ∈ s.onStack then s.lower v (s.indices.get? w)
          else some s) (s.enter v) = some t ∧ (s.enter v).Extends t := by
        by_cases hg : v ∈ graph.keys
        · refine Run.foldlM_total (P := (s.enter v).Extends)
            ⟨Tarjan.enter_sound hsound v, List.suffix_refl _, fun w hw => hw⟩ ?_
          intro w _ t ht
          have hvt : v ∈ t.indices.keys :=
            ht.entered v (IndexMap.mem_keys_insert.mpr (Or.inl rfl))
          by_cases hw : w ∈ t.indices.keys
          · obtain ⟨n, hn⟩ := IndexMap.mem_keys_iff_get?.mp hw
            obtain ⟨u, hu, hext, _⟩ := Tarjan.lower_extends ht.sound hvt ⟨n, hn⟩
            by_cases hon : w ∈ t.onStack
            · exact ⟨u, by simp [hw, hon, hu], ht.trans hext⟩
            · exact ⟨t, by simp [hw, hon], ht⟩
          · have hcount : (unvisited graph t).length < fuel := by
              have hle : (unvisited graph t).length ≤ (unvisited graph (s.enter v)).length :=
                unvisited_length_le ht.entered
              have hlt := unvisited_enter_lt hg hv
              omega
            obtain ⟨u, hu, hext, hwu⟩ := ih w t ht.sound hw hcount
            obtain ⟨n, hn⟩ := IndexMap.mem_keys_iff_get?.mp ((hext.sound.numbered w).mp hwu)
            obtain ⟨x, hx, hext', _⟩ := Tarjan.lower_extends hext.sound (hext.entered v hvt) ⟨n, hn⟩
            exact ⟨x, by simp [hw, hu, hx], ht.trans (hext.trans hext')⟩
        · rw [successors_of_not_mem hg]
          exact ⟨s.enter v, rfl, Tarjan.enter_sound hsound v, List.suffix_refl _, fun w hw => hw⟩
      obtain ⟨t, ht, hext⟩ := hloop
      obtain ⟨u, hu, hsu, hkeys⟩ := Tarjan.leave_extends hext
      refine ⟨u, ?_, hsu, hkeys v (hext.entered v (IndexMap.mem_keys_insert.mpr (Or.inl rfl)))⟩
      unfold strongconnect
      rw [ht]
      exact hu

theorem tarjanScc_total (order : HashOrder) (graph : Graph) :
    ∃ sccs, tarjanScc order graph = some sccs ∧ ∀ scc ∈ sccs, scc ≠ [] := by
  have hrun : ∃ s, (order.order graph.keys).foldlM (fun (s : Tarjan) v =>
      if ¬ s.indices.contains v then strongconnect graph (graph.keys.length + 1) v s else some s)
      Tarjan.start = some s ∧ s.Sound := by
    refine Run.foldlM_total (P := Tarjan.Sound) ⟨by simp [Tarjan.start], by simp [Tarjan.start]⟩ ?_
    intro v _ t ht
    by_cases hv : v ∈ t.indices.keys
    · exact ⟨t, by simp [hv], ht⟩
    · have hfuel : (unvisited graph t).length < graph.keys.length + 1 := by
        have := List.length_filter_le (fun w => decide (w ∉ t.indices.keys)) graph.keys
        unfold unvisited
        omega
      obtain ⟨u, hu, hext, _⟩ := strongconnect_extends graph _ v t ht hv hfuel
      exact ⟨u, by simp [hv, hu], hext.sound⟩
  obtain ⟨s, hs, hsound⟩ := hrun
  refine ⟨s.sccs, ?_, hsound.filled⟩
  unfold tarjanScc
  simp only [hs, Option.bind_eq_bind, Option.bind_some, Option.pure_def]

theorem fkCycles_total (order : HashOrder) (schema : Schema) :
    ∃ cycles, fkCycles order schema = some cycles := by
  obtain ⟨sccs, hsccs, hfilled⟩ := tarjanScc_total order (fkGraph schema)
  unfold fkCycles
  simp only [hsccs, Option.bind_eq_bind, Option.bind_some]
  have hstep : ∀ (step : List (List ModelName) → List ModelName → Option (List (List ModelName))),
      (∀ scc ∈ sccs, ∀ cycles, ∃ next, step cycles scc = some next) →
        ∃ cycles, sccs.foldlM step [] = some cycles := by
    intro step h
    obtain ⟨cycles, hc, _⟩ := Run.foldlM_total (P := fun _ => True) trivial fun scc hscc cycles _ =>
      (h scc hscc cycles).imp fun _ hn => ⟨hn, trivial⟩
    exact ⟨cycles, hc⟩
  refine hstep _ fun scc hscc cycles => ?_
  match scc, hfilled scc hscc with
  | [model], _ => exact ⟨_, rfl⟩
  | a :: b :: rest, _ => exact ⟨_, rfl⟩

theorem detectCycles_total (order : HashOrder) (schema : Schema) :
    ∃ info, detectCycles order schema = some info := by
  obtain ⟨cycles, hc⟩ := fkCycles_total order schema
  unfold detectCycles
  simp only [hc, Option.bind_eq_bind, Option.bind_some, Option.pure_def]
  exact ⟨_, rfl⟩

theorem cycleTableNames_total (order : HashOrder) (schema : Schema) :
    ∃ tables, cycleTableNames order schema = some tables := by
  obtain ⟨info, hi⟩ := detectCycles_total order schema
  unfold cycleTableNames
  simp only [hi, Option.bind_eq_bind, Option.bind_some, Option.pure_def]
  exact ⟨_, rfl⟩

end Ruprizzle.Cycle
