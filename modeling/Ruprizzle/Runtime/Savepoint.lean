import Mathlib.Data.List.Chain
import Ruprizzle.Runtime.Transaction

namespace Ruprizzle.Runtime

open Savepoints

-- The handles of a transaction against nested transactions.

variable {α : Type}

theorem savepointName_inj {m n : Nat} (h : savepointName m = savepointName n) : m = n := by
  have hrepr : Nat.repr m = Nat.repr n := (String.append_right_inj _).mp h
  have hdigits := congrArg String.toList hrepr
  rw [Nat.toList_repr, Nat.toList_repr] at hdigits
  rw [← Nat.ofDigitChars_ten_toDigits (n := m), hdigits, Nat.ofDigitChars_ten_toDigits]

namespace Tx

variable {tx : Tx α} {ks : List String} {frames : List (List α)}

-- Every savepoint has a name that the counter has given before.
def Named (tx : Tx α) : Prop :=
  ∀ name ∈ tx.inner.names, ∃ n < tx.savepointCounter, name = savepointName n

theorem Named.fresh (h : tx.Named) : savepointName tx.savepointCounter ∉ tx.inner.names := by
  intro hmem
  obtain ⟨n, hn, hname⟩ := h _ hmem
  have := savepointName_inj hname
  omega

theorem Named.of_names {tx' : Tx α} (h : tx.Named)
    (hcounter : tx'.savepointCounter = tx.savepointCounter)
    (hnames : ∀ name ∈ tx'.inner.names, name ∈ tx.inner.names) : tx'.Named := by
  intro name hmem
  obtain ⟨n, hn, hname⟩ := h name (hnames name hmem)
  exact ⟨n, hcounter ▸ hn, hname⟩

theorem execute_eq_none {command : Command α} (h : tx.flushPendingRollback = none) :
    tx.execute command = none := by
  simp [execute, h]

end Tx

-- A transaction keeps a mark for each handle that a rollback is still due for, as
-- well as for each that the caller holds.
structure Nest (c : Caller α) (frames : List (List α)) : Prop where
  stands : ∃ lost, lost.length = c.tx.pendingRollback.length ∧
    Stands c.tx.inner (c.tx.pendingRollback ++ c.handles) (lost ++ frames)
  named : c.tx.Named

namespace Nest

variable {c : Caller α} {frames : List (List α)}

theorem init : Nest (⟨.begin, []⟩ : Caller α) [[]] where
  stands := ⟨[], rfl, Stands.start⟩
  named := by
    intro name hmem
    cases hmem

theorem depth (h : Nest c frames) : frames.length = c.handles.length + 1 := by
  obtain ⟨lost, hlost, hstands⟩ := h.stands
  have hdepth := hstands.depth
  simp only [List.length_append] at hdepth
  omega

-- A handle is held for each transaction inside the outermost.
theorem held (h : Nest c frames) (hnil : frames ≠ []) (houter : ∀ f, frames ≠ [f]) :
    ∃ name handles, c.handles = name :: handles ∧ ∃ f g rest, frames = f :: g :: rest := by
  have hdepth := h.depth
  match frames, hnil, houter, hdepth with
  | [f], _, houter, _ => exact absurd rfl (houter f)
  | f :: g :: rest, _, _, hdepth =>
      obtain ⟨name, handles, hhandles⟩ := List.exists_cons_of_length_pos (l := c.handles) (by
        simp only [List.length_cons] at hdepth
        omega)
      exact ⟨name, handles, hhandles, f, g, rest, rfl⟩

-- One rollback that is due finds its savepoint.
theorem flush (h : Nest c frames) (hone : c.tx.pendingRollback.length ≤ 1) :
    ∃ tx, c.tx.flushPendingRollback = some tx ∧ tx.pendingRollback = [] ∧
      tx.savepointCounter = c.tx.savepointCounter ∧ (∀ name ∈ tx.inner.names, name ∈ c.tx.inner.names) ∧
      Stands tx.inner c.handles frames := by
  obtain ⟨⟨inner, counter, pending⟩, handles⟩ := c
  obtain ⟨lost, hlost, hstands⟩ := h.stands
  have hdepth := h.depth
  match pending, lost, frames, hone, hlost, hdepth with
  | [], [], _, _, _, _ => exact ⟨_, rfl, rfl, rfl, fun _ hmem => hmem, hstands⟩
  | [k], [f], g :: frames, _, _, _ =>
      obtain ⟨inner', hrollback, hstands', hnames⟩ := Stands.rollbackTo hstands
      refine ⟨⟨inner', counter, []⟩, ?_, rfl, rfl, hnames, hstands'⟩
      simp [Tx.flushPendingRollback, Tx.executeUnchecked, hrollback]

-- Of two that are due, the later one, that is the outer, takes the other's away.
theorem flush_fails (h : Nest c frames) (htwo : 1 < c.tx.pendingRollback.length) :
    c.tx.flushPendingRollback = none := by
  obtain ⟨⟨inner, counter, pending⟩, handles⟩ := c
  obtain ⟨lost, hlost, hstands⟩ := h.stands
  obtain ⟨before, k, rfl⟩ := List.eq_nil_or_concat pending |>.resolve_left (by
    rintro rfl
    simp at htwo)
  obtain ⟨before, j, rfl⟩ := List.eq_nil_or_concat before |>.resolve_left (by
    rintro rfl
    simp at htwo)
  have hstands' : Stands inner (before ++ j :: k :: handles) (lost ++ frames) := by
    simpa using hstands
  obtain ⟨inner', houter, hinner⟩ := hstands'.rollbackTo_outer
  simp [Tx.flushPendingRollback, Tx.executeUnchecked, houter, hinner]

-- The counter is taken before what is due is done.
theorem count (h : Nest c frames) :
    Nest { c with tx := { c.tx with savepointCounter := c.tx.savepointCounter + 1 } } frames where
  stands := h.stands
  named := by
    intro name hmem
    obtain ⟨n, hn, hname⟩ := h.named name hmem
    exact ⟨n, Nat.lt_succ_of_lt hn, hname⟩

theorem of_flushed {tx : Tx α} {handles : List String} (hpending : tx.pendingRollback = [])
    (hnamed : tx.Named) (hstands : Stands tx.inner handles frames) : Nest ⟨tx, handles⟩ frames where
  stands := ⟨[], by simp [hpending], by simpa [hpending] using hstands⟩
  named := hnamed

-- An operation that is not a drop does what is due and then what it is for.
theorem step (h : Nest c frames) (hone : c.tx.pendingRollback.length ≤ 1) {op : NestOp α}
    (hop : op ≠ .drop) {frames' : List (List α)} (hnest : nestStep frames op = some frames') :
    ∃ c', c.step op = some c' ∧ Nest c' frames' ∧ c'.tx.pendingRollback = [] := by
  cases op with
  | savepoint =>
      obtain ⟨tx, hflush, hpending, hcounter, hnames, hstands⟩ := h.count.flush hone
      cases hnest
      have hname : savepointName c.tx.savepointCounter ∉ tx.inner.names :=
        fun hmem => h.named.fresh (hnames _ hmem)
      refine ⟨⟨{ tx with inner := tx.inner.mark (savepointName c.tx.savepointCounter) },
        savepointName c.tx.savepointCounter :: c.handles⟩, ?_, ?_, hpending⟩
      · simp [Caller.step, Tx.savepoint, Tx.execute, hflush, Tx.executeUnchecked]
      · refine of_flushed hpending (fun name hmem => ?_) (hstands.mark hname)
        rcases List.mem_cons.mp hmem with rfl | hmem
        · exact ⟨c.tx.savepointCounter, hcounter ▸ Nat.lt_succ_self _, rfl⟩
        · exact h.count.named.of_names hcounter hnames name hmem
  | statement a =>
      obtain ⟨tx, hflush, hpending, hcounter, hnames, hstands⟩ := h.flush hone
      cases frames with
      | nil => cases hnest
      | cons f frames =>
          cases hnest
          refine ⟨⟨{ tx with inner := tx.inner.add a }, c.handles⟩, ?_, ?_, hpending⟩
          · simp [Caller.step, Tx.execute, hflush, Tx.executeUnchecked]
          · exact of_flushed hpending (h.named.of_names hcounter hnames) (hstands.add a)
  | release =>
      obtain ⟨tx, hflush, hpending, hcounter, hnames, hstands⟩ := h.flush hone
      obtain ⟨name, handles, hhandles, f, g, frames, rfl⟩ := h.held (by rintro rfl; cases hnest)
        (by rintro f rfl; cases hnest)
      cases hnest
      rw [hhandles] at hstands
      obtain ⟨inner, hrelease, hstands', hless⟩ := hstands.release
      refine ⟨⟨{ tx with inner }, handles⟩, ?_, ?_, hpending⟩
      · simp [Caller.step, hhandles, Savepoint.release, Tx.execute, hflush, Tx.executeUnchecked, hrelease]
      · exact of_flushed hpending
          (h.named.of_names hcounter fun name hmem => hnames name (hless name hmem)) hstands'
  | rollback =>
      obtain ⟨tx, hflush, hpending, hcounter, hnames, hstands⟩ := h.flush hone
      obtain ⟨name, handles, hhandles, f, g, frames, rfl⟩ := h.held (by rintro rfl; cases hnest)
        (by rintro f rfl; cases hnest)
      cases hnest
      rw [hhandles] at hstands
      obtain ⟨inner, hrollback, hstands', hless⟩ := hstands.rollbackTo
      refine ⟨⟨{ tx with inner }, handles⟩, ?_, ?_, hpending⟩
      · simp [Caller.step, hhandles, Savepoint.rollback, Tx.execute, hflush, Tx.executeUnchecked, hrollback]
      · exact of_flushed hpending
          (h.named.of_names hcounter fun name hmem => hnames name (hless name hmem)) hstands'
  | drop => exact absurd rfl hop

-- A drop only says that a rollback is due.
theorem drop (h : Nest c frames) (hheld : c.handles ≠ []) :
    ∃ c' frames', c.step .drop = some c' ∧ nestStep frames .drop = some frames' ∧
      Nest c' frames' ∧ c'.tx.pendingRollback.length = c.tx.pendingRollback.length + 1 := by
  have hdepth := h.depth
  obtain ⟨lost, hlost, hstands⟩ := h.stands
  obtain ⟨name, handles, hhandles⟩ := List.exists_cons_of_ne_nil hheld
  rw [hhandles] at hdepth hstands
  match frames, hdepth with
  | f :: g :: frames, _ =>
      refine ⟨⟨Savepoint.drop c.tx name, handles⟩, g :: frames, by simp [Caller.step, hhandles], rfl,
        ⟨⟨lost ++ [f], by simp [Savepoint.drop, hlost], by simpa [Savepoint.drop] using hstands⟩,
          h.named⟩, by simp [Savepoint.drop]⟩

-- When two are due, no operation can come after.
theorem fails (h : Nest c frames) (htwo : 1 < c.tx.pendingRollback.length) (ops : List (NestOp α)) :
    ((ops.foldlM Caller.step c).bind fun c => c.tx.commit) = none := by
  induction ops generalizing c frames with
  | nil => simp [Tx.commit, h.flush_fails htwo]
  | cons op rest ih =>
      have hnone : op ≠ .drop → c.step op = none := by
        intro hop
        cases op with
        | savepoint =>
            simp [Caller.step, Tx.savepoint, Tx.execute_eq_none (h.count.flush_fails htwo)]
        | statement a => simp [Caller.step, Tx.execute_eq_none (h.flush_fails htwo)]
        | release =>
            cases hhandles : c.handles <;>
              simp [Caller.step, hhandles, Savepoint.release, Tx.execute_eq_none (h.flush_fails htwo)]
        | rollback =>
            cases hhandles : c.handles <;>
              simp [Caller.step, hhandles, Savepoint.rollback, Tx.execute_eq_none (h.flush_fails htwo)]
        | drop => exact absurd rfl hop
      by_cases hop : op = .drop
      · subst hop
        by_cases hheld : c.handles = []
        · simp [Caller.step, hheld]
        · obtain ⟨c', frames', hstep, -, hnest, hlength⟩ := h.drop hheld
          simpa [hstep] using ih hnest (by omega)
      · simp [hnone hop]

end Nest

-- A run from here, with at most one rollback due: it comes to what the nested
-- transactions come to just when no drop follows what is due, or another drop.
theorem Nest.run_iff {c : Caller α} {frames : List (List α)} (h : Nest c frames)
    (hone : c.tx.pendingRollback.length ≤ 1) {ops : List (NestOp α)} {survivors : List α}
    (hnested : ops.foldlM nestStep frames = some [survivors]) :
    ((ops.foldlM Caller.step c).bind fun c => c.tx.commit) = some survivors ↔
      (c.tx.pendingRollback ≠ [] → ∀ op ∈ ops.head?, op ≠ .drop) ∧
        ops.IsChain fun op next => op = .drop → next ≠ .drop := by
  induction ops generalizing c frames with
  | nil =>
      obtain ⟨tx, hflush, -, -, -, hstands⟩ := h.flush hone
      cases hnested
      have hdone : tx.inner.done = survivors := by simpa [total] using hstands.done
      simp [Tx.commit, hflush, hdone]
  | cons op rest ih =>
      obtain ⟨frames', hop, hrest⟩ := Option.bind_eq_some_iff.mp hnested
      rw [List.isChain_cons]
      by_cases hdrop : op = .drop
      · subst hdrop
        have hheld : c.handles ≠ [] := by
          obtain ⟨name, handles, hhandles, -⟩ := h.held (by rintro rfl; cases hop)
            (by rintro f rfl; cases hop)
          simp [hhandles]
        obtain ⟨c', _, hstep, hop', hnest, hlength⟩ := h.drop hheld
        obtain rfl := Option.some.inj (hop.symm.trans hop')
        by_cases hdue : c.tx.pendingRollback = []
        · have hone' : c'.tx.pendingRollback.length ≤ 1 := by simp [hlength, hdue]
          have hdue' : c'.tx.pendingRollback ≠ [] := by
            intro hnil
            simp [hnil] at hlength
          have := ih hnest hone' hrest
          simp only [Run.foldlM_cons, hstep, Option.bind_some, this]
          simp [hdue, hdue']
        · have hfails := hnest.fails (by
            have := List.length_pos_iff.mpr hdue
            omega) rest
          simp [hstep, hfails, hdue]
      · obtain ⟨c', hstep, hnest, hnil⟩ := h.step hone hdrop hop
        have := ih hnest (by simp [hnil]) hrest
        simp only [Run.foldlM_cons, hstep, Option.bind_some, this]
        simp [hnil, hdrop]

-- Savepoints are nested transactions just when no two handles are dropped with
-- nothing done between: then the outer one is rolled back first, and the savepoint
-- of the inner one is gone when its turn comes.
theorem savepoints_nest_iff {ops : List (NestOp α)} {survivors : List α}
    (h : nested ops = some survivors) :
    Caller.run ops = some survivors ↔
      ops.IsChain fun op next => op = .drop → next ≠ .drop := by
  have hnested : ops.foldlM nestStep [[]] = some [survivors] := by
    unfold nested at h
    split at h
    · rename_i hrun
      cases h
      exact hrun
    · cases h
  have hrun := Nest.init.run_iff (Nat.zero_le _) hnested
  exact hrun.trans (and_iff_right fun hdue => absurd rfl hdue)

theorem savepoints_nest_dropped :
    Caller.run [.statement 1, .savepoint, .statement 2, .drop, .savepoint, .statement 3, .savepoint,
      .statement 4, .rollback, .release] = some [1, 3] :=
  (savepoints_nest_iff (by decide)).mpr (by decide)

-- A handle is dropped, and the one around it with it.
theorem dropped_together :
    nested [.statement 1, .savepoint, .statement 2, .savepoint, .statement 3, .drop, .drop] =
        some [1] ∧
      Caller.run [.statement 1, .savepoint, .statement 2, .savepoint, .statement 3, .drop, .drop] =
        none := by
  decide

end Ruprizzle.Runtime
