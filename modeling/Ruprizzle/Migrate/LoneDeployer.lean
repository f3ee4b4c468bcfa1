import Ruprizzle.Migrate.Concurrency

namespace Ruprizzle

open Interleave

-- A deployer that is alone applies what is pending, in the order of the
-- directory.

namespace Deployment

variable (c : Deployment) (start : List String) (old : List Body)

def pending : List Migration := pendingOf start c.onDisk

-- What has been done, of the ids that were applied and the bodies committed
-- before.
structure Progress (done : List Migration) (s : Store Unit) : Prop where
  bodies : s.bodies = old ++ done.map fun m => ⟨m.id, c.body m⟩
  applied : ∀ id, id ∈ s.appliedIds ↔ id ∈ start ∨ id ∈ done.map Migration.id

def Turning (t : Turn) (s : Store Unit) : Prop :=
  ∃ done, c.pending start = done ++ t.m :: t.rest ∧ t.applied = done.map Migration.id ∧
    c.Progress start old done s

def Alone (s : Store Unit) : Stage → Prop
  | .createTable | .probeTable | .readChecksums | .readApplied => c.Progress start old [] s
  | .begin t | .lock t | .recheck t | .execute t _ _ _ _ | .track t _ | .commit t _ =>
      c.Turning start old t s
  | .skip _ => False
  | .finished (.ok ids) => ids = (c.pending start).map Migration.id ∧
      c.Progress start old (c.pending start) s
  | _ => True

variable {c start old} {s s' : Store Unit} {stage stage' : Stage} {t : Turn}

theorem pending_nodup : ((c.pending start).map Migration.id).Nodup :=
  c.onDisk_nodup.sublist (List.filter_sublist.map _)

-- The migration of the turn has not been applied yet.
theorem Turning.fresh (h : c.Turning start old t s) : t.m.id ∉ s.appliedIds := by
  obtain ⟨done, hpending, _, hprogress⟩ := h
  rw [hprogress.applied]
  intro hid
  rcases hid with hid | hid
  · have hm : t.m ∈ c.pending start := by
      rw [hpending]
      exact List.mem_append_right _ List.mem_cons_self
    have hout := (List.mem_filter.mp hm).2
    exact of_decide_eq_true hout hid
  · have hnodup : ((c.pending start).map Migration.id).Nodup := pending_nodup
    rw [hpending, List.map_append, List.map_cons] at hnodup
    exact (List.nodup_append.mp hnodup).2.2 _ hid _ List.mem_cons_self rfl

theorem alone_loopHead {b : Bool} {done rest : List Migration}
    (hpending : c.pending start = done ++ rest) (hprogress : c.Progress start old done s) :
    c.Alone start old s (loopHead b rest (done.map Migration.id)) := by
  cases rest with
  | nil =>
      rw [List.append_nil] at hpending
      rw [← hpending] at hprogress ⊢
      exact ⟨rfl, hprogress⟩
  | cons m rest =>
      simp only [loopHead]
      split
      · trivial
      · split
        · trivial
        · exact ⟨done, hpending, rfl, hprogress⟩

theorem alone_afterSent {todo : List (Nat × String)} {sent : List String}
    (h : c.Turning start old t s) : c.Alone start old s (afterSent t todo sent) := by
  cases todo with
  | nil => exact h
  | cons head todo => exact h

theorem alone_afterVerify {rows : Tracking} (h : c.Progress start old [] s) :
    c.Alone start old s (c.afterVerify rows) := by
  unfold afterVerify
  split
  · exact h
  · trivial

theorem appliedIds_of_table {rows : Tracking} (h : s.table = some rows) :
    s.appliedIds = rows.appliedIds := by
  unfold Store.appliedIds
  rw [h]
  rfl

theorem alone_afterApplied {b : Bool} {rows : Tracking} (hrows : s.table = some rows)
    (h : c.Progress start old [] s) : c.Alone start old s (c.afterApplied b rows) := by
  unfold afterApplied
  split
  · rename_i ms hms
    have hpending : pendingOf rows.appliedIds ms = c.pending start := by
      have hdisk : c.onDisk = ms := by
        unfold onDisk
        rw [hms]
      unfold pending pendingOf
      rw [hdisk]
      refine List.filter_congr fun m _ => ?_
      rw [← appliedIds_of_table hrows]
      simp [h.applied]
    rw [hpending]
    exact alone_loopHead (List.nil_append _).symm h
  · trivial

theorem alone_afterRecheck {rows : Tracking} (hrows : s.table = some rows)
    (h : c.Turning start old t s) : c.Alone start old s (c.afterRecheck t rows) := by
  have hfresh := h.fresh
  rw [appliedIds_of_table hrows] at hfresh
  unfold afterRecheck
  rw [if_neg hfresh]
  exact alone_afterSent h

theorem Turning.commit (h : c.Turning start old t s) (htable : s.table.isSome) :
    ∃ done, c.pending start = done ++ t.rest ∧ t.applied ++ [t.m.id] = done.map Migration.id ∧
      c.Progress start old done (s.commit () t.m (c.body t.m)) := by
  obtain ⟨done, hpending, happlied, hprogress⟩ := h
  refine ⟨done ++ [t.m], by rw [hpending]; simp, by rw [happlied]; simp, ?_, fun id => ?_⟩
  · rw [Store.bodies_commit, hprogress.bodies]
    simp
  · rw [Store.mem_appliedIds_commit htable, hprogress.applied]
    simp only [List.map_append, List.mem_append, List.map_singleton, List.mem_singleton]
    tauto

theorem step_alone {accept : Unit → Bool} {answer : Answer} (hat : c.At () s stage)
    (h : c.Alone start old s stage)
    (hstep : c.step accept () answer s stage = some (s', stage')) : c.Alone start old s' stage' := by
  cases stage with
  | createTable =>
      have hkept : c.Progress start old [] s.createTable := ⟨h.bodies, h.applied⟩
      cases answer <;> cases hstep
      · exact hkept
      · exact h
      · exact hkept
  | probeTable =>
      simp only [step] at hstep
      split at hstep <;> cases hstep
      · exact h
      · trivial
  | readChecksums =>
      simp only [step] at hstep
      split at hstep <;> cases hstep
      · exact alone_afterVerify h
      · trivial
  | readApplied =>
      simp only [step] at hstep
      split at hstep <;> cases hstep
      · rename_i hrows
        exact alone_afterApplied hrows h
      · trivial
  | begin t =>
      simp only [step] at hstep
      split at hstep <;> cases hstep
      · split
        · exact h
        · exact h
      · trivial
  | lock t =>
      have hlocked : c.Turning start old t { s with lock := some () } := by
        obtain ⟨done, hpending, happlied, hprogress⟩ := h
        exact ⟨done, hpending, happlied, hprogress.bodies, hprogress.applied⟩
      cases answer
      · simp only [step] at hstep
        split at hstep <;> cases hstep
        exact hlocked
      · cases hstep
        trivial
      · simp only [step] at hstep
        split at hstep <;> cases hstep
        trivial
  | recheck t =>
      simp only [step] at hstep
      split at hstep <;> cases hstep
      · rename_i hrows
        exact alone_afterRecheck hrows h
      · trivial
  | skip t => exact absurd h id
  | execute t line sql todo sent =>
      simp only [step] at hstep
      split at hstep <;> cases hstep
      · exact alone_afterSent h
      · trivial
  | track t sent =>
      simp only [step] at hstep
      split at hstep <;> cases hstep
      · exact h
      · trivial
  | commit t sent =>
      obtain ⟨_, hbody, htable⟩ := hat
      obtain ⟨done, hpending, happlied, hprogress⟩ := h.commit htable
      rw [← hbody] at hprogress
      cases answer <;> cases hstep
      · rw [happlied]
        exact alone_loopHead hpending hprogress
      · trivial
      · trivial
  | abandoned e =>
      cases hstep
      trivial
  | finished result => cases hstep

-- A run of apply_all that succeeds has committed the bodies of the pending
-- migrations and of no others.
theorem applied_alone {accept : Unit → Bool} {table : Option Tracking}
    {v : World Unit (Store Unit) Stage} {applied : List String}
    (h : Reach (c.step accept) ⟨⟨table, old, none⟩, fun _ => .createTable⟩ v)
    (hdone : v.party () = .finished (.ok applied)) :
    applied = (c.pending (table.getD []).appliedIds).map Migration.id ∧
      v.shared.bodies = old ++
        (c.pending (table.getD []).appliedIds).map fun m => ⟨m.id, c.body m⟩ := by
  have hinv := (h.local_invariant (G := fun _ => True)
    (J := fun d s stage => c.At d s stage ∧ c.Alone (table.getD []).appliedIds old s stage)
    trivial ?_ ?_ ?_).2 ()
  · rw [hdone] at hinv
    exact ⟨hinv.2.1, hinv.2.2.bodies⟩
  · refine fun _ => ⟨trivial, ⟨?_, fun id => ?_⟩⟩
    · exact (List.append_nil old).symm
    · simp only [List.map_nil, List.not_mem_nil, or_false]
      rfl
  · intro _ a s l s' l' _ hj hstep
    exact ⟨trivial, step_at hj.1 hstep, step_alone hj.1 hj.2 hstep⟩
  · intro p _ _ _ _ _ q _ hne
    exact absurd (Subsingleton.elim p q) hne

end Deployment

end Ruprizzle
