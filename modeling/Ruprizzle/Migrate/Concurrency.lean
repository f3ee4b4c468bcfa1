import Mathlib.Data.List.Nodup
import Mathlib.Data.List.Sublists
import Ruprizzle.Migrate.Deployer

namespace Ruprizzle

open Interleave

namespace Migrator

variable {sha256 : String → String}

theorem loadOne_id {dir : Subdir} {m : Migration} (h : loadOne sha256 dir = .ok m) :
    m.id = dir.name := by
  unfold loadOne at h
  cases hup : dir.up <;> cases hmeta : dir.metaJson <;> rw [hup, hmeta] at h <;> cases h <;> rfl

theorem mapM_loadOne_ids {dirs : List Subdir} {ms : List Migration}
    (h : dirs.mapM (loadOne sha256) = .ok ms) : ms.map Migration.id = dirs.map Subdir.name := by
  induction dirs generalizing ms with
  | nil =>
      cases h
      rfl
  | cons dir rest ih =>
      rw [List.mapM_cons] at h
      cases hone : loadOne sha256 dir with
      | error e =>
          rw [hone] at h
          cases h
      | ok m =>
          rw [hone] at h
          cases hrest : rest.mapM (loadOne sha256) with
          | error e =>
              rw [hrest] at h
              cases h
          | ok ms' =>
              rw [hrest] at h
              cases h
              rw [List.map_cons, List.map_cons, loadOne_id hone, ih hrest]

-- No two migrations have one id, as no two directories have one name.
theorem migrations_nodup {folder : Option Folder} {ms : List Migration}
    (h : migrations sha256 folder = .ok ms) : (ms.map Migration.id).Nodup := by
  cases folder with
  | none => cases h
  | some folder =>
      rw [mapM_loadOne_ids h]
      have hperm := insertionSortBy_perm (fun a b => compare a.name b.name)
        (folder.subdirs.filter hasUp)
      refine (hperm.map Subdir.name).nodup_iff.mpr ?_
      exact folder.distinct.sublist (List.filter_sublist.map _)

end Migrator

namespace Store

variable {D : Type} [DecidableEq D] {s : Store D} {d : D}

@[simp] theorem appliedIds_unlock : (s.unlock d).appliedIds = s.appliedIds := rfl

@[simp] theorem table_unlock : (s.unlock d).table = s.table := rfl

@[simp] theorem bodies_commit {m : Migration} {sent : List String} :
    (s.commit d m sent).bodies = s.bodies ++ [⟨m.id, sent⟩] := rfl

theorem table_commit_isSome {m : Migration} {sent : List String} :
    (s.commit d m sent).table.isSome = s.table.isSome := by
  unfold commit
  rw [table_unlock, Option.isSome_map]

theorem mem_appliedIds_commit {m : Migration} {sent : List String} {id : String}
    (h : s.table.isSome) :
    id ∈ (s.commit d m sent).appliedIds ↔ id = m.id ∨ id ∈ s.appliedIds := by
  obtain ⟨rows, hrows⟩ := Option.isSome_iff_exists.mp h
  have hafter : (s.commit d m sent).appliedIds = (rows.upsert m.id m.info.checksum).appliedIds := by
    unfold commit
    rw [appliedIds_unlock]
    unfold appliedIds
    rw [hrows]
    rfl
  have hbefore : s.appliedIds = rows.appliedIds := by
    unfold appliedIds
    rw [hrows]
    rfl
  rw [hafter, hbefore]
  exact Tracking.mem_appliedIds_upsert

-- Only the holder gives the lock back.
theorem lock_unlock_of_ne {q : D} (hq : s.lock = some q) (hne : d ≠ q) :
    (s.unlock d).lock = some q := by
  unfold unlock
  dsimp only
  rw [hq, if_neg]
  intro heq
  exact hne (Option.some.inj heq).symm

end Store

namespace Deployment

variable (c : Deployment)

-- The migrations on disk. There are none where they cannot be read.
def onDisk : List Migration :=
  match Migrator.migrations c.sha256 c.folder with
  | .ok ms => ms
  | .error _ => []

def body (m : Migration) : List String := (Migrator.sentStatements c.u m.up).map Prod.snd

-- The new bodies are whole bodies of migrations, and when one was committed all
-- earlier migrations were applied.
def InOrder (old new : List Body) : Prop :=
  ∀ pre b post, new = pre ++ b :: post → ∃ earlier m later, c.onDisk = earlier ++ m :: later ∧
    b = ⟨m.id, c.body m⟩ ∧ ∀ x ∈ earlier, x.id ∈ (old ++ pre).map Body.id

variable {D : Type}

structure ExactlyOnce (old : List Body) (w : World D (Store D) Stage) : Prop where
  once : (w.shared.bodies.map Body.id).Nodup
  tracked : ∀ id, id ∈ w.shared.appliedIds ↔ id ∈ w.shared.bodies.map Body.id
  ordered : ∃ new, w.shared.bodies = old ++ new ∧ c.InOrder old new
  success : ∀ d ids, w.party d = .finished (.ok ids) → ∀ m ∈ c.onDisk, m.id ∈ w.shared.appliedIds

-- No deployer has begun, and what is tracked is what was committed before.
structure Fresh (w : World D (Store D) Stage) : Prop where
  begun : ∀ d, w.party d = .createTable
  free : w.shared.lock = none
  once : (w.shared.bodies.map Body.id).Nodup
  tracked : ∀ id, id ∈ w.shared.appliedIds ↔ id ∈ w.shared.bodies.map Body.id

-- What is left to be done of the migrations on disk. All others are applied.
structure Todo (rest : List Migration) (s : Store D) : Prop where
  sublist : rest.Sublist c.onDisk
  others : ∀ x ∈ c.onDisk, x ∉ rest → x.id ∈ s.appliedIds

-- A deployer past its recheck holds the lock, where there is one, and its
-- migration is not applied.
structure Sending (d : D) (t : Turn) (s : Store D) : Prop where
  todo : c.Todo (t.m :: t.rest) s
  holds : c.isPostgres = true → s.lock = some d
  fresh : t.m.id ∉ s.appliedIds

-- What holds at a deployer's next statement, whatever the others do meanwhile.
def At (d : D) (s : Store D) : Stage → Prop
  | .begin t | .lock t => c.Todo (t.m :: t.rest) s
  | .recheck t => c.Todo (t.m :: t.rest) s ∧ (c.isPostgres = true → s.lock = some d)
  | .skip t => c.Todo (t.m :: t.rest) s ∧ t.m.id ∈ s.appliedIds
  | .execute t _ sql todo sent => c.Sending d t s ∧ sent ++ sql :: todo.map Prod.snd = c.body t.m
  | .track t sent => c.Sending d t s ∧ sent = c.body t.m
  | .commit t sent => c.Sending d t s ∧ sent = c.body t.m ∧ s.table.isSome
  | .finished (.ok _) => ∀ m ∈ c.onDisk, m.id ∈ s.appliedIds
  | _ => True

structure Journal (old : List Body) (s : Store D) : Prop where
  once : (s.bodies.map Body.id).Nodup
  tracked : ∀ id, id ∈ s.appliedIds ↔ id ∈ s.bodies.map Body.id
  ordered : ∃ new, s.bodies = old ++ new ∧ c.InOrder old new

variable {c} {d : D} {s s' : Store D} {stage stage' : Stage}

theorem onDisk_nodup : (c.onDisk.map Migration.id).Nodup := by
  unfold onDisk
  split
  · rename_i ms hms
    exact Migrator.migrations_nodup hms
  · exact List.nodup_nil

-- What a step leaves to the others: nothing applied is undone, and while one of
-- them holds the lock it keeps it and nothing is applied.
structure Frame (c : Deployment) (d : D) (s s' : Store D) : Prop where
  applied : ∀ id ∈ s.appliedIds, id ∈ s'.appliedIds
  table : s.table.isSome → s'.table.isSome
  held : c.isPostgres = true → ∀ q, q ≠ d → s.lock = some q →
    s'.lock = some q ∧ s'.appliedIds = s.appliedIds

theorem Todo.frame {rest : List Migration} (h : c.Todo rest s) (hf : Frame c d s s') :
    c.Todo rest s' :=
  ⟨h.sublist, fun x hx hnot => hf.applied _ (h.others x hx hnot)⟩

-- The turn is over once its migration is applied.
theorem Todo.next {t : Turn} (h : c.Todo (t.m :: t.rest) s) (hdone : t.m.id ∈ s.appliedIds) :
    c.Todo t.rest s := by
  refine ⟨(List.sublist_cons_self ..).trans h.sublist, fun x hx hnot => ?_⟩
  by_cases heq : x = t.m
  · rw [heq]
    exact hdone
  · refine h.others x hx ?_
    rw [List.mem_cons, not_or]
    exact ⟨heq, hnot⟩

-- Those before the migration of the turn are not left to be done.
theorem Todo.earlier {m : Migration} {rest : List Migration} (h : c.Todo (m :: rest) s) :
    ∃ earlier later, c.onDisk = earlier ++ m :: later ∧ ∀ x ∈ earlier, x.id ∈ s.appliedIds := by
  obtain ⟨r₁, r₂, hdisk, hm, hrest⟩ := List.cons_sublist_iff.mp h.sublist
  obtain ⟨a, b, rfl⟩ := List.append_of_mem hm
  have hnodup := List.Nodup.of_map _ (c.onDisk_nodup)
  rw [hdisk] at hnodup
  refine ⟨a, b ++ r₂, by rw [hdisk]; simp, fun x hx => ?_⟩
  refine h.others x (by rw [hdisk]; simp [hx]) ?_
  have hdisjoint := List.nodup_append.mp hnodup
  rw [List.mem_cons, not_or]
  constructor
  · intro heq
    have hinner := List.nodup_append.mp hdisjoint.1
    exact hinner.2.2 x hx m (List.mem_cons_self ..) heq
  · intro hin
    exact hdisjoint.2.2 x (List.mem_append_left _ hx) x (hrest.subset hin) rfl

-- Where a deployer stands is not touched by the steps of the others.
theorem At.frame {q : D} (hpg : c.isPostgres = true) (hne : q ≠ d) (h : c.At q s stage) (hf : Frame c d s s') :
    c.At q s' stage := by
  have hsending : ∀ {t : Turn}, c.Sending q t s → c.Sending q t s' := by
    intro t hs
    obtain ⟨hlock, happlied⟩ := hf.held hpg q hne (hs.holds hpg)
    exact ⟨hs.todo.frame hf, fun _ => hlock, happlied ▸ hs.fresh⟩
  cases stage with
  | begin t | lock t => exact Todo.frame h hf
  | recheck t => exact ⟨h.1.frame hf, fun _ => (hf.held hpg q hne (h.2 hpg)).1⟩
  | skip t => exact ⟨h.1.frame hf, hf.applied _ h.2⟩
  | execute t line sql todo sent => exact ⟨hsending h.1, h.2⟩
  | track t sent => exact ⟨hsending h.1, h.2⟩
  | commit t sent => exact ⟨hsending h.1, h.2.1, hf.table h.2.2⟩
  | finished r =>
      cases r with
      | ok ids => exact fun m hm => hf.applied _ (h m hm)
      | error e => trivial
  | createTable | probeTable | readChecksums | readApplied | abandoned => trivial

theorem at_loopHead {b : Bool} {rest : List Migration} {applied : List String}
    (h : c.Todo rest s) : c.At d s (loopHead b rest applied) := by
  cases rest with
  | nil => exact fun m hm => h.others m hm List.not_mem_nil
  | cons m rest =>
      simp only [loopHead]
      split
      · trivial
      · split
        · trivial
        · exact h

theorem at_afterSent {t : Turn} {todo : List (Nat × String)} {sent : List String}
    (h : c.Sending d t s) (hbody : sent ++ todo.map Prod.snd = c.body t.m) :
    c.At d s (afterSent t todo sent) := by
  cases todo with
  | nil =>
      rw [List.map_nil, List.append_nil] at hbody
      exact ⟨h, hbody⟩
  | cons head todo => exact ⟨h, hbody⟩

theorem at_afterVerify {rows : Tracking} : c.At d s (c.afterVerify rows) := by
  unfold afterVerify
  split <;> trivial

theorem at_afterApplied {b : Bool} {rows : Tracking} (hrows : s.table = some rows) :
    c.At d s (c.afterApplied b rows) := by
  have hids : s.appliedIds = rows.appliedIds := by
    unfold Store.appliedIds
    rw [hrows]
    rfl
  unfold afterApplied
  split
  · rename_i ms hms
    have hdisk : c.onDisk = ms := by
      unfold onDisk
      rw [hms]
    refine at_loopHead ⟨?_, fun x hx hnot => ?_⟩
    · rw [hdisk]
      exact List.filter_sublist
    · rw [hdisk] at hx
      rw [hids]
      by_contra hout
      exact hnot (List.mem_filter.mpr ⟨hx, decide_eq_true hout⟩)
  · trivial

theorem at_afterRecheck {t : Turn} {rows : Tracking} (hrows : s.table = some rows)
    (h : c.Todo (t.m :: t.rest) s) (hlock : c.isPostgres = true → s.lock = some d) :
    c.At d s (c.afterRecheck t rows) := by
  have hids : s.appliedIds = rows.appliedIds := by
    unfold Store.appliedIds
    rw [hrows]
    rfl
  unfold afterRecheck
  split
  · rename_i hin
    exact ⟨h, hids ▸ hin⟩
  · rename_i hout
    exact at_afterSent ⟨h, hlock, hids ▸ hout⟩ rfl

section

variable [DecidableEq D] {accept : D → Bool}

-- All a step can do to what the deployers share.
theorem step_effect {answer : Answer} (h : c.step accept d answer s stage = some (s', stage')) :
    s' = s ∨ s' = s.createTable ∨ s' = s.unlock d ∨
      (s.lock = none ∧ s' = { s with lock := some d }) ∨
      (∃ t sent, stage = .commit t sent ∧ s' = s.commit d t.m sent) := by
  cases stage with
  | createTable =>
      cases answer <;> cases h
      · exact Or.inr (Or.inl rfl)
      · exact Or.inl rfl
      · exact Or.inr (Or.inl rfl)
  | probeTable | begin | track | execute =>
      simp only [step] at h
      split at h <;> cases h <;> exact Or.inl rfl
  | readChecksums | readApplied | recheck =>
      simp only [step] at h
      split at h <;> cases h <;> exact Or.inl rfl
  | lock t =>
      cases answer
      · simp only [step] at h
        split at h
        · rename_i hfree
          cases h
          exact Or.inr (Or.inr (Or.inr (Or.inl ⟨hfree, rfl⟩)))
        · cases h
      · cases h
        exact Or.inl rfl
      · simp only [step] at h
        split at h
        · rename_i hfree
          cases h
          exact Or.inr (Or.inr (Or.inr (Or.inl ⟨hfree, rfl⟩)))
        · cases h
  | skip t =>
      cases answer <;> cases h
      · exact Or.inr (Or.inr (Or.inl rfl))
      · exact Or.inl rfl
      · exact Or.inr (Or.inr (Or.inl rfl))
  | commit t sent =>
      have hcommit : ∃ t' sent', Stage.commit t sent = .commit t' sent' ∧
          s.commit d t.m sent = s.commit d t'.m sent' := ⟨t, sent, rfl, rfl⟩
      cases answer <;> cases h
      · exact Or.inr (Or.inr (Or.inr (Or.inr hcommit)))
      · exact Or.inl rfl
      · exact Or.inr (Or.inr (Or.inr (Or.inr hcommit)))
  | abandoned e =>
      cases h
      exact Or.inr (Or.inr (Or.inl rfl))
  | finished r => cases h

theorem step_frame {answer : Answer} (hat : c.At d s stage)
    (h : c.step accept d answer s stage = some (s', stage')) : Frame c d s s' := by
  rcases step_effect h with rfl | rfl | rfl | ⟨hfree, rfl⟩ | ⟨t, sent, rfl, rfl⟩
  · exact ⟨fun _ hid => hid, id, fun _ _ _ hq => ⟨hq, rfl⟩⟩
  · exact ⟨fun _ hid => hid, fun _ => rfl, fun _ _ _ hq => ⟨hq, rfl⟩⟩
  · exact ⟨fun _ hid => hid, id,
      fun _ q hne hq => ⟨Store.lock_unlock_of_ne hq (Ne.symm hne), rfl⟩⟩
  · refine ⟨fun _ hid => hid, id, fun _ q _ hq => ?_⟩
    rw [hfree] at hq
    cases hq
  · obtain ⟨hsending, _, htable⟩ := hat
    refine ⟨fun _ hid => (Store.mem_appliedIds_commit htable).mpr (Or.inr hid), fun _ => ?_, ?_⟩
    · rw [Store.table_commit_isSome]
      exact htable
    · intro hpg q hne hq
      rw [hsending.holds hpg] at hq
      exact absurd (Option.some.inj hq).symm hne

-- A step leads its own deployer to where it may stand.
theorem step_at {answer : Answer} (hat : c.At d s stage)
    (h : c.step accept d answer s stage = some (s', stage')) : c.At d s' stage' := by
  have hf := step_frame hat h
  cases stage with
  | createTable => cases answer <;> cases h <;> trivial
  | probeTable =>
      simp only [step] at h
      split at h <;> cases h <;> trivial
  | readChecksums =>
      simp only [step] at h
      split at h <;> cases h
      · exact at_afterVerify
      · trivial
  | readApplied =>
      simp only [step] at h
      split at h <;> cases h
      · rename_i hrows
        exact at_afterApplied hrows
      · trivial
  | begin t =>
      simp only [step] at h
      split at h <;> cases h
      · by_cases hpg : c.isPostgres = true
        · rw [if_pos hpg]
          exact hat
        · rw [if_neg hpg]
          exact ⟨hat, fun h => absurd h hpg⟩
      · trivial
  | lock t =>
      cases answer
      · simp only [step] at h
        split at h <;> cases h
        exact ⟨Todo.frame hat hf, fun _ => rfl⟩
      · cases h
        trivial
      · simp only [step] at h
        split at h <;> cases h
        trivial
  | recheck t =>
      simp only [step] at h
      split at h <;> cases h
      · rename_i hrows
        exact at_afterRecheck hrows hat.1 hat.2
      · trivial
  | skip t =>
      have hnext := (hat.1.frame hf).next (hf.applied _ hat.2)
      cases answer <;> cases h
      · exact at_loopHead hnext
      · trivial
      · trivial
  | execute t line sql todo sent =>
      simp only [step] at h
      split at h <;> cases h
      · refine at_afterSent hat.1 ?_
        rw [List.append_assoc, List.singleton_append]
        exact hat.2
      · trivial
  | track t sent =>
      simp only [step] at h
      split at h <;> cases h
      · rename_i hboth
        exact ⟨hat.1, hat.2, hboth.2⟩
      · trivial
  | commit t sent =>
      obtain ⟨hsending, _, htable⟩ := hat
      cases answer <;> cases h
      · exact at_loopHead ((hsending.todo.frame hf).next
          ((Store.mem_appliedIds_commit htable).mpr (Or.inl rfl)))
      · trivial
      · trivial
  | abandoned e =>
      cases h
      trivial
  | finished r => cases h

-- A commit adds one whole body, at its place in the order.
theorem Journal.commit {old : List Body} {t : Turn} {sent : List String} (h : c.Journal old s)
    (hsending : c.Sending d t s) (hbody : sent = c.body t.m) (htable : s.table.isSome) :
    c.Journal old (s.commit d t.m sent) := by
  have hnew : t.m.id ∉ s.bodies.map Body.id := fun hin => hsending.fresh ((h.tracked _).mpr hin)
  obtain ⟨new, hbodies, horder⟩ := h.ordered
  refine ⟨?_, fun id => ?_, new ++ [⟨t.m.id, sent⟩], ?_, ?_⟩
  · rw [Store.bodies_commit, List.map_append, List.nodup_append]
    refine ⟨h.once, List.nodup_singleton _, fun a ha b hb heq => ?_⟩
    obtain rfl := List.mem_singleton.mp hb
    rw [heq] at ha
    exact hnew ha
  · rw [Store.mem_appliedIds_commit htable, h.tracked id, Store.bodies_commit, List.map_append,
      List.mem_append, List.map_singleton, List.mem_singleton]
    exact or_comm
  · rw [Store.bodies_commit, hbodies, List.append_assoc]
  · intro pre b post heq
    rcases List.eq_nil_or_concat post with rfl | ⟨post', last, rfl⟩
    · obtain ⟨hpre, hb⟩ := List.append_inj' heq rfl
      obtain rfl := (List.cons.inj hb).1
      subst hpre
      obtain ⟨earlier, later, hdisk, happlied⟩ := hsending.todo.earlier
      refine ⟨earlier, t.m, later, hdisk, by rw [hbody], fun x hx => ?_⟩
      rw [← hbodies]
      exact (h.tracked _).mp (happlied x hx)
    · rw [List.concat_eq_append, ← List.cons_append, ← List.append_assoc] at heq
      exact horder pre b post' (List.append_inj_left' heq rfl)

theorem step_journal {old : List Body} {answer : Answer} (hj : c.Journal old s)
    (hat : c.At d s stage) (h : c.step accept d answer s stage = some (s', stage')) :
    c.Journal old s' := by
  rcases step_effect h with rfl | rfl | rfl | ⟨_, rfl⟩ | ⟨t, sent, rfl, rfl⟩
  · exact hj
  · exact ⟨hj.once, hj.tracked, hj.ordered⟩
  · exact ⟨hj.once, hj.tracked, hj.ordered⟩
  · exact ⟨hj.once, hj.tracked, hj.ordered⟩
  · exact hj.commit hat.1 hat.2.1 hat.2.2

end

-- Whatever the deployers' statements are answered and however they interleave,
-- each body is committed once, in order and with its row.
theorem exactly_once [DecidableEq D] (c : Deployment) (accept : D → Bool) (w v : World D (Store D) Stage)
    (hpg : c.isPostgres = true) (hw : Fresh w) (h : Reach (c.step accept) w v) : c.ExactlyOnce w.shared.bodies v := by
  have hstart : c.Journal w.shared.bodies w.shared := by
    refine ⟨hw.once, hw.tracked, [], (List.append_nil _).symm, ?_⟩
    intro pre b post heq
    simp at heq
  obtain ⟨hjournal, hat⟩ := h.local_invariant (G := c.Journal w.shared.bodies) (J := c.At) hstart
    (fun p => by rw [hw.begun p]; trivial)
    (fun p a s l s' l' hg hj hstep => ⟨step_journal hg hj hstep, step_at hj hstep⟩)
    (fun p a s l s' l' q m hne _ hj hq hstep => hq.frame hpg (Ne.symm hne) (step_frame hj hstep))
  refine ⟨hjournal.once, hjournal.tracked, hjournal.ordered, fun d ids hd => ?_⟩
  have := hat d
  rwa [hd] at this

-- Two migrations of one table each.
def twoTables : Deployment :=
  let subdir (name up : String) : Subdir := ⟨name, .content up, .content "", .absent⟩
  ⟨true, .ascii, fun text => text, some
    ⟨[subdir "20260101000001_second" "CREATE TABLE conc_b (id INTEGER PRIMARY KEY);",
      subdir "20260101000000_first" "CREATE TABLE conc_a (id INTEGER PRIMARY KEY);"], by decide⟩⟩

def idle : World Bool (Store Bool) Stage := ⟨⟨none, [], none⟩, fun _ => .createTable⟩

-- Both list two pending migrations. One applies the first, the other skips it
-- and fails at the second, which the first one applies after that.
def race : List (Bool × Answer) :=
  let both := [true, false].flatMap fun d => List.replicate 4 (d, Answer.done)
  let other := List.replicate 5 (false, Answer.done)
  both ++ List.replicate 5 (true, Answer.done) ++ other ++
    [(false, Answer.refused), (false, Answer.done)] ++ List.replicate 6 (true, Answer.done)

theorem exactly_once_race : ∃ v, run (twoTables.step fun _ => false) idle race = some v ∧
    v.party true = .finished (.ok ["20260101000000_first", "20260101000001_second"]) ∧
      twoTables.ExactlyOnce [] v := by
  have hrun : (run (twoTables.step fun _ => false) idle race).map (fun v => v.party true) =
      some (.finished (.ok ["20260101000000_first", "20260101000001_second"])) := by decide +kernel
  obtain ⟨v, hv, hdone⟩ := Option.map_eq_some_iff.mp hrun
  exact ⟨v, hv, hdone, exactly_once twoTables _ idle v rfl
    ⟨fun _ => rfl, rfl, List.nodup_nil, fun id => Iff.rfl⟩ (reach_run hv)⟩

end Deployment

end Ruprizzle
