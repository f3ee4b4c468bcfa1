import Ruprizzle.Data.Commands
import Ruprizzle.Migrate.Checksums
import Ruprizzle.Migrate.LoneDeployer

namespace Ruprizzle

open Interleave Commands

-- Rolling migrations back on SQLite and PostgreSQL, where each statement goes
-- through the pool. On MySQL they go through one transaction a migration.

-- A database: the tracking table, which is the migrator's own, and all else.
structure Base (D : Type) where
  data : D
  rows : Tracking

-- What a rollback sends: a statement of a down.sql, or the UPDATE that marks the
-- row of a migration as rolled back.
inductive Command
  | script (sql : String)
  | mark (id : String)
  deriving DecidableEq, Repr

-- A call of rollback. The database orders texts its own way and runs a statement
-- that is sent through the pool on its own, as a whole or not at all. What its
-- k-th statement is answered is up to the environment.
structure Rollback (D : Type) where
  c : Deployment
  collate : String → String → Ordering
  execute : D → String → Option D
  answer : Nat → Answer
  n : UInt64

namespace Rollback

variable {D : Type} (r : Rollback D)

def downStatements (u : CharClass) (down : String) : List String :=
  (Splitter.splitStatements u down).filterMap fun stmt =>
    let sql := Text.trim stmt.toList
    if sql.isEmpty || "-- ".toList.isPrefixOf sql then none else some (String.ofList sql)

def effect (b : Base D) : Command → Option (Base D)
  | .script sql => (r.execute b.data sql).map fun data => { b with data := data }
  | .mark id => some { b with rows := b.rows.rollBack id }

def send (k : Nat) (command : Command) (b : Base D) : Base D × Bool :=
  match r.answer k with
  | .done =>
      match r.effect b command with
      | some b' => (b', true)
      | none => (b, false)
  | .lost => ((r.effect b command).getD b, false)
  | .refused => (b, false)

def commands (m : Migration) : List Command :=
  (downStatements r.c.u m.down).map Command.script ++ [Command.mark m.id]

-- The number that is bound is an i64. A negative LIMIT is none to SQLite, and an
-- error to PostgreSQL.
def limited (ids : List String) : Option (List String) :=
  if r.n.toNat < 2 ^ 63 then some (ids.take r.n.toNat)
  else if r.c.isPostgres then none
  else some ids

-- The rows are read by the first statement, the last ids first.
def lastIds (b : Base D) : Option (List String) :=
  if r.answer 0 = .done then
    r.limited (insertionSortBy (fun x y => r.collate y x) b.rows.appliedIds)
  else none

def loop (k : Nat) : List String → Base D → List String →
    Base D × Except MigrateError (List String)
  | [], b, applied => (b, .ok applied)
  | id :: rest, b, applied =>
      match Migrator.migrations r.c.sha256 r.c.folder with
      | .error e => (b, .error e)
      | .ok ms =>
          match ms.find? (fun m => m.id = id) with
          | none => (b, .error (.missingUp id))
          | some m =>
              match runAll r.send k (r.commands m) b with
              | (b', true) => loop (k + (r.commands m).length) rest b' (applied ++ [id])
              | (b', false) => (b', .error .database)

def rollback (b : Base D) : Base D × Except MigrateError (List String) :=
  match r.lastIds b with
  | some ids => r.loop 1 ids b []
  | none => (b, .error .database)

-- All that a call may come to send, up to a migration that is not found.
def planOf (ms : List Migration) : List String → List Command
  | [] => []
  | id :: rest =>
      match ms.find? (fun m => m.id = id) with
      | some m => r.commands m ++ planOf ms rest
      | none => []

def plan (b : Base D) : List Command := r.planOf r.c.onDisk ((r.lastIds b).getD [])

-- What apply_all starts from after the call.
def deployed (bodies : List Body) (b : Base D) : World Unit (Store Unit) Stage :=
  ⟨⟨some b.rows, bodies, none⟩, fun _ => .createTable⟩

-- A call is atomic: where a statement fails nothing has changed, and where it
-- succeeds, apply_all runs the bodies of the migrations that were rolled back
-- again, in the order of the directory, and of no other migration that was
-- applied.
structure Atomic (b : Base D) : Prop where
  unchanged : ∀ b', r.rollback b = (b', .error .database) → b' = b
  reapplied : ∀ b' ids, r.rollback b = (b', .ok ids) → ∀ accept bodies v applied,
    Reach (r.c.step accept) (deployed bodies b') v → v.party () = .finished (.ok applied) →
      ∃ ms : List Migration, applied = ms.map Migration.id ∧
        v.shared.bodies = bodies ++ ms.map (fun m => ⟨m.id, r.c.body m⟩) ∧
        ms.filter (fun m => m.id ∈ b.rows.appliedIds) = r.c.onDisk.filter fun m => m.id ∈ ids

-- A statement may fail only while the first migration is being rolled back, and
-- only where what was run of its down.sql has left the data as they were.
def Spared (b : Base D) : Prop :=
  ∀ before command later b', r.plan b = before ++ command :: later →
    FailsAt r.send 1 before command b b' →
      (∀ id, Command.mark id ∉ before) ∧
        (∀ id, command = .mark id → r.answer (1 + before.length) ≠ .lost) ∧ b'.data = b.data

end Rollback

theorem Tracking.mem_appliedIds_rollBack {rows : Tracking} {id other : String} :
    other ∈ (rows.rollBack id).appliedIds ↔ other ∈ rows.appliedIds ∧ other ≠ id := by
  unfold Tracking.appliedIds
  simp only [List.mem_map]
  constructor
  · intro ⟨row, hrow, hother⟩
    obtain ⟨hlive, hne⟩ := Tracking.mem_live_rollBack.mp hrow
    exact ⟨⟨row, hlive, hother⟩, hother ▸ hne⟩
  · intro ⟨⟨row, hlive, hother⟩, hne⟩
    exact ⟨row, Tracking.mem_live_rollBack.mpr ⟨hlive, hother ▸ hne⟩, hother⟩

namespace Rollback

variable {D : Type} {r : Rollback D} {b b' : Base D} {command : Command} {k : Nat}
  {ids applied : List String} {ms : List Migration}

theorem send_true_iff : r.send k command b = (b', true) ↔
    r.answer k = .done ∧ r.effect b command = some b' := by
  unfold send
  cases hanswer : r.answer k <;> cases heffect : r.effect b command <;> simp

-- A statement of a script does not touch the tracking table.
theorem rows_script {sql : String} : (r.send k (.script sql) b).1.rows = b.rows := by
  unfold send effect
  cases r.answer k <;> cases hrun : r.execute b.data sql <;> simp [hrun]

theorem rows_of_scripts {l : List Command} (h : ∀ id, Command.mark id ∉ l) (hran : Ran r.send k l b b') :
    b'.rows = b.rows := by
  refine hran.keeps (I := fun x => x.rows = b.rows) (fun j c x hc hx => ?_) rfl
  cases c with
  | script sql => rw [rows_script, hx]
  | mark id => exact absurd hc (h id)

-- The ids that are still applied are those that were not marked.
theorem ran_applied {l : List Command} (hran : Ran r.send k l b b') (id : String) :
    id ∈ b'.rows.appliedIds ↔ id ∈ b.rows.appliedIds ∧ Command.mark id ∉ l := by
  induction hran with
  | nil => simp
  | @cons k c rest b mid b' hsend _ ih =>
      rw [ih, List.mem_cons, not_or]
      cases c with
      | script sql =>
          have hrows : (r.send k (.script sql) b).1.rows = b.rows := rows_script
          rw [hsend] at hrows
          rw [hrows]
          simp
      | mark other =>
          obtain ⟨_, heffect⟩ := send_true_iff.mp hsend
          obtain rfl := Option.some.inj heffect
          rw [Tracking.mem_appliedIds_rollBack, Command.mark.injEq]
          tauto

theorem applied_send {id : String} (h : id ∉ b.rows.appliedIds) :
    id ∉ (r.send k command b).1.rows.appliedIds := by
  cases command with
  | script sql =>
      rw [rows_script]
      exact h
  | mark other =>
      have hback : id ∉ (b.rows.rollBack other).appliedIds := by
        rw [Tracking.mem_appliedIds_rollBack]
        tauto
      unfold send effect
      cases r.answer k
      · exact hback
      · exact h
      · exact hback

theorem loop_error (hload : Migrator.migrations r.c.sha256 r.c.folder = .ok ms) :
    r.loop k ids b applied = (b', .error .database) ↔
      runAll r.send k (r.planOf ms ids) b = (b', false) := by
  induction ids generalizing k b applied with
  | nil => simp [loop, planOf, runAll]
  | cons id rest ih =>
      rw [loop, planOf, hload]
      dsimp only
      cases hfind : ms.find? (fun m => m.id = id) with
      | none => simp [runAll]
      | some m =>
          dsimp only
          rw [runAll_append]
          rcases hrun : runAll r.send k (r.commands m) b with ⟨mid, ok⟩
          cases ok with
          | true => exact ih
          | false => simp

theorem loop_ok (hload : Migrator.migrations r.c.sha256 r.c.folder = .ok ms) {out : List String}
    (h : r.loop k ids b applied = (b', .ok out)) :
    out = applied ++ ids ∧ Ran r.send k (r.planOf ms ids) b b' ∧
      ∀ id ∈ ids, Command.mark id ∈ r.planOf ms ids := by
  induction ids generalizing k b applied with
  | nil =>
      cases h
      exact ⟨(List.append_nil _).symm, .nil _ _, by simp⟩
  | cons id rest ih =>
      rw [loop, hload] at h
      rw [planOf]
      dsimp only at h
      cases hfind : ms.find? (fun m => m.id = id) with
      | none =>
          rw [hfind] at h
          cases h
      | some m =>
          rw [hfind] at h
          dsimp only at h ⊢
          rcases hrun : runAll r.send k (r.commands m) b with ⟨mid, ok⟩
          rw [hrun] at h
          cases ok with
          | false => cases h
          | true =>
              obtain ⟨rfl, hran, hmarks⟩ := ih h
              have hid : m.id = id := by simpa using List.find?_some hfind
              refine ⟨by simp, ran_append.mpr ⟨mid, runAll_true_iff.mp hrun, hran⟩, ?_⟩
              intro other hother
              rcases List.mem_cons.mp hother with rfl | hother
              · rw [← hid]
                exact List.mem_append_left _ (List.mem_append_right _ List.mem_cons_self)
              · exact List.mem_append_right _ (hmarks other hother)

theorem mem_planOf {id : String} (h : Command.mark id ∈ r.planOf ms ids) : id ∈ ids := by
  induction ids with
  | nil => cases h
  | cons first rest ih =>
      rw [planOf] at h
      cases hfind : ms.find? (fun m => m.id = first) with
      | none =>
          rw [hfind] at h
          cases h
      | some m =>
          rw [hfind] at h
          have hid : m.id = first := by simpa using List.find?_some hfind
          rcases List.mem_append.mp h with h | h
          · unfold commands at h
            simp only [List.mem_append, List.mem_map, reduceCtorEq, and_false, exists_false,
              false_or, List.mem_singleton, Command.mark.injEq] at h
            rw [h, hid]
            exact List.mem_cons_self
          · exact List.mem_cons_of_mem _ (ih h)

theorem lastIds_applied (h : r.lastIds b = some ids) {id : String} (hid : id ∈ ids) :
    id ∈ b.rows.appliedIds := by
  have hperm := insertionSortBy_perm (fun x y => r.collate y x) b.rows.appliedIds
  unfold lastIds limited at h
  split at h
  · split at h
    · obtain rfl := Option.some.inj h
      exact hperm.mem_iff.mp (List.mem_of_mem_take hid)
    · split at h
      · cases h
      · obtain rfl := Option.some.inj h
        exact hperm.mem_iff.mp hid
  · cases h

-- The call comes to send its plan, whatever comes of it.
theorem plan_eq (hids : r.lastIds b = some ids)
    (hload : Migrator.migrations r.c.sha256 r.c.folder = .ok ms) :
    r.plan b = r.planOf ms ids := by
  unfold plan Deployment.onDisk
  rw [hids, hload]
  rfl

theorem planOf_nil : r.planOf [] ids = [] := by
  cases ids with
  | nil => rfl
  | cons id rest => rfl

-- Something is sent only where the ids and the directory have been read.
theorem of_plan_ne_nil (h : r.plan b ≠ []) : ∃ ids ms, r.lastIds b = some ids ∧
    Migrator.migrations r.c.sha256 r.c.folder = .ok ms := by
  unfold plan Deployment.onDisk at h
  cases hids : r.lastIds b with
  | none =>
      rw [hids] at h
      exact absurd rfl h
  | some ids =>
      cases hload : Migrator.migrations r.c.sha256 r.c.folder with
      | error e =>
          rw [hload] at h
          exact absurd planOf_nil h
      | ok ms => exact ⟨ids, ms, rfl, rfl⟩

theorem rollback_error : r.rollback b = (b', .error .database) →
    b' = b ∨ ∃ before command later, r.plan b = before ++ command :: later ∧
      FailsAt r.send 1 before command b b' := by
  intro h
  unfold rollback at h
  cases hids : r.lastIds b with
  | none =>
      rw [hids] at h
      exact Or.inl (Prod.mk.inj h).1.symm
  | some ids =>
      rw [hids] at h
      cases hload : Migrator.migrations r.c.sha256 r.c.folder with
      | ok ms =>
          rw [plan_eq hids hload]
          exact Or.inr (runAll_false_iff.mp ((loop_error hload).mp h))
      | error e =>
          left
          cases ids with
          | nil => cases h
          | cons id rest =>
              dsimp only at h
              rw [loop, hload] at h
              exact (Prod.mk.inj h).1.symm

theorem rollback_of_fails {before later : List Command} (hplan : r.plan b = before ++ command :: later)
    (h : FailsAt r.send 1 before command b b') : r.rollback b = (b', .error .database) := by
  obtain ⟨ids, ms, hids, hload⟩ := of_plan_ne_nil (r := r) (b := b) (by rw [hplan]; simp)
  unfold rollback
  rw [hids]
  refine (loop_error hload).mpr (runAll_false_iff.mpr ⟨before, command, later, ?_, h⟩)
  rw [← plan_eq hids hload, hplan]

theorem mem_plan {id : String} (h : Command.mark id ∈ r.plan b) : id ∈ b.rows.appliedIds := by
  obtain ⟨ids, ms, hids, hload⟩ := of_plan_ne_nil (List.ne_nil_of_mem h)
  rw [plan_eq hids hload] at h
  exact lastIds_applied hids (mem_planOf h)

-- A row that was marked is not as it was.
theorem spared_of_unchanged (h : ∀ b', r.rollback b = (b', .error .database) → b' = b) :
    r.Spared b := by
  intro before command later b' hplan hfails
  obtain rfl := h b' (rollback_of_fails hplan hfails)
  obtain ⟨mid, hran, hsend⟩ := hfails
  refine ⟨fun id hid => ?_, fun id hcommand hlost => ?_, rfl⟩
  · have happlied : id ∈ b'.rows.appliedIds := by
      refine mem_plan (r := r) ?_
      rw [hplan]
      exact List.mem_append_left _ hid
    have hmid : id ∉ mid.rows.appliedIds := by
      rw [ran_applied hran]
      tauto
    have hlast : id ∉ (r.send (1 + before.length) command mid).1.rows.appliedIds :=
      applied_send hmid
    rw [hsend] at hlast
    exact hlast happlied
  · subst hcommand
    have happlied : id ∈ b'.rows.appliedIds := by
      refine mem_plan (r := r) ?_
      rw [hplan]
      exact List.mem_append_right _ List.mem_cons_self
    have hback : b'.rows = mid.rows.rollBack id := by
      unfold send at hsend
      rw [hlost] at hsend
      rw [← (Prod.mk.inj hsend).1]
      rfl
    rw [hback, Tracking.mem_appliedIds_rollBack] at happlied
    exact happlied.2 rfl

theorem unchanged_of_spared (h : r.Spared b) (hrun : r.rollback b = (b', .error .database)) :
    b' = b := by
  rcases rollback_error hrun with hsame | ⟨before, command, later, hplan, hfails⟩
  · exact hsame
  · obtain ⟨hmarks, hlost, hdata⟩ := h before command later b' hplan hfails
    obtain ⟨mid, hran, hsend⟩ := hfails
    have hmid := rows_of_scripts hmarks hran
    have hrows : b'.rows = mid.rows := by
      cases command with
      | script sql =>
          have hkept : (r.send (1 + before.length) (.script sql) mid).1.rows = mid.rows :=
            rows_script
          rw [hsend] at hkept
          exact hkept
      | mark id =>
          have hnot := hlost id rfl
          unfold send effect at hsend
          cases hanswer : r.answer (1 + before.length) <;> rw [hanswer] at hsend
          · cases hsend
          · rw [← (Prod.mk.inj hsend).1]
          · exact absurd hanswer hnot
    obtain ⟨data, rows⟩ := b'
    dsimp only at hrows hdata
    rw [hrows, hmid, hdata]

theorem rollback_reapplied {ids : List String} (h : r.rollback b = (b', .ok ids))
    {accept : Unit → Bool} {bodies : List Body} {v : World Unit (Store Unit) Stage}
    (hreach : Reach (r.c.step accept) (deployed bodies b') v)
    (hdone : v.party () = .finished (.ok applied)) :
    ∃ ms : List Migration, applied = ms.map Migration.id ∧
      v.shared.bodies = bodies ++ ms.map (fun m => ⟨m.id, r.c.body m⟩) ∧
      ms.filter (fun m => m.id ∈ b.rows.appliedIds) = r.c.onDisk.filter fun m => m.id ∈ ids := by
  obtain ⟨happlied, hbodies⟩ := Deployment.applied_alone hreach hdone
  refine ⟨_, happlied, hbodies, ?_⟩
  have hleft : ∀ m ∈ r.c.onDisk, (m.id ∉ b'.rows.appliedIds ∧ m.id ∈ b.rows.appliedIds ↔
      m.id ∈ ids) := by
    intro m hm
    unfold rollback at h
    cases hids : r.lastIds b with
    | none =>
        rw [hids] at h
        cases h
    | some wanted =>
        rw [hids] at h
        unfold Deployment.onDisk at hm
        split at hm
        · rename_i ms hload
          obtain ⟨hout, hran, hmarks⟩ := loop_ok hload h
          rw [List.nil_append] at hout
          subst hout
          rw [ran_applied hran]
          constructor
          · intro ⟨hnot, hin⟩
            by_contra hout
            exact hnot ⟨hin, fun hmark => hout (mem_planOf hmark)⟩
          · intro hin
            exact ⟨fun hstill => hstill.2 (hmarks _ hin), lastIds_applied hids hin⟩
        · cases hm
  unfold Deployment.pending Deployment.pendingOf
  rw [List.filter_filter]
  refine List.filter_congr fun m hm => ?_
  have hiff := hleft m hm
  change (decide (m.id ∈ b.rows.appliedIds) && decide (m.id ∉ b'.rows.appliedIds)) = _
  rw [← Bool.decide_and, decide_eq_decide, ← hiff]
  exact and_comm

-- The second statement of a down.sql fails, and the table that the first one
-- dropped is gone.
def droppingTables : Rollback (List String) where
  c := ⟨false, .ascii, fun text => text, some ⟨[⟨"1_a", .content "CREATE TABLE a (x);",
    .content "DROP TABLE a;DROP TABLE b;", .absent⟩], by simp⟩⟩
  collate := compare
  execute := fun tables sql =>
    if sql = "DROP TABLE a" ∧ "a" ∈ tables then some (tables.erase "a") else none
  answer := fun _ => .done
  n := 1

end Rollback

end Ruprizzle
