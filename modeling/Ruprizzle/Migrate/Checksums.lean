import Mathlib.Logic.Relation
import Ruprizzle.Migrate.Concurrency

namespace Ruprizzle

open Interleave

-- A project's migrations over time: the directory and the tracking table.
structure Site where
  folder : Option Folder
  table : Option Tracking

namespace Migrator

variable (sha256 : String → String)

-- Rolling back goes on until a migration is not found or a statement fails.
-- The answer is the one to the statements of the down script and to the UPDATE.
def rollbackLoop (ms : Except MigrateError (List Migration)) (answer : String → Answer) :
    List String → Tracking → List String → Tracking × Except MigrateError (List String)
  | [], rows, applied => (rows, .ok applied)
  | id :: rest, rows, applied =>
      match ms with
      | .error e => (rows, .error e)
      | .ok migrations =>
          if migrations.any (fun m => m.id = id) then
            match answer id with
            | .done => rollbackLoop ms answer rest (rows.rollBack id) (applied ++ [id])
            | .lost => (rows.rollBack id, .error .database)
            | .refused => (rows, .error .database)
          else (rows, .error (.missingUp id))

-- The last ids come first.
def rollback (folder : Option Folder) (answer : String → Answer) (n : Nat) (rows : Tracking) :
    Tracking × Except MigrateError (List String) :=
  let ids := (insertionSortBy (fun a b => compare b a) rows.appliedIds).take n
  rollbackLoop (migrations sha256 folder) answer ids rows []

def resolve (folder : Option Folder) (answer : Answer) (id : String) (rows : Tracking) :
    Tracking × Except MigrateError Unit :=
  match migrations sha256 folder with
  | .error e => (rows, .error e)
  | .ok ms =>
      match ms.find? (fun m => m.id = id) with
      | none => (rows, .error (.missingUp id))
      | some m =>
          match answer with
          | .done => (rows.upsert id (computeChecksum sha256 m.up), .ok ())
          | .lost => (rows.upsert id (computeChecksum sha256 m.up), .error .database)
          | .refused => (rows, .error .database)

end Migrator

namespace Site

-- The directory is read differently by nobody.
structure Setting where
  isPostgres : Bool
  u : CharClass
  sha256 : String → String

variable (c : Setting)

def deployment (site : Site) : Deployment := ⟨c.isPostgres, c.u, c.sha256, site.folder⟩

def rows (site : Site) : Tracking := site.table.getD []

def alone (site : Site) : World Unit (Store Unit) Stage :=
  ⟨⟨site.table, [], none⟩, fun _ => .createTable⟩

def upOf (folder : Option Folder) (id : String) : Option String :=
  match Migrator.migrations c.sha256 folder with
  | .ok ms => (ms.find? (fun m => m.id = id)).map Migration.up
  | .error _ => none

-- The files of a directory that can be read.
def Loads (folder : Option Folder) (ms : List Migration) : Prop :=
  Migrator.migrations c.sha256 folder = .ok ms

inductive Op
  | applyAll
  | rollback
  | resolve
  | edit

-- One operation. A run of apply_all may end anywhere, even by being killed.
-- Files are edited in between, but no up.sql that is applied.
inductive Step : Op → Site → Site → Prop
  | applyAll (site : Site) (acceptDataLoss : Bool) (v : World Unit (Store Unit) Stage) :
      Reach ((site.deployment c).step fun _ => acceptDataLoss) site.alone v →
        Step .applyAll site ⟨site.folder, v.shared.table⟩
  | rollback (site : Site) (answer : String → Answer) (n : Nat) :
      Step .rollback site
        ⟨site.folder, some (Migrator.rollback c.sha256 site.folder answer n site.rows).1⟩
  | resolve (site : Site) (answer : Answer) (id : String) :
      Step .resolve site
        ⟨site.folder, some (Migrator.resolve c.sha256 site.folder answer id site.rows).1⟩
  | edit (site : Site) (folder : Option Folder) (ms : List Migration) : Loads c folder ms →
      (∀ id ∈ site.rows.appliedIds, upOf c folder id = upOf c site.folder id) →
        Step .edit site ⟨folder, site.table⟩

-- What is pending has no metadata, or metadata with the checksum of its text.
def Fresh (site : Site) : Prop :=
  ∀ ms, Loads c site.folder ms → ∀ m ∈ ms, m.id ∉ site.rows.appliedIds →
    m.info.checksum = Migrator.computeChecksum c.sha256 m.up

-- The operations of a history in which nothing is applied with a stale checksum.
def FreshStep (site site' : Site) : Prop :=
  ∃ op, Step c op site site' ∧ (op = .applyAll → Fresh c site)

-- The rows are read in any order.
def Verified (site : Site) : Prop :=
  ∀ batch : Tracking, batch.Perm site.rows.live →
    Migrator.verifyChecksums c.sha256 site.folder batch = .ok ()

-- An applied migration whose text has changed, line ends aside.
def Edited (site : Site) (ms ms' : List Migration) (id : String) : Prop :=
  id ∈ site.rows.appliedIds ∧ ∃ m ∈ ms, ∃ m' ∈ ms', m.id = id ∧ m'.id = id ∧
    Reading.normalise m'.up ≠ Reading.normalise m.up

-- The digest tells the old and the new text of a migration apart.
def NoCollision (ms ms' : List Migration) : Prop :=
  ∀ m ∈ ms, ∀ m' ∈ ms', m.id = m'.id →
    Migrator.computeChecksum c.sha256 m.up = Migrator.computeChecksum c.sha256 m'.up →
      Reading.normalise m.up = Reading.normalise m'.up

def reported : Except MigrateError Unit → List String
  | .error (.checksumMismatch id) => [id]
  | _ => []

end Site

namespace Migrator

variable {sha256 : String → String} {ms : List Migration}

theorem find?_id {m : Migration} {id : String} (hnodup : (ms.map Migration.id).Nodup) :
    ms.find? (fun m => m.id = id) = some m ↔ m ∈ ms ∧ m.id = id := by
  constructor
  · intro h
    exact ⟨List.mem_of_find?_eq_some h, by simpa using List.find?_some h⟩
  · intro ⟨hm, hid⟩
    cases hfind : ms.find? (fun m => m.id = id) with
    | none =>
        have := List.find?_eq_none.mp hfind m hm
        simp [hid] at this
    | some m' =>
        have hm' := List.mem_of_find?_eq_some hfind
        have hid' : m'.id = id := by simpa using List.find?_some hfind
        rw [List.inj_on_of_nodup_map hnodup hm' hm (hid'.trans hid.symm)]

-- A row whose migration on disk has another checksum.
def Stale (sha256 : String → String) (ms : List Migration) (r : TrackingRow) : Prop :=
  ∃ m ∈ ms, m.id = r.id ∧ r.checksum ≠ computeChecksum sha256 m.up

-- The verdict is on the first stale row, in the order they are read.
theorem verifyRows_cases (sha256 : String → String) (hnodup : (ms.map Migration.id).Nodup)
    (batch : Tracking) :
    (verifyRows sha256 ms batch = .ok () ∧ ∀ r ∈ batch, ¬ Stale sha256 ms r) ∨
      ∃ r ∈ batch, Stale sha256 ms r ∧ verifyRows sha256 ms batch = .error (.checksumMismatch r.id) := by
  induction batch with
  | nil => exact Or.inl ⟨rfl, fun r hr => absurd hr List.not_mem_nil⟩
  | cons r rest ih =>
      have hpass : (verifyRows sha256 ms (r :: rest) = verifyRows sha256 ms rest ∧ ¬ Stale sha256 ms r) ∨
          (Stale sha256 ms r ∧
            verifyRows sha256 ms (r :: rest) = .error (.checksumMismatch r.id)) := by
        simp only [verifyRows]
        cases hfind : ms.find? (fun m => m.id = r.id) with
        | none =>
            refine Or.inl ⟨rfl, fun ⟨m, hm, hid, _⟩ => ?_⟩
            rw [(find?_id hnodup).mpr ⟨hm, hid⟩] at hfind
            cases hfind
        | some m =>
            obtain ⟨hm, hid⟩ := (find?_id hnodup).mp hfind
            by_cases heq : r.checksum = computeChecksum sha256 m.up
            · refine Or.inl ⟨by simp [heq], fun ⟨m', hm', hid', hne⟩ => ?_⟩
              rw [List.inj_on_of_nodup_map hnodup hm' hm (hid'.trans hid.symm)] at hne
              exact hne heq
            · exact Or.inr ⟨⟨m, hm, hid, heq⟩, if_pos heq⟩
      rcases hpass with ⟨heq, hr⟩ | ⟨hr, heq⟩
      · rw [heq]
        rcases ih with ⟨hok, hrest⟩ | ⟨x, hx, hstale, herr⟩
        · refine Or.inl ⟨hok, fun x hx => ?_⟩
          rcases List.mem_cons.mp hx with rfl | hx
          · exact hr
          · exact hrest x hx
        · exact Or.inr ⟨x, List.mem_cons_of_mem _ hx, hstale, herr⟩
      · exact Or.inr ⟨r, List.mem_cons_self .., hr, heq⟩

theorem rollbackLoop_live {loaded : Except MigrateError (List Migration)} {answer : String → Answer}
    {ids applied : List String} {rows : Tracking} {r : TrackingRow}
    (h : r ∈ (rollbackLoop loaded answer ids rows applied).1.live) : r ∈ rows.live := by
  induction ids generalizing rows applied with
  | nil => exact h
  | cons id rest ih =>
      simp only [rollbackLoop] at h
      split at h
      · exact h
      · split at h
        · split at h
          · exact (Tracking.mem_live_rollBack.mp (ih h)).1
          · exact (Tracking.mem_live_rollBack.mp h).1
          · exact h
        · exact h

end Migrator

namespace Site

variable {c : Setting} {site site' : Site} {ms ms' : List Migration}

theorem verifyChecksums_loaded {folder : Option Folder} (h : Loads c folder ms) (batch : Tracking) :
    Migrator.verifyChecksums c.sha256 folder batch = Migrator.verifyRows c.sha256 ms batch := by
  unfold Migrator.verifyChecksums
  rw [h]
  rfl

theorem Loads.nodup {folder : Option Folder} (h : Loads c folder ms) :
    (ms.map Migration.id).Nodup := Migrator.migrations_nodup h

theorem Loads.onDisk (h : Loads c site.folder ms) : (site.deployment c).onDisk = ms := by
  unfold Deployment.onDisk deployment
  rw [h]

-- The directory can be read, and no row is stale.
structure Coherent (c : Setting) (site : Site) (ms : List Migration) : Prop where
  loads : Loads c site.folder ms
  current : ∀ r ∈ site.rows.live, ¬ Migrator.Stale c.sha256 ms r

theorem coherent_iff (h : Loads c site.folder ms) : Verified c site ↔ Coherent c site ms := by
  constructor
  · intro hv
    refine ⟨h, ?_⟩
    have hok := hv site.rows.live (List.Perm.refl _)
    rw [verifyChecksums_loaded h] at hok
    rcases Migrator.verifyRows_cases c.sha256 h.nodup site.rows.live with
      ⟨_, hall⟩ | ⟨r, _, _, herr⟩
    · exact hall
    · rw [hok] at herr
      cases herr
  · intro hc batch hperm
    rw [verifyChecksums_loaded h]
    rcases Migrator.verifyRows_cases c.sha256 h.nodup batch with
      ⟨hok, _⟩ | ⟨r, hr, hstale, _⟩
    · exact hok
    · exact absurd hstale (hc.current r (hperm.mem_iff.mp hr))

theorem mem_appliedIds_of_live {rows : Tracking} {r : TrackingRow} (h : r ∈ rows.live) :
    r.id ∈ rows.appliedIds := List.mem_map_of_mem h

-- What apply_all leaves in the table: what was there, and rows with the recorded
-- checksums of migrations that were pending.
def Recorded (c : Setting) (site : Site) (s : Store Unit) : Prop :=
  (∀ id ∈ site.rows.appliedIds, id ∈ s.appliedIds) ∧
    ∀ r ∈ (s.table.getD []).live, r ∈ site.rows.live ∨
      ∃ m ∈ (site.deployment c).onDisk, m.id ∉ site.rows.appliedIds ∧
        r = ⟨m.id, m.info.checksum, false⟩

theorem recorded_step {accept : Unit → Bool} {s s' : Store Unit} {stage stage' : Stage}
    {answer : Answer} (hrec : Recorded c site s) (hat : (site.deployment c).At () s stage)
    (h : (site.deployment c).step accept () answer s stage = some (s', stage')) :
    Recorded c site s' := by
  obtain ⟨hkept, hrows⟩ := hrec
  rcases Deployment.step_effect h with rfl | rfl | rfl | ⟨_, rfl⟩ | ⟨t, sent, rfl, rfl⟩
  · exact ⟨hkept, hrows⟩
  · exact ⟨hkept, hrows⟩
  · exact ⟨hkept, hrows⟩
  · exact ⟨hkept, hrows⟩
  · obtain ⟨hsending, _, htable⟩ := hat
    refine ⟨fun id hid => (Store.mem_appliedIds_commit htable).mpr (Or.inr (hkept id hid)), ?_⟩
    intro r hr
    obtain ⟨rows, heq⟩ := Option.isSome_iff_exists.mp htable
    have hafter : ((s.commit () t.m sent).table.getD []) = rows.upsert t.m.id t.m.info.checksum := by
      unfold Store.commit
      rw [Store.table_unlock, heq]
      rfl
    rw [hafter] at hr
    rcases Tracking.mem_live_upsert.mp hr with rfl | ⟨hr, _⟩
    · refine Or.inr ⟨t.m, hsending.todo.sublist.subset (List.mem_cons_self ..), ?_, rfl⟩
      exact fun hin => hsending.fresh (hkept _ hin)
    · refine hrows r ?_
      rw [heq]
      exact hr

theorem recorded_run {accept : Unit → Bool} {v : World Unit (Store Unit) Stage}
    (h : Reach ((site.deployment c).step accept) site.alone v) : Recorded c site v.shared := by
  refine (h.local_invariant (G := Recorded c site) (J := (site.deployment c).At)
    ⟨fun _ hid => hid, fun r hr => Or.inl hr⟩ (fun p => trivial) ?_ ?_).1
  · intro p a s l s' l' hg hj hstep
    exact ⟨recorded_step hg hj hstep, Deployment.step_at hj hstep⟩
  · intro p a s l s' l' q m hne
    exact absurd (Subsingleton.elim p q) hne

theorem upOf_eq {folder : Option Folder} (h : Loads c folder ms) {id up : String} :
    upOf c folder id = some up ↔ ∃ m ∈ ms, m.id = id ∧ m.up = up := by
  unfold upOf
  rw [h]
  dsimp only
  rw [Option.map_eq_some_iff]
  constructor
  · intro ⟨m, hfind, hup⟩
    obtain ⟨hm, hid⟩ := (Migrator.find?_id h.nodup).mp hfind
    exact ⟨m, hm, hid, hup⟩
  · intro ⟨m, hm, hid, hup⟩
    exact ⟨m, (Migrator.find?_id h.nodup).mpr ⟨hm, hid⟩, hup⟩

-- Each operation keeps the checksums coherent.
theorem step_coherent (hc : Coherent c site ms) (h : FreshStep c site site') :
    ∃ ms', Coherent c site' ms' := by
  obtain ⟨op, hstep, hfresh⟩ := h
  cases hstep with
  | applyAll _ b v hreach =>
      refine ⟨ms, hc.loads, fun r hr => ?_⟩
      rcases (recorded_run hreach).2 r hr with hold | ⟨m, hm, hpending, rfl⟩
      · exact hc.current r hold
      · rw [hc.loads.onDisk] at hm
        intro ⟨m', hm', hid, hne⟩
        rw [List.inj_on_of_nodup_map hc.loads.nodup hm' hm hid] at hne
        exact hne (hfresh rfl ms hc.loads m hm hpending)
  | rollback _ answer n => exact ⟨ms, hc.loads, fun r hr => hc.current r (Migrator.rollbackLoop_live hr)⟩
  | resolve _ answer id =>
      refine ⟨ms, hc.loads, fun r hr => ?_⟩
      have hnew : ∀ m, ms.find? (fun m => m.id = id) = some m →
          r ∈ (site.rows.upsert id (Migrator.computeChecksum c.sha256 m.up)).live →
            ¬ Migrator.Stale c.sha256 ms r := by
        intro m hfind hr
        rcases Tracking.mem_live_upsert.mp hr with rfl | ⟨hr, _⟩
        · intro ⟨m', hm', hid, hne⟩
          obtain ⟨hm, hmid⟩ := (Migrator.find?_id hc.loads.nodup).mp hfind
          rw [List.inj_on_of_nodup_map hc.loads.nodup hm' hm (hid.trans hmid.symm)] at hne
          exact hne rfl
        · exact hc.current r hr
      change r ∈ (Migrator.resolve c.sha256 site.folder answer id site.rows).1.live at hr
      unfold Migrator.resolve at hr
      rw [hc.loads] at hr
      dsimp only at hr
      cases hfind : ms.find? (fun m => m.id = id) with
      | none =>
          rw [hfind] at hr
          exact hc.current r hr
      | some m =>
          rw [hfind] at hr
          cases answer
          · exact hnew m hfind hr
          · exact hc.current r hr
          · exact hnew m hfind hr
  | edit _ folder ms' hloads hsame =>
      refine ⟨ms', hloads, fun r hr => ?_⟩
      intro ⟨m', hm', hid, hne⟩
      have hup := (upOf_eq hloads).mpr ⟨m', hm', hid, rfl⟩
      rw [hsame r.id (mem_appliedIds_of_live hr)] at hup
      obtain ⟨m, hm, hmid, hmup⟩ := (upOf_eq hc.loads).mp hup
      rw [← hmup] at hne
      exact hc.current r hr ⟨m, hm, hmid, hne⟩

theorem run_coherent (hc : Coherent c site ms)
    (h : Relation.ReflTransGen (FreshStep c) site site') : ∃ ms', Coherent c site' ms' := by
  induction h with
  | refl => exact ⟨ms, hc⟩
  | tail _ hstep ih =>
      obtain ⟨mid, hmid⟩ := ih
      exact step_coherent hmid hstep

-- After an edit, the stale rows are those of the edited migrations.
theorem Coherent.stale_iff (hc : Coherent c site ms) (hids : ms'.map Migration.id = ms.map Migration.id)
    (hno : NoCollision c ms ms') {r : TrackingRow} (hr : r ∈ site.rows.live) :
    Migrator.Stale c.sha256 ms' r ↔ Edited site ms ms' r.id := by
  constructor
  · intro ⟨m', hm', hid', hne⟩
    have hin : r.id ∈ ms.map Migration.id := by
      rw [← hids, ← hid']
      exact List.mem_map_of_mem hm'
    obtain ⟨m, hm, hid⟩ := List.mem_map.mp hin
    refine ⟨mem_appliedIds_of_live hr, m, hm, m', hm', hid, hid', fun heq => hne ?_⟩
    by_contra hstale
    refine hc.current r hr ⟨m, hm, hid, ?_⟩
    unfold Migrator.computeChecksum at hne ⊢
    rw [← heq]
    exact hne
  · intro ⟨_, m, hm, m', hm', hid, hid', hne⟩
    refine ⟨m', hm', hid', fun heq => hne ?_⟩
    have hold : r.checksum = Migrator.computeChecksum c.sha256 m.up := by
      by_contra hstale
      exact hc.current r hr ⟨m, hm, hid, hstale⟩
    exact (hno m hm m' hm' (hid.trans hid'.symm) (hold.symm.trans heq)).symm

-- In every history that applies nothing with a stale checksum, all checksums
-- verify, and an edit of one applied migration is what is reported.
theorem checksums_coherent (c : Setting) (start site : Site) (ms : List Migration)
    (hstart : Loads c start.folder ms) (hverified : Verified c start)
    (hrun : Relation.ReflTransGen (FreshStep c) start site) :
    Verified c site ∧ ∀ folder before after, Loads c site.folder before → Loads c folder after →
      after.map Migration.id = before.map Migration.id → NoCollision c before after →
        ((∀ batch : Tracking, batch.Perm site.rows.live → ∀ id,
            id ∈ reported (Migrator.verifyChecksums c.sha256 folder batch) ↔
              Edited site before after id) ↔
          ∀ id id', Edited site before after id → Edited site before after id' → id = id') := by
  obtain ⟨now, hnow⟩ := run_coherent ((coherent_iff hstart).mp hverified) hrun
  refine ⟨(coherent_iff hnow.loads).mpr hnow, fun folder before after hb ha hids hno => ?_⟩
  have hc : Coherent c site before := (coherent_iff hb).mp ((coherent_iff hnow.loads).mpr hnow)
  constructor
  · intro h id id' hid hid'
    have hone := (h _ (List.Perm.refl _) id).mpr hid
    have htwo := (h _ (List.Perm.refl _) id').mpr hid'
    rw [verifyChecksums_loaded ha] at hone htwo
    rcases Migrator.verifyRows_cases c.sha256 ha.nodup site.rows.live with
      ⟨hok, _⟩ | ⟨r, _, _, herr⟩
    · rw [hok] at hone
      exact absurd hone List.not_mem_nil
    · rw [herr] at hone htwo
      rw [List.mem_singleton.mp hone, List.mem_singleton.mp htwo]
  · intro hsingle batch hperm id
    rw [verifyChecksums_loaded ha]
    rcases Migrator.verifyRows_cases c.sha256 ha.nodup batch with
      ⟨hok, hall⟩ | ⟨r, hr, hstale, herr⟩
    · rw [hok]
      constructor
      · intro hin
        exact absurd hin List.not_mem_nil
      · intro hedited
        obtain ⟨r, hr, rfl⟩ := List.mem_map.mp hedited.1
        exact absurd ((hc.stale_iff hids hno hr).mpr hedited) (hall r (hperm.mem_iff.mpr hr))
    · have hedited := (hc.stale_iff hids hno (hperm.mem_iff.mp hr)).mp hstale
      rw [herr]
      constructor
      · intro hin
        rw [List.mem_singleton.mp hin]
        exact hedited
      · intro hid
        exact List.mem_singleton.mpr (hsingle id r.id hid hedited)

def sqlite : Setting := ⟨false, .ascii, fun text => text⟩

-- The backfill the planner asks for, as it is written and as it is filled in.
def backfill (update : String) : String :=
  "-- RUPRIZZLE:BACKFILL\n" ++ update ++ "\n"

def toFill : String := backfill "-- UPDATE users SET a = 0;"

def filled : String := backfill "UPDATE users SET a = 0;"

def aged (up : String) (metaJson : FileContent MigrationMeta) : Site :=
  ⟨some ⟨[⟨"1767_a", .content up, .content "", metaJson⟩], by simp⟩, none⟩

-- The metadata that is written along with the migration.
def writtenMeta : MigrationMeta := Migrator.metaFor sqlite.sha256 "1767_a" toFill

def applied (site : Site) : Option (World Unit (Store Unit) Stage) :=
  run ((site.deployment sqlite).step fun _ => false) site.alone (List.replicate 8 ((), .done))

def outcome (site : Site) : Option (Stage × Option Tracking) :=
  (applied site).map fun v => (v.party (), v.shared.table)

theorem verified_unapplied (up : String) (metaJson : FileContent MigrationMeta) :
    (∃ ms, Loads sqlite (aged up metaJson).folder ms) → Verified sqlite (aged up metaJson) := by
  intro ⟨ms, hms⟩
  exact (coherent_iff hms).mpr ⟨hms, fun r hr => absurd hr List.not_mem_nil⟩

theorem checksums_coherent_filled : ∃ v, applied (aged filled .absent) = some v ∧
    v.party () = .finished (.ok ["1767_a"]) ∧
      Verified sqlite ⟨(aged filled .absent).folder, v.shared.table⟩ := by
  have hrun : (applied (aged filled .absent)).map (fun v => v.party ()) =
      some (.finished (.ok ["1767_a"])) := by decide +kernel
  obtain ⟨v, hv, hdone⟩ := Option.map_eq_some_iff.mp hrun
  have hloads : Loads sqlite (aged filled .absent).folder
      [⟨"1767_a", filled, "", Migrator.metaFor sqlite.sha256 "1767_a" filled⟩] := rfl
  have hfresh : Fresh sqlite (aged filled .absent) := by
    intro ms hms m hm _
    obtain rfl := Except.ok.inj (hloads.symm.trans hms)
    obtain rfl := List.mem_singleton.mp hm
    rfl
  refine ⟨v, hv, hdone, (checksums_coherent sqlite _ _ _ hloads
    (verified_unapplied _ _ ⟨_, hloads⟩) ?_).1⟩
  exact .single ⟨.applyAll, .applyAll _ false v (reach_run hv), fun _ => hfresh⟩

-- The backfill is filled in before the migration is applied. What is recorded is
-- the checksum of the text before that.
theorem stale_checksum_recorded :
    (outcome (aged filled (.content writtenMeta))).map Prod.fst =
        some (.finished (.ok ["1767_a"])) ∧
      Verified sqlite (aged filled (.content writtenMeta)) ∧
      ∀ v, applied (aged filled (.content writtenMeta)) = some v →
        ¬ Verified sqlite ⟨(aged filled (.content writtenMeta)).folder, v.shared.table⟩ := by
  have hloads : Loads sqlite (aged filled (.content writtenMeta)).folder
      [⟨"1767_a", filled, "", writtenMeta⟩] := rfl
  refine ⟨by decide +kernel, verified_unapplied _ _ ⟨_, hloads⟩, fun v hv h => ?_⟩
  have htable : (outcome (aged filled (.content writtenMeta))).map Prod.snd =
      some (some [⟨"1767_a", Migrator.computeChecksum sqlite.sha256 toFill, false⟩]) := by
    decide +kernel
  unfold outcome at htable
  rw [hv] at htable
  have hrows := Option.some.inj htable
  change v.shared.table = _ at hrows
  have hok := h _ (List.Perm.refl _)
  unfold rows at hok
  dsimp only at hok
  rw [hrows, verifyChecksums_loaded hloads] at hok
  revert hok
  decide +kernel

end Site

end Ruprizzle
