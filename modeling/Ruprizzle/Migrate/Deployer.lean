import Ruprizzle.Data.Interleave
import Ruprizzle.Migrate.Migrator

namespace Ruprizzle

-- A deployer that applies all pending migrations to a database, one database
-- statement at a time.

-- The body of a migration, as the statements a committed transaction ran.
structure Body where
  id : String
  statements : List String
  deriving DecidableEq, Repr

-- What is committed, and who holds the advisory lock.
structure Store (D : Type) where
  table : Option Tracking
  bodies : List Body
  lock : Option D

-- A statement takes effect and says so, has no effect, or has its effect but
-- the answer is lost. The last two are errors to who sent it.
inductive Answer
  | done
  | refused
  | lost
  deriving DecidableEq, Repr

-- The migration of the current turn of the loop, the ones to come, and the ids
-- of those this deployer has applied.
structure Turn where
  m : Migration
  rest : List Migration
  applied : List String
  deriving DecidableEq

-- The statement that is to be sent next. An abandoned transaction is open until
-- it is rolled back.
inductive Stage
  | createTable
  | probeTable
  | readChecksums
  | readApplied
  | begin (t : Turn)
  | lock (t : Turn)
  | recheck (t : Turn)
  | skip (t : Turn)
  | execute (t : Turn) (line : Nat) (sql : String) (todo : List (Nat × String)) (sent : List String)
  | track (t : Turn) (sent : List String)
  | commit (t : Turn) (sent : List String)
  | abandoned (e : MigrateError)
  | finished (result : Except MigrateError (List String))
  deriving DecidableEq

namespace Store

variable {D : Type} [DecidableEq D]

def appliedIds (s : Store D) : List String := (s.table.getD []).appliedIds

def createTable (s : Store D) : Store D := { s with table := some (s.table.getD []) }

-- The lock goes with the transaction that took it.
def unlock (s : Store D) (d : D) : Store D :=
  { s with lock := if s.lock = some d then none else s.lock }

def commit (s : Store D) (d : D) (m : Migration) (sent : List String) : Store D :=
  let committed : Store D :=
    { s with
      table := s.table.map fun rows => Tracking.upsert rows m.id m.info.checksum
      bodies := s.bodies ++ [⟨m.id, sent⟩] }
  committed.unlock d

end Store

-- What a run of the migrator is given. The deployers share the directory.
structure Deployment where
  isPostgres : Bool
  u : CharClass
  sha256 : String → String
  folder : Option Folder

namespace Deployment

variable {D : Type} [DecidableEq D] (c : Deployment)

-- The loop goes on with the next pending migration.
def loopHead (acceptDataLoss : Bool) : List Migration → List String → Stage
  | [], applied => .finished (.ok applied)
  | m :: rest, applied =>
      if Migrator.awaitsBackfill m then .finished (.error (.backfillRequired m.id))
      else if m.info.destructive && !acceptDataLoss then
        .finished (.error (.destructiveBlocked m.id))
      else .begin ⟨m, rest, applied⟩

-- The pending migrations, from the ids that are read as applied.
def pendingOf (applied : List String) (ms : List Migration) : List Migration :=
  ms.filter fun m => m.id ∉ applied

def afterVerify (rows : Tracking) : Stage :=
  match Migrator.verifyChecksums c.sha256 c.folder rows.live with
  | .ok () => .readApplied
  | .error e => .finished (.error e)

def afterApplied (acceptDataLoss : Bool) (rows : Tracking) : Stage :=
  match Migrator.migrations c.sha256 c.folder with
  | .ok ms => loopHead acceptDataLoss (pendingOf rows.appliedIds ms) []
  | .error e => .finished (.error e)

-- The statements of the migration are sent one by one, then its row.
def afterSent (t : Turn) : List (Nat × String) → List String → Stage
  | [], sent => .track t sent
  | (line, sql) :: todo, sent => .execute t line sql todo sent

-- Only what was committed before the lock was taken is seen after it.
def afterRecheck (t : Turn) (rows : Tracking) : Stage :=
  if t.m.id ∈ rows.appliedIds then .skip t
  else afterSent t (Migrator.sentStatements c.u t.m.up) []

def step (acceptDataLoss : D → Bool) (d : D) (answer : Answer) (s : Store D) :
    Stage → Option (Store D × Stage)
  | .createTable =>
      match answer with
      | .done => some (s.createTable, .readChecksums)
      | .lost => some (s.createTable, .probeTable)
      | .refused => some (s, .probeTable)
  | .probeTable =>
      if answer = .done ∧ s.table.isSome then some (s, .readChecksums)
      else some (s, .finished (.error .database))
  | .readChecksums =>
      match answer, s.table with
      | .done, some rows => some (s, c.afterVerify rows)
      | _, _ => some (s, .finished (.error .database))
  | .readApplied =>
      match answer, s.table with
      | .done, some rows => some (s, c.afterApplied (acceptDataLoss d) rows)
      | _, _ => some (s, .finished (.error .database))
  | .begin t =>
      if answer = .done then some (s, if c.isPostgres then .lock t else .recheck t)
      else some (s, .finished (.error .database))
  | .lock t =>
      match answer with
      | .refused => some (s, .abandoned .database)
      | .done => if s.lock = none then some ({ s with lock := some d }, .recheck t) else none
      | .lost => if s.lock = none then some ({ s with lock := some d }, .abandoned .database) else none
  | .recheck t =>
      match answer, s.table with
      | .done, some rows => some (s, c.afterRecheck t rows)
      | _, _ => some (s, .abandoned .database)
  | .skip t =>
      match answer with
      | .done => some (s.unlock d, loopHead (acceptDataLoss d) t.rest t.applied)
      | .lost => some (s.unlock d, .finished (.error .database))
      | .refused => some (s, .abandoned .database)
  | .execute t line sql todo sent =>
      if answer = .done then some (s, afterSent t todo (sent ++ [sql]))
      else some (s, .abandoned (.statementFailed t.m.id line))
  | .track t sent =>
      if answer = .done ∧ s.table.isSome then some (s, .commit t sent)
      else some (s, .abandoned .database)
  | .commit t sent =>
      match answer with
      | .done => some (s.commit d t.m sent,
          loopHead (acceptDataLoss d) t.rest (t.applied ++ [t.m.id]))
      | .lost => some (s.commit d t.m sent, .finished (.error .database))
      | .refused => some (s, .abandoned .database)
  | .abandoned e => some (s.unlock d, .finished (.error e))
  | .finished _ => none

end Deployment

end Ruprizzle
