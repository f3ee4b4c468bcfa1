import Ruprizzle.Data.Run
import Ruprizzle.Data.Savepoints

namespace Ruprizzle.Runtime

open Savepoints

-- A transaction handle over a database that keeps the statements done in it and its
-- savepoints. The database fails a command that names no savepoint, and nothing else.

variable {α : Type}

inductive Command (α : Type)
  | statement (a : α)
  | savepoint (name : String)
  | releaseSavepoint (name : String)
  | rollbackToSavepoint (name : String)

structure Tx (α : Type) where
  inner : Log String α
  savepointCounter : Nat
  pendingRollback : List String
  deriving DecidableEq, Repr

def savepointName (n : Nat) : String := "__ruprizzle_sp_" ++ Nat.repr n

namespace Tx

def begin : Tx α := ⟨.empty, 0, []⟩

def executeUnchecked (tx : Tx α) : Command α → Option (Tx α)
  | .statement a => some { tx with inner := tx.inner.add a }
  | .savepoint name => some { tx with inner := tx.inner.mark name }
  | .releaseSavepoint name => (tx.inner.release name).map fun inner => { tx with inner }
  | .rollbackToSavepoint name => (tx.inner.rollbackTo name).map fun inner => { tx with inner }

-- The last name pushed is rolled back first.
def flushPendingRollback (tx : Tx α) : Option (Tx α) :=
  tx.pendingRollback.reverse.foldlM (fun tx name => tx.executeUnchecked (.rollbackToSavepoint name))
    { tx with pendingRollback := [] }

def execute (tx : Tx α) (command : Command α) : Option (Tx α) :=
  tx.flushPendingRollback.bind fun tx => tx.executeUnchecked command

def savepoint (tx : Tx α) : Option (Tx α × String) :=
  let name := savepointName tx.savepointCounter
  let tx := { tx with savepointCounter := tx.savepointCounter + 1 }
  (tx.execute (.savepoint name)).map fun tx => (tx, name)

-- What survives the transaction.
def commit (tx : Tx α) : Option (List α) := tx.flushPendingRollback.map fun tx => tx.inner.done

end Tx

-- A savepoint handle is its name: what a caller can do with it.
namespace Savepoint

def release (tx : Tx α) (name : String) : Option (Tx α) := tx.execute (.releaseSavepoint name)

def rollback (tx : Tx α) (name : String) : Option (Tx α) := tx.execute (.rollbackToSavepoint name)

def drop (tx : Tx α) (name : String) : Tx α :=
  { tx with pendingRollback := tx.pendingRollback ++ [name] }

end Savepoint

-- The caller holds handles, the innermost first, and only that one can be finished.

inductive NestOp (α : Type)
  | savepoint
  | statement (a : α)
  | release
  | rollback
  | drop
  deriving DecidableEq, Repr

structure Caller (α : Type) where
  tx : Tx α
  handles : List String
  deriving DecidableEq, Repr

namespace Caller

def step (c : Caller α) : NestOp α → Option (Caller α)
  | .savepoint => c.tx.savepoint.map fun (tx, name) => ⟨tx, name :: c.handles⟩
  | .statement a => (c.tx.execute (.statement a)).map fun tx => { c with tx }
  | .release => match c.handles with
      | name :: handles => (Savepoint.release c.tx name).map fun tx => ⟨tx, handles⟩
      | [] => none
  | .rollback => match c.handles with
      | name :: handles => (Savepoint.rollback c.tx name).map fun tx => ⟨tx, handles⟩
      | [] => none
  | .drop => match c.handles with
      | name :: handles => some ⟨Savepoint.drop c.tx name, handles⟩
      | [] => none

-- The operations, and then commit.
def run (ops : List (NestOp α)) : Option (List α) :=
  (ops.foldlM step ⟨.begin, []⟩).bind fun c => c.tx.commit

end Caller

-- What nested transactions mean: a transaction that is released is part of the one
-- around it, and one that is rolled back or dropped has not been.

def nestStep (frames : List (List α)) : NestOp α → Option (List (List α))
  | .savepoint => some ([] :: frames)
  | .statement a => addTop frames a
  | .release => merge frames
  | .rollback => discard frames
  | .drop => discard frames

-- Properly nested operations, with all handles finished or dropped before commit.
def nested (ops : List (NestOp α)) : Option (List α) :=
  match ops.foldlM nestStep [[]] with
  | some [survivors] => some survivors
  | _ => none

end Ruprizzle.Runtime
