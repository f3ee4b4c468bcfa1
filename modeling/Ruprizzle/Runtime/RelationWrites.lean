import Ruprizzle.Data.Sessions
import Ruprizzle.Runtime.Batching
import Ruprizzle.Runtime.Cascades
import Ruprizzle.Runtime.Sentences

namespace Ruprizzle.Runtime

open Sessions Tables

-- Writes to the rows of a relation: by the foreign keys of children, by rows of a join
-- table, and by lists of operations on children. Every statement changes one column.

variable {S : Type}

inductive WriteStatement (S : Type)
  | insert (table : String) (rows : List (List (String × Value)))
  | update (table column : String) (value : Value) (filter : FilterNode S)
  | delete (table : String) (filter : FilterNode S)
  | select (table : String) (columns : List String) (filter : FilterNode S) (limit : Option Nat)

def Row.put (column : String) (value : Value) (row : Row) : Row := fun c => if c = column then value else row c

-- What a dialect makes of statements, what an INSERT stores for the columns that it is
-- given, and which states of the tables the constraints allow.
structure Dbms (S : Type) where
  d : Dialect
  engine : Engine
  reading : S → List Word
  lexes : S → List Lexeme
  size : S → Nat
  stored : Database → String → List (List (String × Value)) → List Row
  stores : ∀ db table rows, (∀ row ∈ rows, (row.map Prod.fst).Nodup) →
    List.Forall₂ Carries rows (stored db table rows)
  allowed : Database → Prop

-- How many rows a statement has changed, and those that it returns.
abbrev Answer := Nat × List Row

namespace Dbms

variable (b : Dbms S)

def kept (db : Database) (table : String) (f : FilterNode S) (row : Row) : Bool :=
  b.engine.keeps db b.d b.reading (Env.bind (fun _ _ => .null) table row) f

def found (db : Database) (table : String) (f : FilterNode S) : List Row :=
  (db table).filter (b.kept db table f)

-- A filter that is no condition of the dialect makes no statement of it.
def Conditional (f : FilterNode S) : Prop :=
  f.isTrivial = true ∨ Forms b.d b.lexes .cond (pushFilter b.d f)

def Fits (n : Nat) : Prop := n ≤ maxQueryParams b.d

-- Valid SQL. No column is named twice by an INSERT, and the values have room.
def Legal : WriteStatement S → Prop
  | .insert _ rows => rows ≠ [] ∧ (∀ row ∈ rows, (row.map Prod.fst).Nodup) ∧ b.Fits rows.flatten.length
  | .update _ _ _ f => b.Conditional f ∧ b.Fits (1 + filterBinds b.size b.d f)
  | .delete _ f | .select _ _ f _ => b.Conditional f ∧ b.Fits (filterBinds b.size b.d f)

def effect : WriteStatement S → Database → Database
  | .insert table rows, db => db.add table (b.stored db table rows)
  | .update table column value f, db =>
      db.set table (updateWhere (b.kept db table f) (Row.put column value) (db table))
  | .delete table f, db => db.set table ((db table).filter fun row => !b.kept db table f row)
  | .select _ _ _ _, db => db

-- The constraints are checked after each statement that writes.
def Accepts : WriteStatement S → Database → Prop
  | .select _ _ _ _, _ => True
  | st, db => b.allowed (b.effect st db)

def Answers : WriteStatement S → Database → Answer → Prop
  | .insert _ rows, _, answer => answer.1 = rows.length
  | .select table _ f limit, db, answer => ∃ rows, rows.Perm (b.found db table f) ∧
      answer.2 = match limit with
        | some n => rows.take n
        | none => rows
  | _, _, _ => True

end Dbms

-- A database that runs what is valid, unless a constraint refuses it.
structure WriteServer (S : Type) extends Dbms S where
  execute : WriteStatement S → Database → Option (Database × Answer)
  accepted : ∀ st db, toDbms.Legal st → toDbms.Accepts st db →
    ∃ answer, execute st db = some (toDbms.effect st db, answer)
  executes : ∀ st db next answer, toDbms.Legal st → execute st db = some (next, answer) →
    toDbms.Accepts st db ∧ next = toDbms.effect st db ∧ toDbms.Answers st db answer

def WriteServer.server (s : WriteServer S) : Service (WriteStatement S) Database Answer :=
  ⟨s.Legal, s.effect, s.Accepts, s.Answers, s.execute, s.accepted, s.executes⟩

abbrev Write (S α : Type) := Session (WriteStatement S) Database α

-- The columns of the children in a relation, and the statements for them.
structure ChildColumns where
  childTable : String
  childFkCol : String
  childPkCol : String

namespace ChildColumns

variable (c : ChildColumns) (parentPk : Value) (pks : List Value)

def named : FilterNode S := .in_ c.childTable c.childPkCol pks false

def linked : FilterNode S := .cmp c.childTable c.childFkCol .eq parentPk

def connect : WriteStatement S := .update c.childTable c.childFkCol parentPk (c.named pks)

def disconnect : WriteStatement S :=
  .update c.childTable c.childFkCol .null (.and [c.named pks, c.linked parentPk])

def disconnectAll : WriteStatement S := .update c.childTable c.childFkCol .null (c.linked parentPk)

def delete : WriteStatement S := .delete c.childTable (.and [c.named pks, c.linked parentPk])

-- The foreign key comes after the values that were supplied.
def create (values : List (String × Value)) : WriteStatement S :=
  .insert c.childTable [values ++ [(c.childFkCol, parentPk)]]

end ChildColumns

inductive RelAction
  | connect
  | disconnect
  | set
  deriving DecidableEq, Repr

structure RelWrite extends ChildColumns where
  action : RelAction
  pks : List Value

namespace RelWrite

variable (s : WriteServer S) (w : RelWrite) (parentPk : Value)

def runConnect (db : Database) : Write S Nat :=
  andThen (issue s.server (w.connect parentPk w.pks) db) fun db n => done n.1 db

def runDisconnect (db : Database) : Write S Nat :=
  andThen (issue s.server (w.disconnect parentPk w.pks) db) fun db n => done n.1 db

def runDisconnectAll (db : Database) : Write S Nat :=
  andThen (issue s.server (w.disconnectAll parentPk) db) fun db n => done n.1 db

def runSet (db : Database) : Write S Nat :=
  andThen (w.runDisconnectAll s parentPk db) fun db total =>
    andThen (w.runConnect s parentPk db) fun db more => done (total + more) db

def executeUpdate (db : Database) : Write S Nat :=
  match w.action with
  | .connect => w.runConnect s parentPk db
  | .disconnect => w.runDisconnect s parentPk db
  | .set => w.runSet s parentPk db

end RelWrite

inductive M2mAction
  | attach
  | set
  | detach
  deriving DecidableEq, Repr

structure M2mWrite (C : Type) where
  action : M2mAction
  joinTable : String
  joinOwnerCol : String
  joinTargetCol : String
  target : Model
  targetPkCol : String
  targetIds : List Value
  decode : Cells → Option C

namespace M2mWrite

variable {C : Type} (s : WriteServer S) (w : M2mWrite C) (pk : Value)

def owned : FilterNode S := Filter.and (.and []) (.cmp w.joinTable w.joinOwnerCol .eq pk)

def clearing : WriteStatement S := .delete w.joinTable (w.owned pk)

def deleting : WriteStatement S :=
  .delete w.joinTable (Filter.and (w.owned pk) (.in_ w.joinTable w.joinTargetCol w.targetIds false))

def inserting : WriteStatement S := .insert w.joinTable (w.targetIds.map fun tid =>
  [(w.joinOwnerCol, pk), (w.joinTargetCol, tid)])

def clearJoins (db : Database) : Write S Answer := issue s.server (w.clearing pk) db

def deleteSpecificJoins (db : Database) : Write S Answer := issue s.server (w.deleting pk) db

def insertJoins (db : Database) : Write S Answer :=
  if w.targetIds.isEmpty then done (0, []) db else issue s.server (w.inserting pk) db

def executeUpdate (db : Database) : Write S Nat :=
  andThen (if w.action = .set then w.clearJoins s pk db else done (0, []) db) fun db cleared =>
    andThen (if w.action ≠ .detach then w.insertJoins s pk db else w.deleteSpecificJoins s pk db)
      fun db more => done (cleared.1 + more.1) db

def targets : FilterNode S :=
  Filter.and (liveRows w.target) (.in_ w.target.table w.targetPkCol w.targetIds false)

def shown (row : Row) : Option C := w.decode (row.cells w.target.columns)

def loading : WriteStatement S := .select w.target.table w.target.columns w.targets none

def loadTargets (db : Database) : Write S (List C) :=
  andThen (issue s.server w.loading db) fun db found =>
    match found.2.mapM w.shown with
    | some children => done children db
    | none => fail

-- The children that the parent is given.
def executeInsert (db : Database) : Write S (List C) :=
  andThen (if w.action = .set then w.clearJoins s pk db else done (0, []) db) fun db cleared =>
    andThen (if w.action ≠ .detach then w.insertJoins s pk db else w.deleteSpecificJoins s pk db)
      fun db more =>
        if w.action = .detach then done [] db
        else if 0 < cleared.1 + more.1 && !w.targetIds.isEmpty then w.loadTargets s db
        else done [] db

end M2mWrite

structure NestedCreate where
  values : List (String × Value)

structure NestedConnectOrCreate (S : Type) where
  filter : FilterNode S
  create : NestedCreate

inductive RelNestedOp (S : Type)
  | create (creates : List NestedCreate)
  | connect (pks : List Value)
  | connectOrCreate (items : List (NestedConnectOrCreate S))
  | disconnect (pks : List Value)
  | set (pks : List Value)
  | delete (pks : List Value)

structure NestedRelWrite (S : Type) extends ChildColumns where
  ops : List (RelNestedOp S)

namespace NestedRelWrite

variable (s : WriteServer S) (w : NestedRelWrite S) (parentPk : Value)

def run (st : WriteStatement S) (db : Database) : Write S Unit :=
  andThen (issue s.server st db) fun db _ => done () db

def createOne (c : NestedCreate) (db : Database) : Write S Unit := run s (w.create parentPk c.values) db

def connectOrCreateOne (item : NestedConnectOrCreate S) (db : Database) : Write S Unit :=
  andThen (issue s.server (.select w.childTable [w.childPkCol] item.filter (some 1)) db) fun db found =>
    if !found.2.isEmpty then run s (.update w.childTable w.childFkCol parentPk item.filter) db
    else w.createOne s parentPk item.create db

def runSome (st : WriteStatement S) (pks : List Value) (db : Database) : Write S Unit :=
  if !pks.isEmpty then run s st db else done () db

def executeOp : RelNestedOp S → Database → Write S Unit
  | .create creates, db => each (w.createOne s parentPk) creates db
  | .connect pks, db => runSome s (w.connect parentPk pks) pks db
  | .connectOrCreate items, db => each (w.connectOrCreateOne s parentPk) items db
  | .disconnect pks, db => runSome s (w.disconnect parentPk pks) pks db
  | .set pks, db => andThen (run s (w.disconnectAll parentPk) db) fun db _ =>
      runSome s (w.connect parentPk pks) pks db
  | .delete pks, db => runSome s (w.delete parentPk pks) pks db

def execute (db : Database) : Write S Unit := each (w.executeOp s parentPk) w.ops db

end NestedRelWrite

end Ruprizzle.Runtime
