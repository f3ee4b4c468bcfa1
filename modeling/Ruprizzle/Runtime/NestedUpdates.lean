import Ruprizzle.Data.Tables
import Ruprizzle.Runtime.BulkInserts

namespace Ruprizzle.Runtime

open Tables

-- Updates with writes to relations attached, in one transaction.

variable {S : Type}

-- A comparison of a column of the one table with a value.
theorem keeps_cmp {engine : Engine} {db : Database} {d : Dialect} {reading : S → List Word} {m : Model}
    {column : String} {op : CmpOp} {value : Value} (hvalue : value.isNull = false) (hop : op ≠ .ilike)
    (row : Row) : engine.keeps db d reading (m.env row) (.cmp m.table column op value : FilterNode S) =
      decide (engine.compare op (row column) value = .yes) := by
  have hnull : ∀ op' : CmpOp, ¬ (value.isNull = true ∧ op = op') := fun op' h => by simp [hvalue] at h
  have htruth : engine.truth db d (m.env row)
      ((FilterNode.cmp m.table column op value : FilterNode S).words d reading) = _ :=
    truth_compared (fun h => by simp [hvalue] at h) fun h => absurd h hop
  rw [Engine.keeps, Engine.holds, htruth, Engine.compareTo, if_neg (hnull .eq), if_neg (hnull .ne)]
  simp [FilterNode.isTrivial, Model.env, Env.bind]

-- What is written on behalf of a parent, and how many rows that affects.
structure ParentWrite where
  parentPk : Row → Value
  execute : Database → Value → Option (Database × Nat)

structure Writes where
  m2m : Option ParentWrite
  rel : List ParentWrite
  nestedWrites : List ParentWrite

-- What a database does with an UPDATE: it may refuse it, or else it puts the new cells
-- into the rows of the condition and leaves the others in the table alone. A table has a
-- key, so that no two rows of it are alike.
structure UpdateServer (S : Type) where
  d : Dialect
  engine : Engine
  reading : S → List Word
  assign : List SetExpr → Row → Row
  update : Database → String → (Row → Bool) → List SetExpr → Option (Database × Nat)
  updates : ∀ db table chosen sets next n, update db table chosen sets = some (next, n) →
    next table = updateWhere chosen (assign sets) (db table) ∧ (next table).Nodup
  commits : Database → Bool

structure UpdateQuery (S : Type) where
  model : Model
  sets : List SetExpr
  filter : FilterNode S
  allRows : Bool

namespace Writes

variable (w : Writes)

def attached : Bool := w.m2m.isSome || !w.rel.isEmpty || !w.nestedWrites.isEmpty

-- Each write adds what it affects, but a nested one counts once.
def writeRel (parent : Row) (state : Database × Nat) (write : ParentWrite) : Option (Database × Nat) :=
  (write.execute state.1 (write.parentPk parent)).map fun (db, n) => (db, state.2 + n)

def writeNested (parent : Row) (state : Database × Nat) (write : ParentWrite) : Option (Database × Nat) :=
  (write.execute state.1 (write.parentPk parent)).map fun (db, _) => (db, state.2 + 1)

def writeFirst (parents : List Row) (state : Database × Nat) : Option (Database × Nat) :=
  match parents with
  | [] => some state
  | first :: _ =>
      (w.rel.foldlM (writeRel first) state).bind fun state => w.nestedWrites.foldlM (writeNested first) state

def writeEach (parents : List Row) (state : Database × Nat) : Option (Database × Nat) :=
  match w.m2m with
  | none => some state
  | some write => parents.foldlM (fun state parent => writeRel parent state write) state

-- All that follows the update: the check, and the writes for the parents.
def execute (parents : List Row) (state : Database × Nat) : Option (Database × Nat) :=
  if (!w.rel.isEmpty || !w.nestedWrites.isEmpty) && parents.length ≠ 1 then none
  else (w.writeFirst parents state).bind (w.writeEach parents)

end Writes

namespace UpdateQuery

variable (s : UpdateServer S) (q : UpdateQuery S) (w : Writes)

def chosen (db : Database) (row : Row) : Bool :=
  s.engine.keeps db s.d s.reading (q.model.env row) q.filter

def filtered : Bool := q.allRows || !q.filter.isTrivial

-- The statement, unless to_sql refuses to build it.
def runUpdate (db : Database) : Option (Database × Nat) :=
  if q.filtered && !q.sets.isEmpty then s.update db q.model.table (q.chosen s db) q.sets else none

def fetchParents (db : Database) : List Row := tableRows s.engine db s.d s.reading q.model q.filter

-- The transaction up to its end, with the parents as they are found after the update.
def inTx (parentsOf : Database → List Row) (db : Database) : Option (Database × Nat) :=
  (if q.sets.isEmpty then some (db, 0) else q.runUpdate s db).bind fun state =>
    w.execute (parentsOf state.1) state

def exec (db : Database) : Option Nat × Database :=
  if w.attached then
    if !q.filtered then (none, db)
    else match q.inTx s w (q.fetchParents s) db with
      | some (next, total) => if s.commits next then (some total, next) else (none, db)
      | none => (none, db)
  else match q.runUpdate s db with
    | some (next, n) => (some n, next)
    | none => (none, db)

-- The rows that the statement changes, as they are afterwards.
def updated (db : Database) : List Row := ((db q.model.table).filter (q.chosen s db)).map (s.assign q.sets)

-- The law: whatever is attached is written for the rows that the update has changed,
-- and an error leaves all as it was.
structure HitsUpdated (db : Database) : Prop where
  parents : ∀ w, q.inTx s w (q.fetchParents s) db = q.inTx s w (fun _ => q.updated s db) db
  unchanged : ∀ w, (q.exec s w db).1 = none → (q.exec s w db).2 = db

-- What the filter says of each row is the same after the update.
def Settled (db : Database) : Prop :=
  ∀ next n, q.runUpdate s db = some (next, n) →
    Stable (q.chosen s db) (q.chosen s next) (s.assign q.sets) (db q.model.table)

variable {s q w} {db next : Database} {n : Nat}

theorem exec_unchanged (h : (q.exec s w db).1 = none) : (q.exec s w db).2 = db := by
  unfold exec at h ⊢
  by_cases hattached : w.attached = true
  · rw [if_pos hattached] at h ⊢
    by_cases hfiltered : (!q.filtered) = true
    · rw [if_pos hfiltered]
    · rw [if_neg hfiltered] at h ⊢
      cases hrun : q.inTx s w (q.fetchParents s) db with
      | none => rfl
      | some state =>
          rw [hrun] at h
          dsimp only at h ⊢
          by_cases hcommits : s.commits state.1 = true
          · rw [if_pos hcommits] at h
            cases h
          · rw [if_neg hcommits]
  · rw [if_neg hattached] at h ⊢
    cases hrun : q.runUpdate s db with
    | none => rfl
    | some state =>
        rw [hrun] at h
        cases h

-- An update that runs leaves the rows that the filter finds next.
theorem runUpdate_some (h : q.runUpdate s db = some (next, n)) :
    next q.model.table = updateWhere (q.chosen s db) (s.assign q.sets) (db q.model.table) ∧
      (next q.model.table).Nodup := by
  obtain ⟨_, hupdate⟩ := Option.ite_none_right_eq_some.mp h
  exact s.updates _ _ _ _ _ _ hupdate

-- The parents that are found are the changed rows just where the filter is settled.
theorem fetchParents_eq_iff (h : q.runUpdate s db = some (next, n)) :
    q.fetchParents s next = q.updated s db ↔
      Stable (q.chosen s db) (q.chosen s next) (s.assign q.sets) (db q.model.table) := by
  obtain ⟨hrows, hnodup⟩ := runUpdate_some h
  rw [hrows] at hnodup
  rw [← stable_iff hnodup, ← hrows]
  rfl

-- A write that keeps a list of the keys it is given.
def logged (key : Row → Value) : Writes :=
  ⟨some ⟨key, fun db v => some (db.add "log" [fun _ => v], 0)⟩, [], []⟩

theorem execute_logged (key : Row → Value) (parents : List Row) (state : Database × Nat) :
    (logged key).execute parents state =
      some (state.1.add "log" (parents.map fun parent _ => key parent), state.2) := by
  have hfirst : (logged key).writeFirst parents state = some state := by
    cases parents <;> rfl
  show ((logged key).writeFirst parents state).bind ((logged key).writeEach parents) = _
  rw [hfirst, Option.bind_some]
  show parents.foldlM (fun (state : Database × Nat) parent =>
    some (state.1.add "log" [fun _ => key parent], state.2 + 0)) state = _
  induction parents generalizing state with
  | nil =>
      rw [List.map_nil, Database.add_nil]
      rfl
  | cons parent rest ih =>
      rw [List.foldlM_cons]
      refine (ih _ ?_).trans ?_
      · cases rest <;> rfl
      · rw [Database.add_append]
        rfl

theorem add_inj {table : String} {first second : List Row} (h : db.add table first = db.add table second) :
    first = second := by
  have htable := congrFun h table
  rw [Database.add, Database.add, if_pos rfl, if_pos rfl] at htable
  exact List.append_cancel_left htable

-- Lists that no key tells apart are the same.
theorem eq_of_keys {first second : List Row}
    (h : ∀ key : Row → Value, first.map (fun row (_ : String) => key row) = second.map fun row _ => key row) :
    first = second := by
  classical
  have hlength : first.length = second.length := by
    have := congrArg List.length (h fun _ => .null)
    simpa using this
  refine List.ext_getElem hlength fun i hi hi' => ?_
  have hkeys := h fun row => .bool (row = first[i])
  have hat := congrArg (fun l : List (String → Value) => l[i]?) hkeys
  simp only [List.getElem?_map, List.getElem?_eq_getElem hi, List.getElem?_eq_getElem hi', Option.map_some,
    Option.some.injEq] at hat
  have hcell := congrFun hat ""
  simpa [eq_comm] using hcell

theorem HitsUpdated.fetched (h : q.HitsUpdated s db) (hsets : q.sets ≠ [])
    (hnext : q.runUpdate s db = some (next, n)) : q.fetchParents s next = q.updated s db := by
  refine eq_of_keys fun key => ?_
  have hrun : (if q.sets.isEmpty then some (db, 0) else q.runUpdate s db) = some (next, n) :=
    (if_neg fun hempty => hsets (List.isEmpty_iff.mp hempty)).trans hnext
  have hlogged := h.parents (logged key)
  rw [inTx, inTx, hrun, Option.bind_some, Option.bind_some, execute_logged, execute_logged] at hlogged
  exact add_inj (Prod.mk.inj (Option.some.inj hlogged)).1

theorem hits_updated_iff (hsets : q.sets ≠ []) : q.HitsUpdated s db ↔ q.Settled s db := by
  constructor
  · intro h next n hnext
    exact (fetchParents_eq_iff hnext).mp (h.fetched hsets hnext)
  · intro h
    refine ⟨fun w => ?_, fun w => exec_unchanged⟩
    unfold inTx
    rw [if_neg fun hempty => hsets (List.isEmpty_iff.mp hempty)]
    cases hnext : q.runUpdate s db with
    | none => rfl
    | some state =>
        rw [Option.bind_some, Option.bind_some, (fetchParents_eq_iff hnext).mpr (h _ _ hnext)]

end UpdateQuery

-- Orders by their id, over a database that takes any update that keeps the ids apart.

def assignCells (sets : List SetExpr) (row : Row) : Row :=
  sets.foldl (fun row set => match set with
    | .column column v => fun c => if c = column then v else row c
    | .jsonSet _ _ _ => row) row

def orderServer : UpdateServer Empty where
  d := .postgres
  engine := wholeNumbers
  reading := nofun
  assign := assignCells
  update db table chosen sets :=
    if ((updateWhere chosen (assignCells sets) (db table)).map fun row => numberOf (row "id")).Nodup then
      some (fun t => if t = table then updateWhere chosen (assignCells sets) (db table) else db t,
        ((db table).filter chosen).length)
    else none
  updates db table chosen sets next n h := by
    obtain ⟨hnodup, heq⟩ := Option.ite_none_right_eq_some.mp h
    obtain ⟨rfl, -⟩ := Prod.mk.inj (Option.some.inj heq)
    have hnext : (if table = table then updateWhere chosen (assignCells sets) (db table) else db table) =
        updateWhere chosen (assignCells sets) (db table) := if_pos rfl
    refine ⟨hnext, ?_⟩
    show (if table = table then updateWhere chosen (assignCells sets) (db table) else db table).Nodup
    rw [hnext]
    exact hnodup.of_map
  commits _ := true

def ordersWhere (column : String) : UpdateQuery Empty where
  model := ⟨"orders", ["id", "state"], "id", none⟩
  sets := [.column "state" (.i64 2)]
  filter := .cmp "orders" column .eq (.i64 1)
  allRows := false

theorem chosen_orders (column : String) (db : Database) (row : Row) :
    (ordersWhere column).chosen orderServer db row =
      decide (wholeNumbers.compare .eq (row column) (.i64 1) = .yes) :=
  keeps_cmp rfl (by decide) row

theorem hits_updated_orders : (ordersWhere "id").HitsUpdated orderServer
    (tablesOf [("orders", [rowOf [("id", .i64 1), ("state", .i64 1)]])]) := by
  refine (UpdateQuery.hits_updated_iff (by simp [ordersWhere])).mpr fun next n _ row _ => ?_
  rw [chosen_orders, chosen_orders]
  by_cases hrow : decide (wholeNumbers.compare .eq (row "id") (.i64 1) = .yes) = true
  · rw [if_pos hrow]
    rfl
  · rw [if_neg hrow]

-- The order of state 1 has another state once it is updated, and is not found again.
theorem hits_otherwise : ¬ (ordersWhere "state").HitsUpdated orderServer
    (tablesOf [("orders", [rowOf [("id", .i64 1), ("state", .i64 1)]])]) := by
  intro h
  generalize hdb : tablesOf [("orders", [rowOf [("id", .i64 1), ("state", .i64 1)]])] = db at h
  have horders : db "orders" = [rowOf [("id", .i64 1), ("state", .i64 1)]] := by
    rw [← hdb]
    rfl
  have hyes : (ordersWhere "state").chosen orderServer db (rowOf [("id", .i64 1), ("state", .i64 1)]) = true := by
    rw [chosen_orders]
    rfl
  have hupdated : (ordersWhere "state").updated orderServer db =
      [assignCells [.column "state" (.i64 2)] (rowOf [("id", .i64 1), ("state", .i64 1)])] := by
    rw [UpdateQuery.updated, show (ordersWhere "state").model.table = "orders" from rfl, horders,
      List.filter_cons, if_pos hyes]
    rfl
  have hchanged : updateWhere ((ordersWhere "state").chosen orderServer db)
      (assignCells [.column "state" (.i64 2)]) (db "orders") =
      [assignCells [.column "state" (.i64 2)] (rowOf [("id", .i64 1), ("state", .i64 1)])] := by
    rw [horders, updateWhere, List.map_cons, if_pos hyes]
    rfl
  have hids : ((updateWhere ((ordersWhere "state").chosen orderServer db)
      (assignCells [.column "state" (.i64 2)]) (db "orders")).map fun row => numberOf (row "id")).Nodup := by
    rw [hchanged]
    exact List.nodup_singleton _
  have hrun : (ordersWhere "state").runUpdate orderServer db = orderServer.update db "orders"
      ((ordersWhere "state").chosen orderServer db) [.column "state" (.i64 2)] := rfl
  have hnext := hrun.trans (if_pos hids)
  have hfetched := h.fetched (by simp [ordersWhere]) hnext
  rw [hupdated, UpdateQuery.fetchParents, tableRows] at hfetched
  have hfound := List.mem_filter.mp (hfetched ▸ List.mem_cons_self)
  have hkeeps : (ordersWhere "state").chosen orderServer _
      (assignCells [.column "state" (.i64 2)] (rowOf [("id", .i64 1), ("state", .i64 1)])) = true := hfound.2
  rw [chosen_orders] at hkeeps
  exact absurd hkeeps (by decide)

end Ruprizzle.Runtime
