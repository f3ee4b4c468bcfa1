import Ruprizzle.Data.Joins
import Ruprizzle.Runtime.Filters
import Ruprizzle.Runtime.Query

namespace Ruprizzle.Runtime

-- The rows that the FROM and WHERE clauses of a query leave. A database says what
-- each table name of the statement stands for, common table expressions included.

-- A row of each side of a join, or none where an outer join kept the other one.
abbrev Combination := Option Row × Option Row

-- What is missing in an outer join reads as NULL.
def Row.absent : Row := fun _ => .null

def JoinKind.keepsLeft : JoinKind → Bool
  | .left | .full => true
  | _ => false

def JoinKind.keepsRight : JoinKind → Bool
  | .right | .full => true
  | _ => false

-- A row that is not soft-deleted.
def Row.live (deletedAt : Option String) (row : Row) : Bool :=
  deletedAt.all fun column => (row column).isNull

variable {S : Type}

def JoinSpec.qualifier (join : JoinSpec S) : String := join.rightAlias.getD join.rightTable

-- What a row of one table alone says.
def Model.env (m : Model) (row : Row) : Env := Env.bind (fun _ _ => .null) m.table row

def SelectQuery.env (q : SelectQuery S) (c : Combination) : Env :=
  let left := Env.bind (fun _ _ => .null) q.model.table (c.1.getD Row.absent)
  match q.join with
  | some join => left.bind join.qualifier (c.2.getD Row.absent)
  | none => left

section

variable (engine : Engine) (db : Database) (d : Dialect) (reading : S → List Word)

def Engine.holds (env : Env) (f : FilterNode S) : Bool :=
  engine.truth db d env (f.words d reading) = .yes

-- A trivial filter has no clause.
def Engine.keeps (env : Env) (f : FilterNode S) : Bool :=
  f.isTrivial || engine.holds db d reading env f

-- The rows of one table that a filter leaves.
def tableRows (m : Model) (f : FilterNode S) : List Row :=
  (db m.table).filter fun row => engine.keeps db d reading (m.env row) f

namespace SelectQuery

def joined (q : SelectQuery S) : List Combination :=
  match q.join with
  | some join =>
      Joins.join join.kind.keepsLeft join.kind.keepsRight
        (fun a b => engine.holds db d reading (q.env (some a, some b)) (q.joinOn join))
        (db q.model.table) (db join.rightTable)
  | none => (db q.model.table).map fun row => (some row, none)

def rows (q : SelectQuery S) : List Combination :=
  (q.joined engine db d reading).filter fun c =>
    engine.keeps db d reading (q.env c) q.effectiveFilter

end SelectQuery

end

section

open Conditions Nesting

variable {engine : Engine} {db : Database} {d : Dialect} {reading : S → List Word} {env : Env}

theorem compare_isNull {engine : Engine} {op : CmpOp} {x v : Value} (h : v.isNull = true) :
    engine.compare op x v = .unknown := by
  cases v with
  | null => exact engine.compare_null op x
  | _ => simp [Value.isNull] at h

theorem holds_null (table column : String) (negated : Bool) :
    engine.holds db d reading env (.null table column negated)
      = ((env table column).isNull != negated) := by
  have htruth : engine.truth db d env
      ((FilterNode.null table column negated : FilterNode S).words d reading) = _ :=
    truth_words (.null table column negated) env
  rw [Engine.holds, htruth]
  simp only [FilterNode.meaning, isNullTest, Truth.ofBool_eq_yes, Bool.decide_eq_true]

theorem contained_null (table column : String) (negated : Bool) :
    Contained (language d) ((FilterNode.null table column negated : FilterNode S).words d reading) := by
  rw [words_null]
  cases negated <;> exact rfl

theorem holds_and {nodes : List (FilterNode S)}
    (h : 1 < nodes.length → ∀ node ∈ nodes, Contained (language d) (node.words d reading)) :
    engine.holds db d reading env (.and nodes) = nodes.all (engine.holds db d reading env) := by
  rw [Engine.holds, truth_and h, Bool.eq_iff_iff, decide_eq_true_iff, Truth.all_eq_yes,
    List.all_eq_true]
  simp [Engine.holds]

end

-- Small tables, over a database that compares whole numbers alone.

def wholeNumbers : Engine where
  compare op v w :=
    match op, v, w with
    | .eq, .i64 a, .i64 b => Truth.ofBool (a = b)
    | .ne, .i64 a, .i64 b => Truth.ofBool (a ≠ b)
    | .lt, .i64 a, .i64 b => Truth.ofBool (a < b)
    | .gt, .i64 a, .i64 b => Truth.ofBool (b < a)
    | _, _, _ => .unknown
  other _ _ := .unknown
  compare_null op v := by cases op <;> cases v <;> rfl
  null_compare op v := by cases op <;> cases v <;> rfl

def rowOf (cells : List (String × Value)) : Row := fun column => (cells.lookup column).getD .null

def tablesOf (tables : List (String × List Row)) : Database := fun t => (tables.lookup t).getD []

def accounts : Model := ⟨"accounts", ["id", "deleted_at"], "id", some "deleted_at"⟩

def selectAll (m : Model) : SelectQuery Empty :=
  ⟨m, .and [], [], [], none, none, false, [], none, false, false⟩

end Ruprizzle.Runtime
