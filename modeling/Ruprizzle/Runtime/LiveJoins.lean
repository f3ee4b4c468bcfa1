import Ruprizzle.Runtime.Rows

namespace Ruprizzle.Runtime

open Conditions

variable {S : Type} {engine : Engine} {db : Database} {d : Dialect} {reading : S → List Word}

namespace SelectQuery

variable {q : SelectQuery S} {join : JoinSpec S}

theorem env_left (hjoin : q.join = some join) (hother : join.qualifier ≠ q.model.table)
    (c : Combination) (column : String) :
    q.env c q.model.table column = (c.1.getD Row.absent) column := by
  simp [env, hjoin, Env.bind, hother.symm]

theorem env_right (hjoin : q.join = some join) (c : Combination) (column : String) :
    q.env c join.qualifier column = (c.2.getD Row.absent) column := by
  simp [env, hjoin, Env.bind]

-- The scope of the joined model is part of the condition of the join.
theorem holds_joinOn (hjoin : q.join = some join) (hdeleted : q.withDeleted = false)
    (hon : join.rightDeletedAt.isSome → Contained (language d) (join.on.words d reading))
    (a b : Row) :
    engine.holds db d reading (q.env (some a, some b)) (q.joinOn join)
      = (engine.holds db d reading (q.env (some a, some b)) join.on &&
          b.live join.rightDeletedAt) := by
  unfold joinOn
  cases hright : join.rightDeletedAt with
  | none => simp [Row.live]
  | some column =>
      have hcontained : ∀ node ∈ [join.on, .null (join.rightAlias.getD join.rightTable) column false],
          Contained (language d) (node.words d reading) := by
        simp only [List.mem_cons, List.not_mem_nil, or_false]
        rintro node (rfl | rfl)
        · exact hon (by simp [hright])
        · exact contained_null _ _ _
      simp only [hdeleted, Bool.false_eq_true, ite_false]
      rw [holds_and fun _ => hcontained]
      have hnull := env_right (c := (some a, some b)) hjoin column
      rw [JoinSpec.qualifier] at hnull
      simp [holds_null, hnull, Row.live]

-- The scope of the model itself is in the WHERE clause, where a missing row
-- passes it.
theorem keeps_scope (hfilter : q.filter = .and []) (hdeleted : q.withDeleted = false)
    (honly : q.onlyDeleted = false) (c : Combination)
    (hleft : ∀ column, q.env c q.model.table column = (c.1.getD Row.absent) column) :
    engine.keeps db d reading (q.env c) q.effectiveFilter
      = c.1.all (Row.live q.model.deletedAtColumn) := by
  unfold effectiveFilter
  cases hcol : q.model.deletedAtColumn with
  | none =>
      cases hc : c.1 <;> simp [hfilter, Engine.keeps, FilterNode.isTrivial, Row.live]
  | some column =>
      have hsingle : Filter.and (.and []) (.null q.model.table column false)
          = (.and [.null q.model.table column false] : FilterNode S) := rfl
      simp only [hdeleted, honly, Bool.false_eq_true, ite_false, hfilter]
      rw [hsingle, Engine.keeps, holds_and (by simp)]
      cases hc : c.1 <;>
        simp [FilterNode.isTrivial, holds_null, hleft, hc, Row.live, Row.absent, Value.isNull]

-- The join of the rows that are not soft-deleted.
def liveJoin (engine : Engine) (db : Database) (d : Dialect) (reading : S → List Word)
    (q : SelectQuery S) (join : JoinSpec S) : List Combination :=
  Joins.join join.kind.keepsLeft join.kind.keepsRight
    (fun a b => engine.holds db d reading (q.env (some a, some b)) join.on)
    ((db q.model.table).filter (Row.live q.model.deletedAtColumn))
    ((db join.rightTable).filter (Row.live join.rightDeletedAt))

-- Where the rows of the right table are kept, none is soft-deleted, and one that
-- has partners has one that is not.
def RightKept (engine : Engine) (db : Database) (d : Dialect) (reading : S → List Word)
    (q : SelectQuery S) (join : JoinSpec S) : Prop :=
  ∀ b ∈ db join.rightTable, b.live join.rightDeletedAt = true ∧
    ((∃ a ∈ db q.model.table, engine.holds db d reading (q.env (some a, some b)) join.on = true) →
      ∃ a ∈ db q.model.table, a.live q.model.deletedAtColumn = true ∧
        engine.holds db d reading (q.env (some a, some b)) join.on = true)

end SelectQuery

-- Accounts and their posts, which are soft-deleted too.
def withPosts (kind : JoinKind) : JoinSpec Empty :=
  ⟨kind, "posts", ["id", "account_id", "deleted_at"], none,
    .columnCmp "accounts" "id" .eq "posts" "account_id", some "deleted_at"⟩

def accountPosts (kind : JoinKind) : SelectQuery Empty :=
  { selectAll accounts with join := some (withPosts kind) }

def onePost : Database := tablesOf
  [("accounts", [rowOf [("id", .i64 1)]]),
    ("posts", [rowOf [("id", .i64 7), ("account_id", .i64 1), ("deleted_at", .i64 0)]])]

end Ruprizzle.Runtime
