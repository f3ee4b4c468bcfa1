import Mathlib.Data.List.Pairwise
import Ruprizzle.Runtime.Builder
import Ruprizzle.Runtime.LiveJoins

namespace Ruprizzle.Runtime

variable {S : Type}

def limited {α : Type} (limit offset : Option Nat) (rows : List α) : List α :=
  let rest := rows.drop (offset.getD 0)
  match limit with
  | some n => rest.take n
  | none => rest

namespace SelectQuery

-- The cells that a query selects.
def cells (q : SelectQuery S) (c : Combination) : List Value :=
  let left := c.1.getD Row.absent
  match q.join with
  | some join => q.model.columns.map left ++ join.rightColumns.map (c.2.getD Row.absent)
  | none => (if q.projection.isEmpty then q.model.columns else q.projection).map left

-- The names that the tables of a query go by.
def tables (q : SelectQuery S) : List String :=
  q.model.table :: (q.join.map JoinSpec.qualifier).toList

section

variable (engine : Engine) (db : Database) (d : Dialect) (reading : S → List Word)

-- What is fetched where the database takes some rows as alike.
def fetched (alike : List Value → List Value → Bool) (q : SelectQuery S) : List (List Value) :=
  let found := (q.rows engine db d reading).map q.cells
  limited q.limit q.offset
    (if q.distinct then found.pwFilter fun a b => alike a b = false else found)

def counted (q : SelectQuery S) : Nat :=
  (tableRows engine db d reading q.model q.effectiveFilter).length

def found (q : SelectQuery S) : Bool :=
  !(tableRows engine db d reading q.model q.effectiveFilter).isEmpty

-- What a database knows of the names in a condition, some tables being there.
variable (resolves : List String → List Word → Prop)

-- Counting a query and looking for its rows is like fetching them.
structure Agrees (alike : List Value → List Value → Bool) (q : SelectQuery S) : Prop where
  count : q.counted engine db d reading = (q.fetched engine db d reading alike).length
  exists_ : q.found engine db d reading = decide (0 < (q.fetched engine db d reading alike).length)
  resolved : resolves q.tables (q.effectiveFilter.words d reading) →
    resolves [q.model.table] (q.effectiveFilter.words d reading)

-- No rows are alike where DISTINCT would join them, and a joined table neither
-- adds nor takes rows nor is spoken of in the filters.
structure Countable (alike : List Value → List Value → Bool) (q : SelectQuery S) : Prop where
  distinct : q.distinct = true →
    ((q.rows engine db d reading).map q.cells).Pairwise fun a b => alike a b = false
  silent : ∀ join, q.join = some join → ∀ a ∈ db q.model.table,
    ∀ b, (∀ row, b = some row → row ∈ db join.rightTable) →
    engine.keeps db d reading (q.env (some a, b)) q.effectiveFilter
      = engine.keeps db d reading (q.model.env a) q.effectiveFilter
  single : ∀ join, q.join = some join →
    ∀ a ∈ tableRows engine db d reading q.model q.effectiveFilter,
      let partners := (db join.rightTable).filter fun b =>
        engine.holds db d reading (q.env (some a, some b)) (q.joinOn join)
      partners.length = 1 ∨ join.kind.keepsLeft = true ∧ partners.length = 0
  dropped : ∀ join, q.join = some join → join.kind.keepsRight = true →
    ∀ b ∈ db join.rightTable,
      (∀ a ∈ db q.model.table,
        engine.holds db d reading (q.env (some a, some b)) (q.joinOn join) = false) →
      engine.keeps db d reading (q.env (none, some b)) q.effectiveFilter = false
  resolved : ∀ join, q.join = some join →
    resolves q.tables (q.effectiveFilter.words d reading) →
      resolves [q.model.table] (q.effectiveFilter.words d reading)

end

variable {engine : Engine} {db : Database} {d : Dialect} {reading : S → List Word}
  {resolves : List String → List Word → Prop} {alike : List Value → List Value → Bool}
  {q : SelectQuery S}

-- Whether the number of rows fetched is that of the combinations.
theorem length_fetched_iff (hlimit : q.limit = none) (hoffset : q.offset = none) :
    (q.rows engine db d reading).length = (q.fetched engine db d reading alike).length ↔
      (q.distinct = true →
        ((q.rows engine db d reading).map q.cells).Pairwise fun a b => alike a b = false) := by
  have hsub := List.pwFilter_sublist (R := fun a b => alike a b = false)
    ((q.rows engine db d reading).map q.cells)
  rw [fetched, hlimit, hoffset, limited, Option.getD_none, List.drop_zero]
  cases hdistinct : q.distinct
  · simp
  · simp only [ite_true, forall_const]
    rw [← List.pwFilter_eq_self, ← List.length_map (f := q.cells)]
    exact ⟨fun hlength => hsub.eq_of_length hlength.symm, fun heq => by rw [heq]⟩

theorem rows_alone (hjoin : q.join = none) :
    q.rows engine db d reading
      = (tableRows engine db d reading q.model q.effectiveFilter).map fun row => (some row, none) := by
  have henv : ∀ row, q.env (some row, none) = q.model.env row := fun row => by
    simp [env, hjoin, Model.env]
  rw [rows, joined, hjoin, List.filter_map, tableRows]
  exact congrArg _ (List.filter_congr fun row _ => by simp [henv])

theorem length_rows_joined (h : q.Countable engine db d reading resolves alike) :
    (q.rows engine db d reading).length = q.counted engine db d reading := by
  cases hjoin : q.join with
  | none => rw [rows_alone hjoin, List.length_map, counted]
  | some join =>
      rw [rows, joined, hjoin, counted, tableRows]
      refine Joins.length_filter_join (h.silent join hjoin) (h.dropped join hjoin) ?_
      intro a ha hkeeps
      exact h.single join hjoin a (List.mem_filter.mpr ⟨ha, hkeeps⟩)

theorem Countable.agrees (hlimit : q.limit = none) (hoffset : q.offset = none)
    (h : q.Countable engine db d reading resolves alike) : q.Agrees engine db d reading resolves alike := by
  have hcount : q.counted engine db d reading = (q.fetched engine db d reading alike).length :=
    (length_rows_joined h).symm.trans ((length_fetched_iff hlimit hoffset).mpr h.distinct)
  refine ⟨hcount, ?_, fun hresolved => ?_⟩
  · rw [← hcount, counted, found]
    cases tableRows engine db d reading q.model q.effectiveFilter <;> simp
  · cases hjoin : q.join with
    | none => simpa [tables, hjoin] using hresolved
    | some join => exact h.resolved join hjoin hresolved

-- Without a join there is nothing else that it can depend on.
theorem Agrees.countable (hlimit : q.limit = none) (hoffset : q.offset = none)
    (hjoin : q.join = none) (h : q.Agrees engine db d reading resolves alike) :
    q.Countable engine db d reading resolves alike := by
  have hnone : ∀ join, q.join ≠ some join := fun join hsome => by simp [hjoin] at hsome
  refine ⟨(length_fetched_iff hlimit hoffset).mp ?_, fun join hsome => absurd hsome (hnone join),
    fun join hsome => absurd hsome (hnone join), fun join hsome => absurd hsome (hnone join),
    fun join hsome => absurd hsome (hnone join)⟩
  rw [rows_alone hjoin, List.length_map]
  exact h.count

theorem toSql_isSome {R : Type} (assemble : List (Push R) → R) (inner : S → R) :
    ((Statement.count q).toSql assemble inner d).isSome
        = ((Statement.select q).toSql assemble inner d).isSome ∧
      ((Statement.exists_ q).toSql assemble inner d).isSome
        = ((Statement.select q).toSql assemble inner d).isSome := by
  simp only [Statement.toSql, SelectQuery.toSql]
  cases q.joinSupported d <;> exact ⟨rfl, rfl⟩

end SelectQuery

-- Two accounts without posts.
def twoAccounts : Database :=
  tablesOf [("accounts", [rowOf [("id", .i64 1)], rowOf [("id", .i64 2)]])]

def allNull (a b : List Value) : Bool := a.all Value.isNull && b.all Value.isNull

end Ruprizzle.Runtime
