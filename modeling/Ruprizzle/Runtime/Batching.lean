import Ruprizzle.Runtime.Include

namespace Ruprizzle.Runtime

open Batches Conditions

-- What a query for a piece of the keys returns, and when it can be sent.

variable {S Key : Type}

namespace Answers

variable (answers : Answers S)

-- Values are equal in the database where the keys are that they are decoded to.
def Matches (m : Model) (column : String) (key : Row → Key) (toValue : Key → Value) : Prop :=
  ∀ row ∈ answers.db m.table, ∀ k, (toValue k).isNull = false →
    (answers.engine.compare .eq (row column) (toValue k) = .yes ↔ key row = k)

-- A row that is not soft-deleted and that the filter lets through.
def chosen (m : Model) (f : FilterNode S) (row : Row) : Bool :=
  answers.engine.holds answers.db answers.d answers.reading (m.env row) f &&
    row.live m.deletedAtColumn

-- A row whose column compares equal to a key.
def linked (column : String) (toValue : Key → Value) (k : Key) (row : Row) : Bool :=
  answers.engine.compare .eq (row column) (toValue k) = .yes

-- A statement for so many keys does not bind too much.
def fits (filter : FilterNode S) (order : List OrderBy) (keys : Nat) : Prop :=
  keys + filterBinds answers.size answers.d filter + orderBinds answers.size answers.d order
    ≤ maxQueryParams answers.d

end Answers

variable {answers : Answers S} {m : Model} {column : String} {key : Row → Key}
  {toValue : Key → Value} {filter : FilterNode S} {order : List OrderBy} {keys : List Key}

theorem Answers.Matches.linked_iff (h : answers.Matches m column key toValue) {row : Row}
    (hrow : row ∈ answers.db m.table) (k : Key) :
    answers.linked column toValue k row = true ↔ (toValue k).isNull = false ∧ key row = k := by
  rw [linked, decide_eq_true_iff]
  cases hnull : (toValue k).isNull
  · simpa using h row hrow k hnull
  · rw [compare_isNull hnull]
    simp

section Chosen

variable {engine : Engine} {db : Database} {d : Dialect} {reading : S → List Word}

theorem contained_in (table column : String) (values : List Value) (negated : Bool) :
    Contained (language d)
      ((FilterNode.in_ table column values negated : FilterNode S).words d reading) := by
  rw [words_in]
  exact (tight_column (tight_in values negated)).contained

theorem steady_in (table column : String) (values : List Value) (negated : Bool) :
    (FilterNode.in_ table column values negated : FilterNode S).Steady d reading := by
  intro node hnode
  obtain rfl := List.mem_singleton.mp hnode
  exact contained_in table column values negated

theorem holds_inSet (hne : keys ≠ []) (row : Row) :
    engine.holds db d reading (m.env row) (inSet m column toValue keys)
      = keys.any fun k => engine.compare .eq (row column) (toValue k) = .yes := by
  have hvalues : keys.map toValue = [] → d = .sqlite := fun h => absurd (List.map_eq_nil_iff.mp h) hne
  have htruth : engine.truth db d (m.env row) ((inSet m column toValue keys).words d reading) = _ :=
    truth_words (.in_ m.table column false hvalues) _
  rw [Engine.holds, htruth, Bool.eq_iff_iff, decide_eq_true_iff, List.any_eq_true]
  simp [FilterNode.meaning, Truth.negate, Engine.isIn, Model.env, Env.bind]

theorem steady_liveRows : (liveRows m : FilterNode S).Steady d reading := by
  rw [liveRows]
  split
  · exact FilterNode.steady_null _ _ _
  · exact FilterNode.steady_nil

theorem holds_liveRows (row : Row) :
    engine.holds db d reading (m.env row) (liveRows m : FilterNode S)
      = row.live m.deletedAtColumn := by
  rw [liveRows, Row.live]
  cases m.deletedAtColumn with
  | none => exact holds_and fun _ => FilterNode.steady_nil
  | some column => simp [holds_null, Model.env, Env.bind]

theorem filterBinds_liveRows {size : S → Nat} :
    filterBinds size d (liveRows m : FilterNode S) = 0 := by
  rw [liveRows]
  split
  · exact filterBinds_null _ _ _
  · exact filterBinds_nil

end Chosen

-- Rows of queries without a join.
theorem returns_alone {q : SelectQuery S} (hjoin : q.join = none) {rows : List Row} :
    answers.Returns q rows ↔ binds answers.size (q.pushes answers.d) ≤ maxQueryParams answers.d ∧
      rows.Perm (tableRows answers.engine answers.db answers.d answers.reading q.model
        q.effectiveFilter) ∧
      rows.Pairwise (answers.before q.order) := by
  have hinj : Function.Injective fun row : Row => ((some row, none) : Combination) :=
    fun a b h => by simpa using h
  rw [Answers.Returns, SelectQuery.rows_alone hjoin, alone, List.map_perm_map_iff hinj]

namespace SelectQuery

-- The calls of chunkCalls, one after another.
theorem built_chunk : (built m (chunkCalls m column toValue filter order keys) : SelectQuery S) =
    { (new m : SelectQuery S) with
      filter := if filter.isTrivial then .and [inSet m column toValue keys]
        else Filter.and (.and [inSet m column toValue keys]) filter
      order := order } := by
  have horder : ∀ (order : List OrderBy) (q : SelectQuery S),
      (order.map SelectCall.orderBy).foldl call q = { q with order := q.order ++ order } := by
    intro order
    induction order with
    | nil => simp
    | cons first rest ih =>
        intro q
        rw [List.map_cons, List.foldl_cons, ih]
        simp [call]
  rw [built, chunkCalls, List.cons_append, List.foldl_cons, List.foldl_append, horder]
  cases filter.isTrivial <;>
    simp [call, new, Filter.and_eq, FilterNode.conjuncts, inSet]

theorem filter_chunk : (built m (chunkCalls m column toValue filter order keys)).filter
    = if filter.isTrivial then .and [inSet m column toValue keys]
      else Filter.and (.and [inSet m column toValue keys]) filter := by
  rw [built_chunk]

theorem order_chunk :
    (built m (chunkCalls m column toValue filter order keys)).order = order := by
  rw [built_chunk]

theorem binds_chunk {size : S → Nat} {d : Dialect} :
    filterBinds size d (built m (chunkCalls m column toValue filter order keys)).filter
      = keys.length + filterBinds size d filter := by
  have hset : filterBinds size d (.and [inSet m column toValue keys] : FilterNode S) = keys.length := by
    have hvalues : filterBinds size d (inSet m column toValue keys : FilterNode S)
        = (keys.map toValue).length := filterBinds_in _ _ _ _
    rw [filterBinds, pushFilter_and, binds_joined, ← List.length_map toValue, ← hvalues]
    simp [filterBinds]
  rw [filter_chunk]
  split
  · next htrivial => rw [hset, FilterNode.eq_and_nil htrivial, filterBinds_nil, Nat.add_zero]
  · rw [filterBinds_and, hset]

-- A query that neither shows deleted rows nor asks for them.
structure Shown (d : Dialect) (reading : S → List Word) (q : SelectQuery S) : Prop where
  join : q.join = none
  projection : q.projection = []
  limit : q.limit = none
  offset : q.offset = none
  distinct : q.distinct = false
  withDeleted : q.withDeleted = false
  onlyDeleted : q.onlyDeleted = false
  filter : q.filter.Steady d reading

variable {q : SelectQuery S}

theorem Shown.effective {d : Dialect} {reading : S → List Word} (h : q.Shown d reading) :
    q.effectiveFilter = if q.model.deletedAtColumn.isSome then Filter.and q.filter (liveRows q.model)
      else q.filter := by
  rw [effectiveFilter, liveRows]
  cases q.model.deletedAtColumn <;> simp [h.withDeleted, h.onlyDeleted]

theorem Shown.tableRows {d : Dialect} {reading : S → List Word} (h : q.Shown d reading)
    {engine : Engine} {db : Database} :
    tableRows engine db d reading q.model q.effectiveFilter
      = (db q.model.table).filter fun row =>
          engine.holds db d reading (q.model.env row) q.filter && row.live q.model.deletedAtColumn := by
  refine List.filter_congr fun row _ => ?_
  rw [h.effective]
  cases hdeleted : q.model.deletedAtColumn with
  | none =>
      have hlive : row.live none = true := rfl
      simp [h.filter.keeps, hlive]
  | some column =>
      rw [Option.isSome_some, if_pos rfl, (h.filter.and steady_liveRows).keeps,
        h.filter.holds_and steady_liveRows, holds_liveRows, hdeleted]

theorem Shown.binds {d : Dialect} {reading : S → List Word} (h : q.Shown d reading)
    {size : S → Nat} :
    binds size (q.pushes d) = filterBinds size d q.filter + orderBinds size d q.order := by
  rw [pushes, h.join, h.projection, h.limit, h.offset, h.distinct, binds_select, h.effective]
  split
  · rw [filterBinds_and, filterBinds_liveRows, Nat.add_zero]
  · rfl

theorem shown_new {d : Dialect} {reading : S → List Word} : (new m : SelectQuery S).Shown d reading :=
  ⟨rfl, rfl, rfl, rfl, rfl, rfl, rfl, FilterNode.steady_nil⟩

theorem steady_set {d : Dialect} {reading : S → List Word} :
    (FilterNode.and [inSet m column toValue keys] : FilterNode S).Steady d reading := by
  intro node hnode
  obtain rfl := List.mem_singleton.mp hnode
  exact contained_in _ _ _ _

theorem shown_chunk {d : Dialect} {reading : S → List Word} (hfilter : filter.Steady d reading) :
    (built m (chunkCalls m column toValue filter order keys)).Shown d reading := by
  have hparts : (built m (chunkCalls m column toValue filter order keys)).filter.Steady d reading := by
    rw [filter_chunk]
    split
    · exact steady_set
    · exact steady_set.and hfilter
  rw [built_chunk] at hparts ⊢
  exact ⟨rfl, rfl, rfl, rfl, rfl, rfl, rfl, hparts⟩

theorem holds_chunk {engine : Engine} {db : Database} {d : Dialect} {reading : S → List Word}
    (hfilter : filter.Steady d reading) (hne : keys ≠ []) (row : Row) :
    engine.holds db d reading (m.env row)
        (built m (chunkCalls m column toValue filter order keys)).filter
      = ((keys.any fun k => engine.compare .eq (row column) (toValue k) = .yes) &&
          engine.holds db d reading (m.env row) filter) := by
  have hset : engine.holds db d reading (m.env row)
      (.and [inSet m column toValue keys] : FilterNode S)
        = [inSet m column toValue keys].all (engine.holds db d reading (m.env row)) :=
    holds_and fun _ => steady_set
  rw [List.all_cons, List.all_nil, Bool.and_true, holds_inSet hne] at hset
  rw [filter_chunk]
  split
  · next htrivial =>
      have hall : engine.holds db d reading (m.env row) (.and [] : FilterNode S) = true :=
        holds_and fun _ => FilterNode.steady_nil
      rw [FilterNode.eq_and_nil htrivial, hset, hall, Bool.and_true]
  · rw [steady_set.holds_and hfilter, hset]

end SelectQuery

section

variable [DecidableEq Key]

namespace Answers

variable (answers)

-- The rows that belong to one of the keys.
def keyed (m : Model) (key : Row → Key) (toValue : Key → Value) (filter : FilterNode S)
    (keys : List Key) : List Row :=
  (answers.db m.table).filter fun row =>
    key row ∈ keys && (!(toValue (key row)).isNull && answers.chosen m filter row)

-- The rows that are related to a key.
def related (m : Model) (column : String) (toValue : Key → Value) (filter : FilterNode S) (k : Key) :
    List Row :=
  (answers.db m.table).filter fun row => answers.linked column toValue k row && answers.chosen m filter row

variable {answers}

theorem any_linked (h : answers.Matches m column key toValue) {row : Row}
    (hrow : row ∈ answers.db m.table) :
    (keys.any fun k => answers.linked column toValue k row)
      = (decide (key row ∈ keys) && !(toValue (key row)).isNull) := by
  rw [Bool.eq_iff_iff, List.any_eq_true]
  simp only [h.linked_iff hrow, Bool.and_eq_true, decide_eq_true_iff, Bool.not_eq_true']
  constructor
  · rintro ⟨k, hk, hnull, rfl⟩
    exact ⟨hk, hnull⟩
  · rintro ⟨hk, hnull⟩
    exact ⟨_, hk, hnull, rfl⟩

theorem filter_keyed (h : answers.Matches m column key toValue) {k : Key} (hk : k ∈ keys) :
    (answers.keyed m key toValue filter keys).filter (fun row => key row = k)
      = answers.related m column toValue filter k := by
  rw [keyed, related, List.filter_filter]
  refine List.filter_congr fun row hrow => ?_
  have hlinked := h.linked_iff hrow k
  by_cases heq : key row = k
  · subst heq
    cases hnull : (toValue (key row)).isNull <;> simp_all
  · simp_all

theorem key_mem_keyed {row : Row} (h : row ∈ answers.keyed m key toValue filter keys) :
    key row ∈ keys := by
  rw [keyed, List.mem_filter, Bool.and_eq_true, decide_eq_true_iff] at h
  exact h.2.1

-- A piece of the keys is fetched with one statement.
theorem returns_chunk (h : answers.Matches m column key toValue)
    (hfilter : filter.Steady answers.d answers.reading) (hne : keys ≠ []) {rows : List Row} :
    answers.Returns (SelectQuery.built m (chunkCalls m column toValue filter order keys)) rows ↔
      answers.fits filter order keys.length ∧
      rows.Perm (answers.keyed m key toValue filter keys) ∧ rows.Pairwise (answers.before order) := by
  have hshown : (SelectQuery.built m (chunkCalls m column toValue filter order keys)).Shown
      answers.d answers.reading := SelectQuery.shown_chunk hfilter
  have hbinds : binds answers.size
      ((SelectQuery.built m (chunkCalls m column toValue filter order keys)).pushes answers.d)
      = keys.length + filterBinds answers.size answers.d filter
        + orderBinds answers.size answers.d order := by
    rw [hshown.binds, SelectQuery.binds_chunk, SelectQuery.order_chunk]
  have hrows : tableRows answers.engine answers.db answers.d answers.reading
      (SelectQuery.built m (chunkCalls m column toValue filter order keys)).model
      (SelectQuery.built m (chunkCalls m column toValue filter order keys)).effectiveFilter
      = answers.keyed m key toValue filter keys := by
    rw [hshown.tableRows, SelectQuery.model_built]
    refine List.filter_congr fun row hrow => ?_
    have hany : (keys.any fun k => answers.linked column toValue k row) = _ := any_linked h hrow
    simp only [linked] at hany
    rw [SelectQuery.holds_chunk hfilter hne, hany, chosen, Bool.and_assoc, Bool.and_assoc]
  rw [returns_alone hshown.join, hbinds, hrows, SelectQuery.order_chunk, fits]

-- And so are the first rows of each key.
theorem partitions_chunk (h : answers.Matches m column key toValue)
    (hfilter : filter.Steady answers.d answers.reading) (hne : keys ≠ []) {n : Nat}
    {rows : List Row} :
    answers.Partitions m column key
        (Filter.and (Filter.and filter (liveRows m)) (inSet m column toValue keys)) order n rows ↔
      answers.fits filter order keys.length ∧
      ∀ k, ∃ sorted : List Row,
        sorted.Perm ((answers.keyed m key toValue filter keys).filter fun row => key row = k) ∧
        sorted.Pairwise (answers.before (windowOrder m order)) ∧
        rows.filter (fun row => key row = k) = sorted.take n := by
  have hlive : (Filter.and filter (liveRows m)).Steady answers.d answers.reading :=
    hfilter.and steady_liveRows
  have hset : (inSet m column toValue keys : FilterNode S).Steady answers.d answers.reading :=
    steady_in _ _ _ _
  have hrows : tableRows answers.engine answers.db answers.d answers.reading m
      (Filter.and (Filter.and filter (liveRows m)) (inSet m column toValue keys))
      = answers.keyed m key toValue filter keys := by
    refine List.filter_congr fun row hrow => ?_
    have hany : (keys.any fun k => answers.linked column toValue k row) = _ := any_linked h hrow
    simp only [linked] at hany
    rw [(hlive.and hset).keeps, hlive.holds_and hset, hfilter.holds_and steady_liveRows,
      holds_liveRows, holds_inSet hne, hany, chosen, Bool.and_comm, Bool.and_assoc]
  have hbinds : binds answers.size (selectPartitioned answers.d m column
      (Filter.and (Filter.and filter (liveRows m)) (inSet m column toValue keys)) order n)
      = keys.length + filterBinds answers.size answers.d filter
        + orderBinds answers.size answers.d order := by
    have hvalues : filterBinds answers.size answers.d (inSet m column toValue keys : FilterNode S)
        = (keys.map toValue).length := filterBinds_in _ _ _ _
    rw [binds_selectPartitioned, filterBinds_and, filterBinds_and, filterBinds_liveRows, hvalues,
      List.length_map]
    omega
  rw [Partitions, hrows, hbinds, fits]

end Answers

end

end Ruprizzle.Runtime
