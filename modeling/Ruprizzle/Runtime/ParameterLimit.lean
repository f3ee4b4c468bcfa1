import Ruprizzle.Runtime.BulkInserts
import Ruprizzle.Runtime.ManyToMany
import Ruprizzle.Runtime.RelationWrites

namespace Ruprizzle.Runtime

open Batches

-- The statements of everything that works on lists of any length, and how many values
-- each of them binds.

variable {S M Key CKey C : Type}

namespace Include

variable (d : Dialect) (inc : Include S M Key)

-- Where the child table may be read as a whole, its rows are counted first.
def counts (fullTable : Bool) (fullTableLimit : Int) : Bool :=
  fullTable && decide (0 < fullTableLimit) && inc.filter.isTrivial && inc.order.isEmpty &&
    inc.limit.isNone

def readsWhole (fullTable : Bool) (fullTableLimit childCount : Int) : Bool :=
  inc.counts fullTable fullTableLimit && decide (childCount ≤ fullTableLimit)

def statement (keys : List Key) : List (Push S) :=
  match inc.limit with
  | some n => selectPartitioned d inc.child inc.childColumn (inc.combined keys) inc.order n
  | none => (SelectQuery.built inc.child
      (chunkCalls inc.child inc.childColumn inc.toValue inc.filter inc.order keys)).pushes d

def statements [DecidableEq Key] (fullTable : Bool) (fullTableLimit childCount : Int)
    (keys : List Key) : List (List (Push S)) :=
  let whole : SelectQuery S := SelectQuery.new inc.child
  (if inc.counts fullTable fullTableLimit then [count d inc.child.table whole.effectiveFilter] else []) ++
    if inc.readsWhole fullTable fullTableLimit childCount then [whole.pushes d]
    else (chunks (chunkSize d) (dedup keys)).map (inc.statement d)

end Include

namespace IncludeMany

variable (d : Dialect) (inc : IncludeMany S M Key CKey)

def joinStatement (keys : List Key) : List (Push S) :=
  (SelectQuery.built inc.join
    (.filter (inSet inc.join inc.joinOwnerCol inc.toValue keys) :: inc.joinOrder.map .orderBy)).pushes d

def targetStatement (keys : List CKey) : List (Push S) :=
  (SelectQuery.built inc.child
    (chunkCalls inc.child inc.targetPk inc.targetValue inc.filter inc.order keys)).pushes d

-- The targets of the join rows that were loaded.
def statements [DecidableEq Key] [DecidableEq CKey] (keys : List Key) (joinRows : List Row) :
    List (List (Push S)) :=
  (chunks (chunkSize d) (dedup keys)).map (inc.joinStatement d) ++
    (chunks (chunkSize d) (dedup (joinRows.map inc.joinTarget))).map (inc.targetStatement d)

end IncludeMany

def shownColumns (columns : List String) : List String := if columns.isEmpty then ["*"] else columns

def pushShown (columns : List String) : List (Push S) :=
  separated ", " (columns.map fun col => if col = "*" then [.str "*"] else [.quoted col])

namespace InsertManyQuery

variable (d : Dialect) (q : InsertManyQuery C)

def readBackStatement (chunk : List (List (String × Value))) : List (Push S) :=
  let shown : List (Push S) := .str "SELECT " :: pushShown (shownColumns q.columns) ++
    [.str " FROM ", .quoted q.table]
  match q.keys chunk with
  | some keys => List.flatten [shown, [.str " WHERE ", .quoted q.primaryKey, .str " IN ("],
      pushBinds keys, [.str ") ORDER BY ", .quoted q.primaryKey]]
  | none => List.flatten [shown, [.str "                          WHERE ", .quoted q.primaryKey,
      .str " BETWEEN LAST_INSERT_ID() AND LAST_INSERT_ID() + ", .str (toString (chunk.length - 1)),
      .str "                          ORDER BY ", .quoted q.primaryKey]]

def statements : List (List (Push S)) :=
  if q.rows.isEmpty || q.rows.any List.isEmpty || !sameShape q.rows then []
  else (chunks (rowsPerChunk d q.rows) q.rows).flatMap fun chunk =>
    insertMany d q.table chunk (shownColumns q.columns) ::
      if d = .mysql then [q.readBackStatement chunk] else []

end InsertManyQuery

-- The columns of the parent are what is asked to be returned.
def NestedInsert.statements (d : Dialect) (n : NestedInsert) (columns : List String) (pk : Value) :
    List (List (Push S)) :=
  if n.childRows.isEmpty || n.childRows.any List.isEmpty || !sameShape n.childRows then []
  else (chunks (rowsPerChunk d (n.rows pk)) (n.rows pk)).map (fun chunk =>
      insertMany d n.childTable chunk (shownColumns columns)) ++
    if d = .mysql then [[.str "SELECT * FROM ", .quoted n.childTable, .str " WHERE ",
      .quoted n.childFkCol, .str " = ", .bind pk]] else []

namespace M2mWrite

variable (d : Dialect) (w : M2mWrite C)

def linkRows (pk : Value) : List (List (String × Value)) :=
  w.targetIds.map fun tid => [(w.joinOwnerCol, pk), (w.joinTargetCol, tid)]

def insertStatements (pk : Value) : List (List (Push S)) :=
  if w.targetIds.isEmpty then [] else [insertMany d w.joinTable (w.linkRows pk) []]

def loadStatement : List (Push S) :=
  select d w.target w.target.columns w.targets [] none none false

end M2mWrite

-- Whatever is given a list that may be longer than a database takes values.
inductive ListWork (S M Key CKey C : Type)
  | fetchChildren (inc : Include S M Key) (fullTable : Bool) (fullTableLimit childCount : Int)
      (keys : List Key)
  | includeMany (inc : IncludeMany S M Key CKey) (keys : List Key) (joinRows : List Row)
  | insertMany (q : InsertManyQuery C)
  | insertNested (n : NestedInsert) (columns : List String) (pk : Value)
  | insertJoins (w : M2mWrite C) (pk : Value)
  | loadTargets (w : M2mWrite C)

namespace ListWork

variable [DecidableEq Key] [DecidableEq CKey]

def statements (d : Dialect) : ListWork S M Key CKey C → List (List (Push S))
  | fetchChildren inc fullTable fullTableLimit childCount keys =>
      inc.statements d fullTable fullTableLimit childCount keys
  | includeMany inc keys joinRows => inc.statements d keys joinRows
  | insertMany q => q.statements d
  | insertNested n columns pk => n.statements d columns pk
  | insertJoins w pk => w.insertStatements d pk
  | loadTargets w => [w.loadStatement d]

-- Ten values are left for the filter of an include, whatever it binds. Rows are counted
-- with the foreign key that is added to them; links and the ids of their targets are
-- not split at all.
def Fits (size : S → Nat) (d : Dialect) : ListWork S M Key CKey C → Prop
  | fetchChildren inc fullTable fullTableLimit childCount keys =>
      inc.readsWhole fullTable fullTableLimit childCount = true ∨ keys = [] ∨
        min (chunkSize d) (dedup keys).length +
          (filterBinds size d inc.filter + orderBinds size d inc.order) ≤ maxQueryParams d
  | includeMany inc _ joinRows => joinRows = [] ∨
      min (chunkSize d) (dedup (joinRows.map inc.joinTarget)).length +
        (filterBinds size d inc.filter + orderBinds size d inc.order) ≤ maxQueryParams d
  | insertMany q => sameShape q.rows = true → q.rows.any List.isEmpty = false →
      (q.rows.headD []).length ≤ maxQueryParams d
  | insertNested n _ _ => n.childRows ≠ [] → sameShape n.childRows = true →
      n.childRows.any List.isEmpty = false →
      (n.childRows.headD []).length + 1 ≤ maxQueryParams d
  | insertJoins w _ => 2 * w.targetIds.length ≤ maxQueryParams d
  | loadTargets w => w.targetIds.length ≤ maxQueryParams d

end ListWork

section

variable {size : S → Nat} {d : Dialect}

-- Soft deletes bind nothing.
theorem filterBinds_effective (q : SelectQuery S) :
    filterBinds size d q.effectiveFilter = filterBinds size d q.filter := by
  rw [SelectQuery.effectiveFilter]
  split
  · next col _ =>
      split
      · rfl
      · rw [filterBinds_and, filterBinds_null, Nat.add_zero]
  · rfl

theorem binds_built (m : Model) (column : String) (toValue : Key → Value) (filter : FilterNode S)
    (order : List OrderBy) (keys : List Key) :
    binds size ((SelectQuery.built m (chunkCalls m column toValue filter order keys)).pushes d)
      = keys.length + (filterBinds size d filter + orderBinds size d order) := by
  have hfilter : filterBinds size d (SelectQuery.built m
      (chunkCalls m column toValue filter order keys)).filter = keys.length + filterBinds size d filter :=
    SelectQuery.binds_chunk
  have heffective : filterBinds size d (SelectQuery.built m
      (chunkCalls m column toValue filter order keys)).effectiveFilter = _ := filterBinds_effective _
  rw [hfilter] at heffective
  rw [SelectQuery.built_chunk] at heffective ⊢
  show binds size (select d m [] _ order none none false) = _
  rw [binds_select, heffective, Nat.add_assoc]

theorem binds_new (m : Model) : binds size ((SelectQuery.new m : SelectQuery S).pushes d) = 0 := by
  show binds size (select d m [] (SelectQuery.new m : SelectQuery S).effectiveFilter [] none none false) = 0
  rw [binds_select, filterBinds_effective]
  exact congrArg (· + 0) filterBinds_nil

theorem binds_count (table : String) (filter : FilterNode S) :
    binds size (count d table filter) = filterBinds size d filter := by
  rw [count, binds, binds, binds_pushWhere]
  simp [Push.bindCount]

namespace Include

variable (inc : Include S M Key)

theorem binds_statement (keys : List Key) : binds size (inc.statement d keys)
    = keys.length + (filterBinds size d inc.filter + orderBinds size d inc.order) := by
  rw [statement]
  split
  · have hset : filterBinds size d (inSet inc.child inc.childColumn inc.toValue keys : FilterNode S)
        = (keys.map inc.toValue).length := filterBinds_in _ _ _ _
    rw [binds_selectPartitioned, combined, filterBinds_and, filterBinds_and, filterBinds_liveRows,
      hset, List.length_map]
    omega
  · exact binds_built _ _ _ _ _ _

variable [DecidableEq Key] {fullTable : Bool} {fullTableLimit childCount : Int} {keys : List Key}

theorem dedup_eq_nil {keys : List Key} : dedup keys = [] ↔ keys = [] := by
  rw [List.eq_nil_iff_forall_not_mem, List.eq_nil_iff_forall_not_mem]
  simp only [mem_dedup]

theorem within_iff :
    (∀ st ∈ inc.statements d fullTable fullTableLimit childCount keys,
      binds size st ≤ maxQueryParams d) ↔
    inc.readsWhole fullTable fullTableLimit childCount = true ∨ keys = [] ∨
      min (chunkSize d) (dedup keys).length +
        (filterBinds size d inc.filter + orderBinds size d inc.order) ≤ maxQueryParams d := by
  have hcount : binds size (count d inc.child.table
      (SelectQuery.new inc.child : SelectQuery S).effectiveFilter) = 0 := by
    rw [binds_count, filterBinds_effective]
    exact filterBinds_nil
  have hfirst : ∀ st ∈ (if inc.counts fullTable fullTableLimit then
      [count d inc.child.table (SelectQuery.new inc.child : SelectQuery S).effectiveFilter] else []),
      binds size st ≤ maxQueryParams d := by
    intro st hst
    split at hst
    · rw [List.mem_singleton.mp hst, hcount]
      exact Nat.zero_le _
    · exact absurd hst List.not_mem_nil
  have hchunks : (∀ piece ∈ chunks (chunkSize d) (dedup keys), piece.length +
      (filterBinds size d inc.filter + orderBinds size d inc.order) ≤ maxQueryParams d) ↔ _ :=
    chunks_within (chunkSize_pos d)
  rw [dedup_eq_nil] at hchunks
  rw [statements, List.forall_mem_append, and_iff_right hfirst]
  cases hwhole : inc.readsWhole fullTable fullTableLimit childCount with
  | true =>
      rw [if_pos rfl, List.forall_mem_singleton, binds_new]
      exact iff_of_true (Nat.zero_le _) (.inl rfl)
  | false =>
      rw [if_neg (by simp), List.forall_mem_map, ← hchunks]
      simp only [binds_statement, Bool.false_eq_true, false_or]

end Include

namespace IncludeMany

variable (inc : IncludeMany S M Key CKey)

theorem binds_joinStatement (keys : List Key) :
    binds size (inc.joinStatement d keys) = keys.length := by
  have hbuilt : binds size (inc.joinStatement d keys)
      = keys.length + (filterBinds size d (.and [] : FilterNode S) + orderBinds size d inc.joinOrder) :=
    binds_built inc.join inc.joinOwnerCol inc.toValue (.and []) inc.joinOrder keys
  have horder : orderBinds size d inc.joinOrder = 0 := by
    simp [orderBinds, joinOrder, pushOrder, separated, pushOrderItem, pushOrderKey, pushColumn, binds,
      Push.bindCount]
  rw [hbuilt, horder, filterBinds_nil]
  rfl

theorem binds_targetStatement (keys : List CKey) : binds size (inc.targetStatement d keys)
    = keys.length + (filterBinds size d inc.filter + orderBinds size d inc.order) :=
  binds_built _ _ _ _ _ _

theorem chunkSize_le (d : Dialect) : chunkSize d ≤ maxQueryParams d := by
  cases d <;> decide

variable [DecidableEq Key] [DecidableEq CKey]

theorem within_iff {keys : List Key} {joinRows : List Row} :
    (∀ st ∈ inc.statements d keys joinRows, binds size st ≤ maxQueryParams d) ↔
    joinRows = [] ∨ min (chunkSize d) (dedup (joinRows.map inc.joinTarget)).length +
      (filterBinds size d inc.filter + orderBinds size d inc.order) ≤ maxQueryParams d := by
  have hjoins : ∀ st ∈ (chunks (chunkSize d) (dedup keys)).map (inc.joinStatement d),
      binds size st ≤ maxQueryParams d := by
    rw [List.forall_mem_map]
    intro piece hpiece
    rw [binds_joinStatement]
    exact Nat.le_trans (length_chunk hpiece) (chunkSize_le d)
  have hchunks : (∀ piece ∈ chunks (chunkSize d) (dedup (joinRows.map inc.joinTarget)), piece.length +
      (filterBinds size d inc.filter + orderBinds size d inc.order) ≤ maxQueryParams d) ↔ _ :=
    chunks_within (Include.chunkSize_pos d)
  rw [Include.dedup_eq_nil, List.map_eq_nil_iff] at hchunks
  rw [statements, List.forall_mem_append, and_iff_right hjoins, List.forall_mem_map, ← hchunks]
  simp only [binds_targetStatement]

end IncludeMany

theorem binds_pushBinds (values : List Value) : binds size (pushBinds values) = values.length := by
  rw [pushBinds, binds_separated]
  induction values with
  | nil => rfl
  | cons v rest ih =>
      rw [List.map_cons, List.flatten_cons, binds_append, ih, List.length_cons]
      simp [binds, Push.bindCount, Nat.add_comm]

theorem binds_pushRow (values : List Value) : binds size (pushRow values) = values.length := by
  rw [pushRow, List.cons_append, binds, binds_append, binds_pushBinds]
  simp [binds, Push.bindCount]

theorem binds_pushNames (names : List String) : binds size (pushNames names) = 0 := by
  rw [pushNames, binds_separated]
  refine binds_flatten_zero fun item hitem => ?_
  obtain ⟨name, -, rfl⟩ := List.mem_map.mp hitem
  rfl

theorem binds_pushShown (columns : List String) : binds size (pushShown columns) = 0 := by
  rw [pushShown, binds_separated]
  refine binds_flatten_zero fun item hitem => ?_
  obtain ⟨column, -, rfl⟩ := List.mem_map.mp hitem
  split <;> rfl

theorem binds_pushReturning (returning : List String) : binds size (pushReturning d returning) = 0 := by
  rw [pushReturning]
  split
  · rfl
  · rw [binds]
    have hnames : binds size (pushShown returning) = 0 := binds_pushShown returning
    rw [pushShown] at hnames
    rw [hnames]
    rfl

-- An insert binds the values of all its rows.
theorem binds_insertMany (table : String) (rows : List (List (String × Value)))
    (returning : List String) :
    binds size (insertMany d table rows returning) = rows.flatten.length := by
  have hrows : ∀ rows : List (List (String × Value)),
      binds size (separated ", " (rows.map fun row => pushRow (row.map Prod.snd))) = rows.flatten.length := by
    intro rows
    rw [binds_separated]
    induction rows with
    | nil => rfl
    | cons row rest ih =>
        rw [List.map_cons, List.flatten_cons, binds_append, binds_pushRow, ih, List.flatten_cons,
          List.length_append, List.length_map]
  cases rows with
  | nil => rfl
  | cons first rest =>
      simp only [insertMany, List.flatten_cons, List.flatten_nil, List.append_nil, binds_append, hrows,
        binds_pushReturning, pushInsertInto, binds, binds_pushNames, Push.bindCount]
      omega

theorem length_flatten {α : Type} {w : Nat} {rows : List (List α)} (h : ∀ row ∈ rows, row.length = w) :
    rows.flatten.length = rows.length * w := by
  induction rows with
  | nil => simp
  | cons row rest ih =>
      obtain ⟨hrow, hrest⟩ := List.forall_mem_cons.mp h
      rw [List.flatten_cons, List.length_append, hrow, ih hrest, List.length_cons, Nat.succ_mul,
        Nat.add_comm]

theorem length_of_shape {rows : List (List (String × Value))} (h : sameShape rows = true) :
    ∀ row ∈ rows, row.length = (rows.headD []).length := by
  intro row hrow
  have hsame := List.all_eq_true.mp h row hrow
  have hlength := congrArg List.length (of_decide_eq_true hsame)
  rwa [List.length_map, List.length_map] at hlength

-- Rows of one width, none of them empty, in pieces: a piece has room unless a single
-- row has none.
theorem pieces_within {rows : List (List (String × Value))} (hne : rows ≠ [])
    (hshape : sameShape rows = true) (hfull : rows.any List.isEmpty = false) :
    (∀ piece ∈ chunks (rowsPerChunk d rows) rows, piece.flatten.length ≤ maxQueryParams d) ↔
      (rows.headD []).length ≤ maxQueryParams d := by
  have hwidth := length_of_shape hshape
  have hpositive : 0 < (rows.headD []).length := by
    obtain ⟨first, rest, rfl⟩ := List.exists_cons_of_ne_nil hne
    rw [List.any_cons, Bool.or_eq_false_iff, List.isEmpty_eq_false_iff] at hfull
    exact List.length_pos_of_ne_nil hfull.1
  have hsize : 0 < rowsPerChunk d rows := Nat.lt_of_lt_of_le Nat.one_pos (Nat.le_max_right _ _)
  have hvalues : ∀ piece ∈ chunks (rowsPerChunk d rows) rows,
      piece.flatten.length = piece.length * (rows.headD []).length := by
    intro piece hpiece
    refine length_flatten fun row hrow => hwidth row ?_
    rw [← flatten_chunks hsize rows]
    exact List.mem_flatten.mpr ⟨piece, hpiece, hrow⟩
  constructor
  · intro h
    have hfirst : rows.take (rowsPerChunk d rows) ∈ chunks (rowsPerChunk d rows) rows :=
      take_mem_chunks hne
    have hwithin := h _ hfirst
    have hsome := List.length_pos_of_ne_nil (chunk_ne_nil hsize hfirst)
    rw [hvalues _ hfirst] at hwithin
    exact Nat.le_trans (Nat.le_mul_of_pos_left _ hsome) hwithin
  · intro h piece hpiece
    rw [hvalues piece hpiece]
    have hrows : rowsPerChunk d rows = maxQueryParams d / (rows.headD []).length := by
      rw [rowsPerChunk, Nat.max_eq_left hpositive]
      exact Nat.max_eq_left (Nat.div_pos h hpositive)
    have hlength := length_chunk hpiece
    rw [hrows] at hlength
    exact Nat.le_trans (Nat.mul_le_mul_right _ hlength) (Nat.div_mul_le_self _ _)

theorem rowsPerChunk_le (rows : List (List (String × Value))) : rowsPerChunk d rows ≤ maxQueryParams d := by
  have hone : 1 ≤ maxQueryParams d := by
    cases d <;> decide
  exact Nat.max_le.mpr ⟨Nat.div_le_self _ _, hone⟩

namespace InsertManyQuery

variable (q : InsertManyQuery C)

theorem length_keys {chunk : List (List (String × Value))} {keys : List Value}
    (h : q.keys chunk = some keys) : keys.length = chunk.length := by
  rw [InsertManyQuery.keys] at h
  induction chunk generalizing keys with
  | nil =>
      obtain rfl : [] = keys := Option.some.inj h
      rfl
  | cons row rest ih =>
      rw [List.mapM_cons] at h
      obtain ⟨key, -, hmore⟩ := Option.bind_eq_some_iff.mp h
      obtain ⟨more, hrest, hcons⟩ := Option.bind_eq_some_iff.mp hmore
      obtain rfl : key :: more = keys := Option.some.inj hcons
      rw [List.length_cons, List.length_cons, ih hrest]

theorem binds_readBack (chunk : List (List (String × Value))) :
    binds size (q.readBackStatement (S := S) chunk) ≤ chunk.length := by
  rw [readBackStatement]
  split
  · next keys hkeys =>
      simp only [List.flatten_cons, List.flatten_nil, List.append_nil, List.cons_append, binds_append,
        binds, binds_pushShown, binds_pushBinds, Push.bindCount, q.length_keys hkeys]
      omega
  · simp only [List.flatten_cons, List.flatten_nil, List.append_nil, List.cons_append, binds_append,
      binds, binds_pushShown, Push.bindCount]
    omega

theorem within_iff : (∀ st ∈ q.statements d, binds size st ≤ maxQueryParams d) ↔
    (sameShape q.rows = true → q.rows.any List.isEmpty = false →
      (q.rows.headD []).length ≤ maxQueryParams d) := by
  rw [statements]
  by_cases hne : q.rows = []
  · simp [hne]
  cases hfull : q.rows.any List.isEmpty with
  | true => simp
  | false =>
  cases hshape : sameShape q.rows with
  | false => simp
  | true =>
      have hempty : q.rows.isEmpty = false := List.isEmpty_eq_false_iff.mpr hne
      rw [hempty, if_neg (by simp), ← pieces_within hne hshape hfull]
      constructor
      · intro h _ _ piece hpiece
        have hinsert := h _ (List.mem_flatMap.mpr ⟨piece, hpiece, List.mem_cons_self⟩)
        rwa [binds_insertMany] at hinsert
      · intro h st hst
        obtain ⟨piece, hpiece, hin⟩ := List.mem_flatMap.mp hst
        rcases List.mem_cons.mp hin with rfl | hread
        · rw [binds_insertMany]
          exact h rfl rfl piece hpiece
        · split at hread
          · rw [List.mem_singleton.mp hread]
            have hlength : piece.length ≤ maxQueryParams d :=
              Nat.le_trans (length_chunk hpiece) (rowsPerChunk_le q.rows)
            exact Nat.le_trans (q.binds_readBack piece) hlength
          · exact absurd hread List.not_mem_nil

end InsertManyQuery

namespace NestedInsert

variable (n : NestedInsert)

-- Every row is longer by the foreign key.
theorem rows_shape (pk : Value) (hne : n.childRows ≠ []) (h : sameShape n.childRows = true) :
    n.rows pk ≠ [] ∧ sameShape (n.rows pk) = true ∧ (n.rows pk).any List.isEmpty = false ∧
      ((n.rows pk).headD []).length = (n.childRows.headD []).length + 1 := by
  obtain ⟨first, rest, hrows⟩ := List.exists_cons_of_ne_nil hne
  refine ⟨by simp [rows, hrows], ?_, by simp [rows], by simp [rows, hrows]⟩
  rw [sameShape, List.all_eq_true] at h ⊢
  intro row hrow
  obtain ⟨given, hgiven, rfl⟩ := List.mem_map.mp hrow
  have hsame := of_decide_eq_true (h given hgiven)
  rw [decide_eq_true_iff]
  rw [hrows] at hsame
  simp [rows, hrows] at hsame ⊢
  exact hsame

theorem within_iff {columns : List String} {pk : Value} :
    (∀ st ∈ n.statements d columns pk, binds size st ≤ maxQueryParams d) ↔
    (n.childRows ≠ [] → sameShape n.childRows = true → n.childRows.any List.isEmpty = false →
      (n.childRows.headD []).length + 1 ≤ maxQueryParams d) := by
  rw [statements]
  by_cases hne : n.childRows = []
  · simp [hne]
  cases hfull : n.childRows.any List.isEmpty with
  | true => simp
  | false =>
  cases hshape : sameShape n.childRows with
  | false => simp
  | true =>
      have hempty : n.childRows.isEmpty = false := List.isEmpty_eq_false_iff.mpr hne
      obtain ⟨hrows, hsame, hall, hwidth⟩ := n.rows_shape pk hne hshape
      rw [hempty, if_neg (by simp), ← hwidth, ← pieces_within hrows hsame hall, List.forall_mem_append,
        List.forall_mem_map]
      simp only [binds_insertMany]
      constructor
      · intro h _ _ _
        exact h.1
      · intro h
        refine ⟨h hne trivial trivial, fun st hst => ?_⟩
        split at hst
        · rw [List.mem_singleton.mp hst]
          cases d <;> simp [binds, Push.bindCount, maxQueryParams]
        · exact absurd hst List.not_mem_nil

end NestedInsert

namespace M2mWrite

variable (w : M2mWrite C)

theorem insert_within_iff {pk : Value} :
    (∀ st ∈ w.insertStatements (S := S) d pk, binds size st ≤ maxQueryParams d) ↔
      2 * w.targetIds.length ≤ maxQueryParams d := by
  rw [insertStatements]
  by_cases hnone : w.targetIds = []
  · simp [hnone]
  · have hlength : (w.linkRows pk).flatten.length = (w.linkRows pk).length * 2 :=
      length_flatten fun row hrow => by
        obtain ⟨tid, -, rfl⟩ := List.mem_map.mp hrow
        rfl
    rw [List.isEmpty_eq_false_iff.mpr hnone, if_neg (by simp), List.forall_mem_singleton,
      binds_insertMany, hlength, linkRows, List.length_map, Nat.mul_comm]

theorem binds_loadStatement : binds size (w.loadStatement d) = w.targetIds.length := by
  rw [loadStatement, binds_select, targets, filterBinds_and, filterBinds_liveRows, filterBinds_in,
    Nat.zero_add]
  rfl

end M2mWrite

-- What stays within the parameter limit of a database, and what does not.
theorem ListWork.within_limit_iff [DecidableEq Key] [DecidableEq CKey] (size : S → Nat) (d : Dialect)
    (work : ListWork S M Key CKey C) :
    (∀ st ∈ work.statements d, binds size st ≤ maxQueryParams d) ↔ work.Fits size d := by
  cases work with
  | fetchChildren inc fullTable fullTableLimit childCount keys => exact inc.within_iff
  | includeMany inc keys joinRows => exact inc.within_iff
  | insertMany q => exact q.within_iff
  | insertNested n columns pk => exact n.within_iff
  | insertJoins w pk => exact w.insert_within_iff
  | loadTargets w =>
      rw [statements, List.forall_mem_singleton, w.binds_loadStatement]
      rfl

end

section Example

def postsModel : Model := ⟨"posts", ["id", "author_id"], "id", none⟩

-- Posts of authors, of which eleven values are asked for.
def postsWith (values : Nat) : Include Empty Nat Nat where
  getKey := id
  child := postsModel
  childColumn := "author_id"
  childKey := fun _ => 0
  toValue := fun key => .i64 key
  filter := .in_ "posts" "id" (List.replicate values .null) false
  order := []
  limit := none

def postTags (ids : Nat) : M2mWrite Unit where
  action := .attach
  joinTable := "post_tags"
  joinOwnerCol := "post_id"
  joinTargetCol := "tag_id"
  target := ⟨"tags", ["id"], "id", none⟩
  targetPkCol := "id"
  targetIds := List.replicate ids .null
  decode := fun _ => some ()

theorem postsWith_exceeds {values keys : Nat} (hvalues : 10 < values) (hkeys : 32756 ≤ keys) :
    ¬ ∀ st ∈ (postsWith values).statements .sqlite false 0 0 (List.range keys),
      binds (fun _ : Empty => 0) st ≤ maxQueryParams .sqlite := by
  have hdistinct : (dedup (List.range keys)).length = keys := by
    have hperm : (dedup (List.range keys)).Perm (List.range keys) :=
      (List.perm_ext_iff_of_nodup (nodup_dedup _) List.nodup_range).mpr fun _ => mem_dedup
    rw [hperm.length_eq, List.length_range]
  have hfilter : filterBinds (fun _ : Empty => 0) .sqlite (postsWith values).filter = values :=
    (filterBinds_in _ _ _ _).trans List.length_replicate
  have hlimit : maxQueryParams .sqlite = 32766 := rfl
  have hsize : chunkSize .sqlite = 32756 := rfl
  rw [Include.within_iff, hdistinct, hfilter, hlimit, hsize]
  rintro (hwhole | hnil | hroom)
  · exact Bool.noConfusion hwhole
  · have hlength := congrArg List.length hnil
    rw [List.length_range, List.length_nil] at hlength
    omega
  · omega

theorem postTags_exceeds {ids : Nat} (hids : 16383 < ids) (pk : Value) :
    ¬ ∀ st ∈ (postTags ids).insertStatements (S := Empty) .sqlite pk,
      binds (fun _ : Empty => 0) st ≤ maxQueryParams .sqlite := by
  have hlength : (postTags ids).targetIds.length = ids := List.length_replicate
  have hlimit : maxQueryParams .sqlite = 32766 := rfl
  rw [M2mWrite.insert_within_iff, hlength, hlimit]
  omega

-- Eleven values beside a full piece of keys, and links that are not split.
theorem limit_exceeded :
    (∃ st ∈ (postsWith 11).statements .sqlite false 0 0 (List.range 32756),
      maxQueryParams .sqlite < binds (fun _ : Empty => 0) st) ∧
    ∃ st ∈ (postTags 16384).insertStatements (S := Empty) .sqlite (.i64 1),
      maxQueryParams .sqlite < binds (fun _ : Empty => 0) st := by
  have hposts : ¬ ∀ st ∈ (postsWith 11).statements .sqlite false 0 0 (List.range 32756),
      binds (fun _ : Empty => 0) st ≤ maxQueryParams .sqlite :=
    postsWith_exceeds (by omega) (Nat.le_refl _)
  have htags : ¬ ∀ st ∈ (postTags 16384).insertStatements (S := Empty) .sqlite (.i64 1),
      binds (fun _ : Empty => 0) st ≤ maxQueryParams .sqlite :=
    postTags_exceeds (by omega) (.i64 1)
  push Not at hposts htags
  exact ⟨hposts, htags⟩

end Example

end Ruprizzle.Runtime
