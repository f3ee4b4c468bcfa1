import Ruprizzle.Runtime.Closed
import Ruprizzle.Runtime.Query

namespace Ruprizzle.Runtime

variable {S : Type} {d : Dialect} {sub : S → Prop}

-- The clauses of a statement. Each begins where nothing else is open and may
-- follow any other.

theorem spans_columns (table : String) (columns : List String) :
    Spans d sub Edge.Gap (pushColumns table columns) Edge.Outside := by
  refine .separated .comma fun item hitem => ?_
  obtain ⟨column, -, rfl⟩ := List.mem_map.mp hitem
  exact .column_outside table column

theorem spans_names (names : List String) : Spans d sub Edge.Gap (pushNames names) Edge.Outside := by
  refine .separated .comma fun item hitem => ?_
  obtain ⟨name, -, rfl⟩ := List.mem_map.mp hitem
  exact .quoted name

theorem spans_allColumns (table : String) (columns : List String) :
    Spans d sub Edge.Gap (pushAllColumns table columns) Edge.Outside := by
  unfold pushAllColumns
  split
  · cases d <;> exact .of_flow rfl (by decide) rfl
  · exact spans_columns table columns

theorem spans_where {filter : FilterNode S} {clause : String} (hf : filter.Closed d sub)
    (hclause : Spans d sub Edge.Outside [.str clause] Edge.Gap) :
    Spans d sub Edge.Outside (pushWhere d clause filter) Edge.Outside := by
  unfold pushWhere
  split
  · exact .nil
  · exact .cons hclause (spans_pushFilter hf)

theorem spans_where_clause : Spans d sub Edge.Outside [.str " WHERE "] Edge.Gap :=
  .break_ rfl (by cases d <;> exact .of_flow rfl rfl rfl)

theorem spans_orderKey {o : OrderBy} (h : o.Closed d) :
    Spans d sub Edge.Gap (pushOrderKey d o) Edge.Outside := by
  unfold pushOrderKey
  split
  · cases d <;> exact .of_flow rfl trivial rfl
  · next path hdistance hpath =>
      have hclosed : JsonPath.Closed d path := by simpa [OrderBy.Closed, hdistance, hpath] using h
      exact spans_pushJsonExpr o.table o.column o.text hclosed
  · exact .column_outside o.table o.column

theorem spans_order {order : List OrderBy} (h : ∀ o ∈ order, o.Closed d) :
    Spans d sub Edge.Gap (pushOrder d order) Edge.Outside := by
  refine .separated .comma fun item hitem => ?_
  obtain ⟨o, ho, rfl⟩ := List.mem_map.mp hitem
  have hdirection : Spans d sub Edge.Outside [.str (if o.desc then " DESC" else " ASC")]
      Edge.Outside := by
    cases o.desc <;> exact .break_ rfl (by cases d <;> exact .of_flow rfl trivial rfl)
  exact (spans_orderKey (h o ho)).append hdirection

theorem spans_orderBy {order : List OrderBy} (h : ∀ o ∈ order, o.Closed d) :
    Spans d sub Edge.Outside (pushOrderBy d order) Edge.Outside := by
  have hclause : Spans d sub Edge.Outside [.str " ORDER BY "] Edge.Gap :=
    .break_ rfl (by cases d <;> exact .of_flow rfl rfl rfl)
  unfold pushOrderBy
  split
  · exact .nil
  · exact .cons hclause (spans_order h)

theorem spans_pushNumber {clause : String} (n : Option Nat)
    (hclause : Spans d sub Edge.Outside [.str clause] Edge.Gap) :
    Spans d sub Edge.Outside (pushNumber clause n) Edge.Outside := by
  cases n with
  | none => exact .nil
  | some n => exact .cons hclause (.number n)

theorem spans_limit_clause : Spans d sub Edge.Outside [.str " LIMIT "] Edge.Gap :=
  .break_ rfl (by cases d <;> exact .of_flow rfl rfl rfl)

theorem spans_offset_clause : Spans d sub Edge.Outside [.str " OFFSET "] Edge.Gap :=
  .break_ rfl (by cases d <;> exact .of_flow rfl rfl rfl)

theorem spans_page (limit offset : Option Nat) :
    Spans d sub Edge.Outside (pushPage limit offset) Edge.Outside :=
  (spans_pushNumber limit spans_limit_clause).append (spans_pushNumber offset spans_offset_clause)

theorem spans_returning (returning : List String) :
    Spans d sub Edge.Outside (pushReturning d returning) Edge.Outside := by
  have hclause : Spans d sub Edge.Outside [.str " RETURNING "] Edge.Gap :=
    .break_ rfl (by cases d <;> exact .of_flow rfl rfl rfl)
  unfold pushReturning
  split
  · exact .nil
  · refine .cons hclause (.separated .comma fun item hitem => ?_)
    obtain ⟨col, -, rfl⟩ := List.mem_map.mp hitem
    split
    · cases d <;> exact .of_flow rfl (by decide) rfl
    · exact .quoted col

theorem spans_selectKeyword (distinct : Bool) :
    Spans d sub Edge.Gap (pushSelectKeyword distinct) Edge.Gap := by
  cases d <;> cases distinct <;> exact .of_flow rfl rfl rfl

theorem spans_from (table : String) :
    Spans d sub Edge.Outside [.str " FROM ", .quoted table] Edge.Outside :=
  .break_ rfl (by cases d <;> exact .of_flow rfl trivial rfl)

theorem spans_select {m : Model} {filter : FilterNode S} {order : List OrderBy}
    (projection : List String) (limit offset : Option Nat) (distinct : Bool)
    (hf : filter.Closed d sub) (ho : ∀ o ∈ order, o.Closed d) :
    Spans d sub Edge.Gap (select d m projection filter order limit offset distinct)
      Edge.Outside := by
  have hlist : ∀ columns : List String, Spans d sub Edge.Gap
      (if columns.isEmpty then [.str "*"] else pushColumns m.table columns) Edge.Outside := by
    intro columns
    split
    · cases d <;> exact .of_flow rfl (by decide) rfl
    · exact spans_columns m.table columns
  unfold select
  simp only [List.flatten_cons, List.flatten_nil, List.append_nil]
  exact (spans_selectKeyword distinct).append ((hlist _).append ((spans_from m.table).append
    ((spans_where hf spans_where_clause).append ((spans_orderBy ho).append
      (spans_page limit offset)))))

theorem spans_alias (name : Option String) :
    Spans d sub Edge.Outside (pushAlias name) Edge.Outside := by
  cases name with
  | none => exact .nil
  | some name => exact .break_ rfl (by cases d <;> exact .of_flow rfl trivial rfl)

theorem spans_joinSelect {on filter : FilterNode S} {order : List OrderBy}
    (leftTable : String) (leftColumns : List String) (rightTable : String)
    (rightColumns : List String) (rightAlias : Option String) (joinKind : JoinKind)
    (limit offset : Option Nat) (distinct : Bool)
    (hon : on.Closed d sub) (hf : filter.Closed d sub) (ho : ∀ o ∈ order, o.Closed d) :
    Spans d sub Edge.Gap (joinSelectWithColumns d leftTable leftColumns rightTable rightColumns
      rightAlias joinKind on filter order limit offset distinct) Edge.Outside := by
  have hjoin : Spans d sub Edge.Outside
      [.str " ", .str (joinKindSql d joinKind), .str " ", .quoted rightTable] Edge.Outside := by
    refine .break_ rfl ?_
    cases d <;> cases joinKind <;> exact .of_flow rfl trivial rfl
  have honClause : Spans d sub Edge.Outside [.str " ON "] Edge.Gap :=
    .break_ rfl (by cases d <;> exact .of_flow rfl rfl rfl)
  unfold joinSelectWithColumns
  simp only [List.flatten_cons, List.flatten_nil, List.append_nil]
  exact (spans_selectKeyword distinct).append ((spans_allColumns _ _).append
    (Spans.comma.append ((spans_allColumns _ _).append ((spans_from leftTable).append
      (hjoin.append ((spans_alias rightAlias).append (honClause.append
        ((spans_pushFilter hon).append ((spans_where hf spans_where_clause).append
          ((spans_orderBy ho).append (spans_page limit offset)))))))))))

theorem spans_average (table column : String) :
    Spans d sub Edge.Gap (pushAverage d table column) Edge.Outside := by
  cases d <;> exact .of_flow rfl trivial rfl

theorem spans_aggregate (agg : AggregateEntry) :
    Spans d sub Edge.Gap (pushAggregate d agg) Edge.Outside := by
  have hcall : Spans d sub Edge.Gap [.str agg.kind.sqlFn, .str "("] Edge.Gap := by
    cases d <;> cases agg.kind <;> exact .of_flow rfl rfl rfl
  have hdistinct : Spans d sub Edge.Gap
      (if agg.kind = .countDistinct then [.str "DISTINCT "] else []) Edge.Gap := by
    split
    · cases d <;> exact .of_flow rfl rfl rfl
    · exact .nil
  have hargument : Spans d sub Edge.Gap
      (if agg.kind = .avg then pushAverage d agg.table agg.column
        else pushColumn agg.table agg.column) Edge.Outside := by
    split
    · exact spans_average agg.table agg.column
    · exact .column_outside agg.table agg.column
  have halias : Spans d sub Edge.Outside [.str ")", .str " AS ", .quoted agg.alias_]
      Edge.Outside := .break_ rfl (by cases d <;> exact .of_flow rfl trivial rfl)
  unfold pushAggregate
  simp only [List.flatten_cons, List.flatten_nil, List.append_nil]
  exact hcall.append (hdistinct.append (hargument.append halias))

theorem spans_groupBy (table : String) (groupBy : List String) :
    Spans d sub Edge.Outside (pushGroupBy table groupBy) Edge.Outside := by
  have hclause : Spans d sub Edge.Outside [.str " GROUP BY "] Edge.Gap :=
    .break_ rfl (by cases d <;> exact .of_flow rfl rfl rfl)
  unfold pushGroupBy
  split
  · exact .nil
  · exact .cons hclause (spans_columns table groupBy)

theorem spans_select_clause : Spans d sub Edge.Gap [.str "SELECT "] Edge.Gap := by
  cases d <;> exact .of_flow rfl rfl rfl

theorem spans_aggregateSelect {filter having : FilterNode S} {order : List OrderBy}
    (table : String) (aggregates : List AggregateEntry) (groupBy : List String)
    (limit offset : Option Nat) (hf : filter.Closed d sub) (hh : having.Closed d sub)
    (ho : ∀ o ∈ order, o.Closed d) :
    Spans d sub Edge.Gap (aggregateSelect d table aggregates filter groupBy having order limit
      offset) Edge.Outside := by
  have hlist : Spans d sub Edge.Gap (separated ", " (aggregates.map (pushAggregate d)))
      Edge.Outside := by
    refine .separated .comma fun item hitem => ?_
    obtain ⟨agg, -, rfl⟩ := List.mem_map.mp hitem
    exact spans_aggregate agg
  have hhaving : Spans d sub Edge.Outside [.str " HAVING "] Edge.Gap :=
    .break_ rfl (by cases d <;> exact .of_flow rfl rfl rfl)
  unfold aggregateSelect
  simp only [List.flatten_cons, List.flatten_nil, List.append_nil]
  exact spans_select_clause.append (hlist.append ((spans_from table).append
    ((spans_where hf spans_where_clause).append ((spans_groupBy table groupBy).append
      ((spans_where hh hhaving).append ((spans_orderBy ho).append (spans_page limit offset)))))))

theorem spans_count {filter : FilterNode S} (table : String) (hf : filter.Closed d sub) :
    Spans d sub Edge.Gap (count d table filter) Edge.Outside := by
  have hhead : Spans d sub Edge.Gap [.str "SELECT COUNT(*) FROM ", .quoted table]
      Edge.Outside := by cases d <;> exact .of_flow rfl trivial rfl
  exact hhead.append (spans_where hf spans_where_clause)

theorem spans_exists {filter : FilterNode S} (table : String) (hf : filter.Closed d sub) :
    Spans d sub Edge.Gap (exists_ d table filter) Edge.Outside := by
  have hhead : Spans d sub Edge.Gap [.str "SELECT 1 FROM ", .quoted table] Edge.Outside := by
    cases d <;> exact .of_flow rfl trivial rfl
  have hlimit : Spans d sub Edge.Outside [.str " LIMIT 1"] Edge.Outside :=
    .break_ rfl (by cases d <;> exact .of_flow rfl trivial rfl)
  unfold exists_
  simp only [List.flatten_cons, List.flatten_nil, List.append_nil]
  exact hhead.append ((spans_where hf spans_where_clause).append hlimit)

theorem spans_windowOrder {order : List OrderBy} (m : Model) (ho : ∀ o ∈ order, o.Closed d) :
    Spans d sub Edge.Gap (pushWindowOrder d m order) Edge.Outside := by
  have hasc : Spans d sub Edge.Outside [.str " ASC"] Edge.Outside :=
    .break_ rfl (by cases d <;> exact .of_flow rfl trivial rfl)
  unfold pushWindowOrder
  split
  · exact (Spans.column_outside _ _).append hasc
  · exact spans_order ho

theorem spans_selectPartitioned {filter : FilterNode S} {order : List OrderBy} (m : Model)
    (partitionBy : String) (take : Nat) (hf : filter.Closed d sub)
    (ho : ∀ o ∈ order, o.Closed d) :
    Spans d sub Edge.Gap (selectPartitioned d m partitionBy filter order take) Edge.Outside := by
  have hhead : Spans d sub Edge.Gap [.str "SELECT * FROM (SELECT "] Edge.Gap := by
    cases d <;> exact .of_flow rfl rfl rfl
  have hover : Spans d sub Edge.Outside [.str ", ROW_NUMBER() OVER (PARTITION BY "] Edge.Gap :=
    .break_ rfl (by cases d <;> exact .of_flow rfl rfl rfl)
  have horder : Spans d sub Edge.Outside [.str " ORDER BY "] Edge.Gap :=
    .break_ rfl (by cases d <;> exact .of_flow rfl rfl rfl)
  have hfrom : Spans d sub Edge.Outside
      [.str ") AS ", .quoted rowNumberAlias, .str " FROM ", .quoted m.table] Edge.Outside :=
    .break_ rfl (by cases d <;> exact .of_flow rfl trivial rfl)
  have halias : Spans d sub Edge.Outside [.str ") AS ", .quoted "__rz_partitioned"]
      Edge.Outside := .break_ rfl (by cases d <;> exact .of_flow rfl trivial rfl)
  have htake : Spans d sub Edge.Outside
      [.str " WHERE ", .quoted rowNumberAlias, .str " <= ", .str (toString take)] Edge.Outside := by
    have hnumbered : Spans d sub Edge.Outside
        [.str " WHERE ", .quoted rowNumberAlias, .str " <= "] Edge.Gap :=
      .break_ rfl (by cases d <;> exact .of_flow rfl rfl rfl)
    exact hnumbered.append (.number take)
  have hlast : Spans d sub Edge.Outside
      [.str " ORDER BY ", .quoted rowNumberAlias, .str " ASC"] Edge.Outside :=
    .break_ rfl (by cases d <;> exact .of_flow rfl trivial rfl)
  unfold selectPartitioned
  simp only [List.flatten_cons, List.flatten_nil, List.append_nil]
  exact hhead.append ((spans_allColumns _ _).append (hover.append ((Spans.column_outside _ _).append
    (horder.append ((spans_windowOrder m ho).append (hfrom.append
      ((spans_where hf spans_where_clause).append (halias.append (htake.append hlast)))))))))

theorem spans_insertInto (table : String) (columns : List String) :
    Spans d sub Edge.Gap (pushInsertInto table columns) Edge.Outside := by
  have hhead : Spans d sub Edge.Gap [.str "INSERT INTO ", .quoted table, .str " ("] Edge.Gap := by
    cases d <;> exact .of_flow rfl rfl rfl
  exact hhead.append (spans_names columns)

theorem spans_row (values : List Value) :
    Spans d sub Edge.Gap (pushRow values) Edge.Outside := by
  have hopen : Spans d sub Edge.Gap [.str "("] Edge.Gap := by
    cases d <;> exact .of_flow rfl rfl rfl
  exact (hopen.append (.binds values)).append Spans.close.weaken

theorem spans_values_clause : Spans d sub Edge.Outside [.str ") VALUES "] Edge.Gap :=
  .break_ rfl (by cases d <;> exact .of_flow rfl rfl rfl)

theorem spans_insert (table : String) (values : List (String × Value)) (returning : List String) :
    Spans d sub Edge.Gap (insert d table values returning) Edge.Outside := by
  unfold insert
  simp only [List.flatten_cons, List.flatten_nil, List.append_nil]
  exact (spans_insertInto table _).append (spans_values_clause.append ((spans_row _).append
    (spans_returning returning)))

theorem spans_insertMany (table : String) (rows : List (List (String × Value)))
    (returning : List String) :
    Spans d sub Edge.Gap (insertMany d table rows returning) Edge.Outside := by
  cases rows with
  | nil => exact Spans.nil.weaken
  | cons first rest =>
      have hrows : Spans d sub Edge.Gap
          (separated ", " ((first :: rest).map fun row => pushRow (row.map Prod.snd)))
          Edge.Outside := by
        refine .separated .comma fun item hitem => ?_
        obtain ⟨row, -, rfl⟩ := List.mem_map.mp hitem
        exact spans_row _
      unfold insertMany
      simp only [List.flatten_cons, List.flatten_nil, List.append_nil]
      exact (spans_insertInto table _).append (spans_values_clause.append (hrows.append
        (spans_returning returning)))

-- MySQL takes no conflict target.
def ConflictClosed (d : Dialect) (conflict : List String) : Prop :=
  d = .mysql ∨ ∀ name ∈ conflict, BareName d name

theorem spans_onConflict {excluded : String} {conflict : List String} (update : List String)
    (hnames : ∀ name ∈ conflict, BareName d name)
    (hexcluded : Spans d sub Edge.Outside [.str excluded] Edge.Gap) :
    Spans d sub Edge.Gap (pushOnConflict excluded conflict update) Edge.Outside := by
  have hhead : Spans d sub Edge.Gap [.str "ON CONFLICT ("] Edge.Gap := by
    cases d <;> exact .of_flow rfl rfl rfl
  have htarget : Spans d sub Edge.Gap (separated ", " (conflict.map fun c => [.str c]))
      Edge.Outside := by
    refine .separated .comma fun item hitem => ?_
    obtain ⟨name, hname, rfl⟩ := List.mem_map.mp hitem
    obtain ⟨e, hflow, hout⟩ := hnames name hname
    have hpush : flowPush d (.at_ .gap) (.str name : Push S) = some e := hflow
    exact .of_flow (flow_cons hpush) hout rfl
  have hdo : Spans d sub Edge.Outside [.str ") DO UPDATE SET "] Edge.Gap :=
    .break_ rfl (by cases d <;> exact .of_flow rfl rfl rfl)
  unfold pushOnConflict
  simp only [List.flatten_cons, List.flatten_nil, List.append_nil]
  refine hhead.append (htarget.append ?_)
  split
  · exact .break_ rfl (by cases d <;> exact .of_flow rfl trivial rfl)
  · refine .cons hdo (.separated .comma fun item hitem => ?_)
    obtain ⟨name, -, rfl⟩ := List.mem_map.mp hitem
    exact .cons (.quoted name) (.cons hexcluded (.quoted name))

theorem spans_upsertClause {conflict : List String} (update : List String)
    (h : ConflictClosed d conflict) :
    Spans d sub Edge.Gap (upsertClause d conflict update) Edge.Outside := by
  cases d with
  | postgres =>
      exact spans_onConflict update (h.resolve_left (by decide)) (.break_ rfl (.of_flow rfl rfl rfl))
  | sqlite =>
      exact spans_onConflict update (h.resolve_left (by decide)) (.break_ rfl (.of_flow rfl rfl rfl))
  | mysql =>
      have hhead : Spans .mysql sub Edge.Gap [.str "ON DUPLICATE KEY UPDATE "] Edge.Gap :=
        .of_flow rfl rfl rfl
      refine .cons hhead ?_
      split
      · exact .of_flow rfl trivial rfl
      · refine .separated .comma fun item hitem => ?_
        obtain ⟨name, -, rfl⟩ := List.mem_map.mp hitem
        exact .of_flow rfl trivial rfl

theorem spans_upsert {conflict : List String} (table : String) (values : List (String × Value))
    (update returning : List String) (h : ConflictClosed d conflict) :
    Spans d sub Edge.Gap (upsert d table values conflict update returning) Edge.Outside := by
  unfold upsert
  simp only [List.flatten_cons, List.flatten_nil, List.append_nil]
  exact (spans_insertInto table _).append (spans_values_clause.append ((spans_row _).append
    (blank.append ((spans_upsertClause update h).append (spans_returning returning)))))

theorem spans_set {set : SetExpr} (h : set.Closed) :
    Spans d sub Edge.Gap (pushSet d set) Edge.Outside := by
  cases set with
  | column column value => cases d <;> exact .of_flow rfl trivial rfl
  | jsonSet column path value =>
      have htail : Spans d sub Edge.Outside [.str ", ", .bind value, .str ")"] Edge.Outside :=
        .cons .comma (.cons (.bind value) Spans.close.weaken)
      cases d with
      | postgres =>
          have hhead : Spans .postgres sub Edge.Gap
              [.quoted column, .str " = jsonb_set(", .quoted column, .str ", "] Edge.Gap :=
            .of_flow rfl rfl rfl
          -- The cast goes on from the literal, which is closed by then.
          have hcast : flow .postgres (.at_ (.closing .single))
              [.str "::text[], ", .bind value, (.str "::jsonb)" : Push S)] = some (.at_ .gap) := rfl
          have harray : flow .postgres (.at_ .gap) [(.str (jsonPathArray path) : Push S)]
              = some (.at_ (.closing .single)) := flow_inQuotes (jsonPathArray_stays h) rfl
          exact hhead.append (.of_flow ((flow_append harray).trans hcast) trivial rfl)
      | sqlite =>
          have hhead : Spans .sqlite sub Edge.Gap
              [.quoted column, .str " = json_set(", .quoted column, .str ", "] Edge.Gap :=
            .of_flow rfl rfl rfl
          exact hhead.append (.cons (.path h (by simp)) htail)
      | mysql =>
          have hhead : Spans .mysql sub Edge.Gap
              [.quoted column, .str " = JSON_SET(", .quoted column, .str ", "] Edge.Gap :=
            .of_flow rfl rfl rfl
          exact hhead.append (.cons (.path h (by simp)) htail)

theorem spans_update {filter : FilterNode S} {sets : List SetExpr} (table : String)
    (returning : List String) (hs : ∀ set ∈ sets, set.Closed) (hf : filter.Closed d sub) :
    Spans d sub Edge.Gap (updateWithSets d table sets filter returning) Edge.Outside := by
  have hhead : Spans d sub Edge.Gap [.str "UPDATE ", .quoted table, .str " SET "] Edge.Gap := by
    cases d <;> exact .of_flow rfl rfl rfl
  have hsets : Spans d sub Edge.Gap (separated ", " (sets.map (pushSet d))) Edge.Outside := by
    refine .separated .comma fun item hitem => ?_
    obtain ⟨set, hset, rfl⟩ := List.mem_map.mp hitem
    exact spans_set (hs set hset)
  unfold updateWithSets
  simp only [List.flatten_cons, List.flatten_nil, List.append_nil]
  exact hhead.append (hsets.append ((spans_where hf spans_where_clause).append
    (spans_returning returning)))

theorem spans_delete {filter : FilterNode S} (table : String) (returning : List String)
    (hf : filter.Closed d sub) :
    Spans d sub Edge.Gap (delete d table filter returning) Edge.Outside := by
  have hhead : Spans d sub Edge.Gap [.str "DELETE FROM ", .quoted table] Edge.Outside := by
    cases d <;> exact .of_flow rfl trivial rfl
  unfold delete
  simp only [List.flatten_cons, List.flatten_nil, List.append_nil]
  exact hhead.append ((spans_where hf spans_where_clause).append (spans_returning returning))

end Ruprizzle.Runtime
