import Ruprizzle.Runtime.Spelled

namespace Ruprizzle.Runtime

-- How each compile function is read. All begin between tokens and end outside
-- of every quote.

variable {S : Type} {d : Dialect} {sub : S → Prop}

namespace Spans

theorem column (table column : String) :
    Spans d sub Edge.Gap (pushColumn table column) (· = .at_ (.closing (identQuote d))) := by
  cases d <;> exact of_flow rfl rfl rfl

theorem column_outside (table column : String) :
    Spans d sub Edge.Gap (pushColumn table column) Edge.Outside :=
  (Spans.column table column).mono (fun _ he => he) fun e he => by
    subst he
    trivial

theorem bind (value : Value) : Spans d sub Edge.Gap [.bind value] Edge.Outside := by
  cases d <;> exact of_flow rfl trivial rfl

theorem quoted (name : String) : Spans d sub Edge.Gap [.quoted name] Edge.Outside := by
  cases d <;> exact of_flow rfl trivial rfl

theorem binds (values : List Value) : Spans d sub Edge.Gap (pushBinds values) Edge.Outside := by
  refine separated comma fun item hitem => ?_
  obtain ⟨value, -, rfl⟩ := List.mem_map.mp hitem
  exact bind value

theorem close : Spans d sub Edge.Outside [.str ")"] Edge.Gap :=
  break_ rfl (by cases d <;> exact of_flow rfl rfl rfl)

end Spans

theorem spans_pushJsonExprPostgres (table column : String) {path : JsonPath} (text : Bool)
    (h : JsonPath.Closed .postgres path) :
    Spans .postgres sub Edge.Gap (pushJsonExprPostgres table column path text) Edge.Outside := by
  have hcol : flow .postgres (.at_ .gap) (pushColumn table column : List (Push S))
      = some (.at_ (.closing .double)) := rfl
  -- The operator goes on from the column, and what it takes goes on from it.
  have harrow : ∀ (op : String) (tail : List (Push S)) (e : Edge),
      flowPush .postgres (.at_ (.closing .double)) (.str op : Push S)
        = some (.at_ (.op .other)) → flow .postgres (.at_ (.op .other)) tail = some e →
      e.Outside → embedded tail = [] →
      Spans .postgres sub Edge.Gap (pushColumn table column ++ .str op :: tail) Edge.Outside := by
    intro op tail e hop htail he hsubs
    exact .of_flow ((flow_append hcol).trans ((flow_cons hop).trans htail)) he hsubs
  have hlit : ∀ s : String, StaysIn .postgres s.toList →
      flow .postgres (.at_ (.op .other)) [(.str (inQuotes s) : Push S)]
        = some (.at_ (.closing .single)) := fun s hs => flow_inQuotes hs rfl
  have harray : (∀ seg ∈ path, seg.Paired) →
      Spans .postgres sub Edge.Gap (pushColumn table column ++
        [Push.str (if text then "#>>" else "#>"), Push.str (jsonPathArray path)]) Edge.Outside := by
    intro hpaired
    refine harrow _ _ _ ?_ (hlit _ (jsonPathArray_stays hpaired)) trivial rfl
    cases text <;> rfl
  unfold pushJsonExprPostgres
  split
  · simpa using Spans.column_outside table column
  · next k =>
      refine harrow _ _ _ ?_ (hlit _ (jsonStringLiteral_stays k (by decide))) trivial rfl
      cases text <;> rfl
  · next i =>
      refine harrow _ _ _ ?_ (number_flow i fun c hc => ?_) trivial rfl
      · cases text <;> rfl
      · rw [Lexer.scan, Sym.of_digit hc]
        rfl
  · next hnil hkey hindex =>
      refine harray (h.resolve_left fun hshort => ?_)
      rcases path with - | ⟨seg, - | ⟨next, rest⟩⟩
      · exact hnil rfl
      · cases seg with
        | key k => exact hkey k rfl
        | index i => exact hindex i rfl
      · simp at hshort

theorem JsonPath.Closed.paired {path : JsonPath} (h : JsonPath.Closed d path) (hd : d ≠ .postgres) :
    ∀ seg ∈ path, seg.Paired := h.resolve_left fun ⟨hpostgres, _⟩ => hd hpostgres

theorem Spans.path {path : JsonPath} {extra : Option String} (hpath : ∀ seg ∈ path, seg.Paired)
    (hextra : ∀ k ∈ extra, pairedQuotes k.toList = true) :
    Spans d sub Edge.Gap [.str (inQuotes (jsonPathWithKey path extra))] Edge.Outside :=
  .literal (jsonPathWithKey_stays hpath hextra)

theorem spans_pushJsonExprSqlite (table column : String) {path : JsonPath} (text : Bool)
    (h : ∀ seg ∈ path, seg.Paired) :
    Spans .sqlite sub Edge.Gap (pushJsonExprSqlite table column path text) Edge.Outside := by
  have hspelled : StaysIn .sqlite (jsonPathWithKey path none).toList :=
    jsonPathWithKey_stays h (by simp)
  unfold pushJsonExprSqlite
  split
  · exact .column_outside table column
  split
  · have hcol : flow .sqlite (.at_ .gap) (pushColumn table column ++ [(.str "->>" : Push S)])
        = some (.at_ (.op .other)) := rfl
    have hlit : flow .sqlite (.at_ (.op .other))
        [(.str (inQuotes (jsonPathWithKey path none)) : Push S)] = some (.at_ (.closing .single)) :=
      flow_inQuotes hspelled rfl
    exact .of_flow ((congrArg (flow .sqlite (.at_ .gap)) (by simp)).trans
      ((flow_append hcol).trans hlit)) trivial rfl
  · have hopen : Spans .sqlite sub Edge.Gap [.str "json_extract("] Edge.Gap := .of_flow rfl rfl rfl
    exact (hopen.append (.column_outside table column)).append
      (.cons .comma (.cons (.literal hspelled) Spans.close.weaken))

theorem spans_pushJsonExprMysql (table column : String) {path : JsonPath} (text : Bool)
    (h : ∀ seg ∈ path, seg.Paired) :
    Spans .mysql sub Edge.Gap (pushJsonExprMysql table column path text) Edge.Outside := by
  unfold pushJsonExprMysql
  split
  · exact .column_outside table column
  · have hopen : Spans .mysql sub Edge.Gap
        [.str (if text then "JSON_UNQUOTE(JSON_EXTRACT(" else "JSON_EXTRACT(")] Edge.Gap := by
      cases text <;> exact .of_flow rfl rfl rfl
    have hclose : Spans .mysql sub Edge.Outside [.str (if text then "))" else ")")] Edge.Outside := by
      cases text <;> exact .break_ rfl (.of_flow rfl trivial rfl)
    exact (hopen.append (.column_outside table column)).append
      (.cons .comma (.cons (.path h (by simp)) hclose))

theorem spans_pushJsonExpr (table column : String) {path : JsonPath} (text : Bool)
    (h : JsonPath.Closed d path) :
    Spans d sub Edge.Gap (pushJsonExpr d table column path text) Edge.Outside := by
  cases d with
  | postgres => exact spans_pushJsonExprPostgres table column text h
  | mysql => exact spans_pushJsonExprMysql table column text (h.paired (by decide))
  | sqlite => exact spans_pushJsonExprSqlite table column text (h.paired (by decide))

theorem spans_pushJsonType (table column : String) {path : JsonPath} {extra : Option String}
    (hpath : ∀ seg ∈ path, seg.Paired) (hextra : ∀ k ∈ extra, pairedQuotes k.toList = true) :
    Spans d sub Edge.Gap (pushJsonType table column path extra) Edge.Outside := by
  have hopen : Spans d sub Edge.Gap [.str "json_type("] Edge.Gap := by
    cases d <;> exact .of_flow rfl rfl rfl
  have hclose : Spans d sub Edge.Outside [.str ") IS NOT NULL"] Edge.Outside :=
    .break_ rfl (by cases d <;> exact .of_flow rfl trivial rfl)
  exact (hopen.append (.column_outside table column)).append
    (.cons .comma (.cons (.path hpath hextra) hclose))

-- The keys of a document that SQLite is asked for one by one.
def spelledKeys (d : Dialect) (value : Value) : List String :=
  match d, value with
  | .sqlite, .json (.object members) => members.map Prod.fst
  | _, _ => []

-- What a JSON operator spells into literals has its quotes in pairs.
def JsonFilterOp.Closed (d : Dialect) (path : JsonPath) (value : Value) : JsonFilterOp → Prop
  | .cmp _ => JsonPath.Closed d path
  | .contains => JsonPath.Closed d path ∧ ∀ k ∈ spelledKeys d value, pairedQuotes k.toList = true
  | .hasKey => d = .postgres ∨
      (∀ seg ∈ path, seg.Paired) ∧ ∀ k ∈ (keyOf value).toList, pairedQuotes k.toList = true

instance (d : Dialect) (path : JsonPath) (value : Value) (op : JsonFilterOp) :
    Decidable (op.Closed d path value) := by
  cases op <;> unfold JsonFilterOp.Closed <;> infer_instance

theorem spans_pushJsonContains (table column : String) {path : JsonPath} {value : Value}
    (hpath : JsonPath.Closed d path)
    (hkeys : ∀ k ∈ spelledKeys d value, pairedQuotes k.toList = true) :
    Spans d sub Edge.Gap (pushJsonContains d table column path value) Edge.Outside := by
  cases d with
  | postgres =>
      exact (spans_pushJsonExpr table column false hpath).append
        (.break_ rfl (.of_flow rfl trivial rfl))
  | mysql =>
      have hopen : Spans .mysql sub Edge.Gap [.str "JSON_CONTAINS("] Edge.Gap := .of_flow rfl rfl rfl
      exact (hopen.append (.column_outside table column)).append
        (.cons .comma (.cons (.bind value) (.cons .comma
          (.cons (.path (hpath.paired (by decide)) (by simp)) Spans.close.weaken))))
  | sqlite =>
      have hpath := hpath.paired (by decide)
      unfold pushJsonContains
      dsimp only
      split
      · next member members =>
          have hopen : Spans .sqlite sub Edge.Gap [.str "("] Edge.Gap := .of_flow rfl rfl rfl
          have hand : Spans .sqlite sub Edge.Outside [.str " AND "] Edge.Gap :=
            .break_ rfl (.of_flow rfl rfl rfl)
          refine .cons hopen ((Spans.separated hand fun item hitem => ?_).append Spans.close.weaken)
          obtain ⟨⟨k, v⟩, hmem, rfl⟩ := List.mem_map.mp hitem
          refine spans_pushJsonType table column hpath ?_
          rintro _ ⟨rfl⟩
          exact hkeys k (List.mem_map.mpr ⟨(k, v), hmem, rfl⟩)
      · exact spans_pushJsonType table column hpath (by simp)

theorem spans_pushJsonHasKey (table column : String) {path : JsonPath} {value : Value}
    (h : JsonFilterOp.Closed d path value .hasKey) :
    Spans d sub Edge.Gap (pushJsonHasKey d table column path value) Edge.Outside := by
  cases d with
  | postgres =>
      exact (spans_pushJsonExpr table column false (Or.inl ⟨rfl, by simp⟩)).append
        (.break_ rfl (.of_flow rfl trivial rfl))
  | mysql =>
      obtain ⟨hpath, hkey⟩ := h.resolve_left (by decide)
      have hopen : Spans .mysql sub Edge.Gap [.str "JSON_CONTAINS_PATH("] Edge.Gap :=
        .of_flow rfl rfl rfl
      have hone : Spans .mysql sub Edge.Outside [.str ", 'one', "] Edge.Gap :=
        .break_ rfl (.of_flow rfl rfl rfl)
      exact (hopen.append (.column_outside table column)).append
        (.cons hone (.cons (.path hpath (by simpa using hkey)) Spans.close.weaken))
  | sqlite =>
      obtain ⟨hpath, hkey⟩ := h.resolve_left (by decide)
      exact spans_pushJsonType table column hpath (by simpa using hkey)

-- A call around a column: text up to it, the column, text after it.
theorem Spans.around {opening : String} {rest : List (Push S)} (table column : String)
    (hopen : Spans d sub Edge.Gap [.str opening] Edge.Gap)
    (hrest : Spans d sub Edge.Outside rest Edge.Outside) :
    Spans d sub Edge.Gap (.str opening :: pushColumn table column ++ rest) Edge.Outside :=
  (hopen.append (.column_outside table column)).append hrest

theorem spans_pushArrayOpPostgres (table column : String) (op : ArrayFilterOp)
    (values : List Value) :
    Spans .postgres sub Edge.Gap (pushArrayOpPostgres table column op values) Edge.Outside := by
  cases op <;> exact .of_flow rfl trivial rfl

theorem spans_pushJsonArray (values : List Value) :
    Spans .mysql sub Edge.Gap (pushJsonArray values) Edge.Outside := by
  have hopen : Spans .mysql sub Edge.Gap [.str "JSON_ARRAY("] Edge.Gap := .of_flow rfl rfl rfl
  exact (hopen.append (.binds values)).append Spans.close.weaken

theorem spans_pushArrayOpMysql (table column : String) (op : ArrayFilterOp)
    (values : List Value) :
    Spans .mysql sub Edge.Gap (pushArrayOpMysql table column op values) Edge.Outside := by
  have hpath : Spans .mysql sub Edge.Outside [.str ", '$')"] Edge.Outside :=
    .break_ rfl (.of_flow rfl trivial rfl)
  have hcontains : Spans .mysql sub Edge.Gap [.str "JSON_CONTAINS("] Edge.Gap := .of_flow rfl rfl rfl
  have hoverlaps : Spans .mysql sub Edge.Gap [.str "JSON_OVERLAPS("] Edge.Gap := .of_flow rfl rfl rfl
  cases op with
  | has =>
      cases values with
      | nil => exact .of_flow rfl trivial rfl
      | cons value rest => exact .of_flow rfl trivial rfl
  | contains =>
      have htail : Spans .mysql sub Edge.Outside
          (.str ", " :: (pushJsonArray values ++ [Push.str ", '$')"])) Edge.Outside :=
        .cons .comma ((spans_pushJsonArray values).append hpath)
      simpa [pushArrayOpMysql] using Spans.around table column hcontains htail
  | containedBy =>
      have htail : Spans .mysql sub Edge.Outside
          (.str ", " :: pushColumn table column ++ [Push.str ", '$')"]) Edge.Outside :=
        (Spans.comma.append (.column_outside table column)).append hpath
      simpa [pushArrayOpMysql] using
        (hcontains.append (spans_pushJsonArray values)).append htail
  | overlaps =>
      have htail : Spans .mysql sub Edge.Outside
          (.str ", " :: (pushJsonArray values ++ [Push.str ")"])) Edge.Outside :=
        .cons .comma ((spans_pushJsonArray values).append Spans.close.weaken)
      simpa [pushArrayOpMysql] using Spans.around table column hoverlaps htail
  | isEmpty => exact .of_flow rfl trivial rfl
  | isNotEmpty => exact .of_flow rfl trivial rfl

theorem spans_pushJsonEach (table column : String) {test : String} {tail : List (Push S)}
    (htest : Spans .sqlite sub Edge.Outside [.str (") WHERE json_each.value " ++ test)] Edge.Gap)
    (htail : Spans .sqlite sub Edge.Gap tail Edge.Outside) :
    Spans .sqlite sub Edge.Gap (pushJsonEach table column test tail) Edge.Outside := by
  have hopen : Spans .sqlite sub Edge.Gap [.str "EXISTS (SELECT 1 FROM json_each("] Edge.Gap :=
    .of_flow rfl rfl rfl
  exact .around table column hopen (htest.append htail)

theorem spans_pushArrayOpSqlite (table column : String) (op : ArrayFilterOp)
    (values : List Value) :
    Spans .sqlite sub Edge.Gap (pushArrayOpSqlite table column op values) Edge.Outside := by
  have hlist : Spans .sqlite sub Edge.Gap (pushBinds values ++ [Push.str "))"]) Edge.Outside :=
    (Spans.binds values).append (.break_ rfl (.of_flow rfl trivial rfl))
  cases op with
  | has => exact .of_flow rfl trivial rfl
  | contains =>
      unfold pushArrayOpSqlite
      dsimp only
      split
      · exact .of_flow rfl trivial rfl
      · have hand : Spans .sqlite sub Edge.Outside [.str " AND "] Edge.Gap :=
          .break_ rfl (.of_flow rfl rfl rfl)
        refine .separated hand fun item hitem => ?_
        obtain ⟨value, -, rfl⟩ := List.mem_map.mp hitem
        exact .of_flow rfl trivial rfl
  | containedBy =>
      unfold pushArrayOpSqlite
      dsimp only
      split
      · exact .of_flow rfl trivial rfl
      · have hnot : Spans .sqlite sub Edge.Gap [.str "NOT "] Edge.Gap := .of_flow rfl rfl rfl
        exact .cons hnot
          (spans_pushJsonEach table column (.break_ rfl (.of_flow rfl rfl rfl)) hlist)
  | overlaps =>
      unfold pushArrayOpSqlite
      dsimp only
      split
      · exact .of_flow rfl trivial rfl
      · exact spans_pushJsonEach table column (.break_ rfl (.of_flow rfl rfl rfl)) hlist
  | isEmpty => exact .of_flow rfl trivial rfl
  | isNotEmpty => exact .of_flow rfl trivial rfl

theorem spans_pushArrayOp (table column : String) (op : ArrayFilterOp) (values : List Value) :
    Spans d sub Edge.Gap (pushArrayOp d table column op values) Edge.Outside := by
  cases d with
  | postgres => exact spans_pushArrayOpPostgres table column op values
  | mysql => exact spans_pushArrayOpMysql table column op values
  | sqlite => exact spans_pushArrayOpSqlite table column op values

theorem spans_pushFullTextMatch (table column query : String) :
    Spans d sub Edge.Gap (pushFullTextMatch d table column query) Edge.Outside := by
  cases d <;> exact .of_flow rfl trivial rfl

theorem spans_pushSpatialOp (table column : String) (op : SpatialOp) (geometry : String)
    (distance : Option F64) :
    Spans d sub Edge.Gap (pushSpatialOp d table column op geometry distance) Edge.Outside := by
  cases d <;> cases op <;> exact .of_flow rfl trivial rfl

-- A text part of a raw fragment holds no placeholder and is read to its end
-- outside of quotes and comments; where a value follows, a placeholder can
-- begin, and the next part does not go on with its digits.
def partsClosed (d : Dialect) : Edge → List String → Prop
  | e, [] => e.Outside
  | e, [part] => ∃ e', textFlow d e part.toList = some e' ∧ e'.Outside
  | e, part :: rest => ∃ e' e'', textFlow d e part.toList = some e' ∧
      bindFlow d e' = some e'' ∧ partsClosed d e'' rest

def RawFragment.Closed (d : Dialect) (fragment : RawFragment) : Prop :=
  partsClosed d (.at_ .gap) fragment.parts

theorem flow_pushRaw {parts : List String} {values : List Value} {e : Edge}
    (hlen : parts.length = values.length + 1) (h : partsClosed d e parts) :
    ∃ e', flow d e (pushRaw parts values : List (Push S)) = some e' ∧ e'.Outside := by
  induction parts generalizing values e with
  | nil => simp at hlen
  | cons part rest ih =>
      cases rest with
      | nil =>
          obtain rfl : values = [] := by
            simpa using hlen
          obtain ⟨e', hpart, hout⟩ := h
          have hstr : flowPush d e (.str part : Push S) = some e' := hpart
          refine ⟨e', ?_, hout⟩
          rw [pushRaw, flow_cons hstr]
          rfl
      | cons next rest =>
          cases values with
          | nil => simp at hlen
          | cons value values =>
              obtain ⟨e', e'', hpart, hbind, hrest⟩ := h
              have hlen : (next :: rest).length = values.length + 1 := by simpa using hlen
              obtain ⟨final, hflow, hout⟩ := ih hlen hrest
              refine ⟨final, ?_, hout⟩
              have hstr : flowPush d e (.str part : Push S) = some e' := hpart
              have hvalue : flowPush d e' (.bind value : Push S) = some e'' := hbind
              exact (flow_cons hstr).trans ((flow_cons hvalue).trans hflow)

theorem embedded_pushRaw (parts : List String) (values : List Value) :
    embedded (pushRaw parts values : List (Push S)) = [] := by
  induction parts generalizing values with
  | nil => rfl
  | cons part rest ih =>
      cases values with
      | nil => exact ih []
      | cons value values => exact ih values

theorem spans_pushRaw {fragment : RawFragment} (h : fragment.Closed d) :
    Spans d sub Edge.Gap (pushRaw fragment.parts fragment.binds) Edge.Outside := by
  obtain ⟨e', hflow, hout⟩ := flow_pushRaw fragment.split h
  exact .of_flow hflow hout (embedded_pushRaw _ _)

end Ruprizzle.Runtime
