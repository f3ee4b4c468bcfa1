import Ruprizzle.Runtime.Query
import Ruprizzle.Runtime.Spoken

namespace Ruprizzle.Runtime

open ContextFree

-- The phrases of the clauses of a query.

variable {S : Type} {d : Dialect} {reading : S → List Lexeme} {sub sub' : S → Prop}

-- An offset by itself is for PostgreSQL alone.
def PageSpoken (d : Dialect) (limit offset : Option Nat) : Prop :=
  limit = none → offset ≠ none → d = .postgres

theorem forms_page {limit offset : Option Nat} (h : PageSpoken d limit offset) :
    Forms d reading .page (pushPage limit offset) := by
  have hlimit : ∀ n : Nat, Fits d reading [word .limit, sign .number]
      [.str " LIMIT ", .str (toString n)] := fun n =>
    Fits.append (a := [word .limit]) (p := [.str " LIMIT "]) (.text (by decide)) (Fits.number n)
  have hoffset : ∀ n : Nat, Fits d reading [word .offset, sign .number]
      [.str " OFFSET ", .str (toString n)] := fun n =>
    Fits.append (a := [word .offset]) (p := [.str " OFFSET "]) (.text (by decide)) (Fits.number n)
  cases limit with
  | none =>
      cases offset with
      | none => exact Fits.nil.rule (by decide)
      | some n =>
          obtain rfl := h rfl (by simp)
          exact (hoffset n).own (by decide)
  | some n =>
      cases offset with
      | none => exact (hlimit n).rule (by decide)
      | some m => exact ((hlimit n).append (hoffset m)).rule (by decide)

-- After what leads the automaton to a plain state, only a spoken page may follow.
theorem pageSpoken_of_alive {ws : List Lexeme} {limit offset : Option Nat}
    (hplain : ∀ q, ws.foldl (Watch.next d) q = .plain ∨ ws.foldl (Watch.next d) q = .refused)
    (h : Alive d (ws ++ lexemes d reading (pushPage limit offset))) :
    PageSpoken d limit offset := by
  rintro rfl hoffset
  obtain ⟨n, rfl⟩ := Option.ne_none_iff_exists'.mp hoffset
  by_contra hd
  obtain ⟨q, hq⟩ := h
  have hwords : lexemes d reading (pushPage none (some n)) = [.word .offset, .number] := by
    have hclause : lexemes d reading [.str " OFFSET "] = [.word .offset] := by
      rw [lexemes_str]
      cases d <;> decide
    have hnumber : lexemes d reading [.str (toString n)] = [.number] := by
      rw [lexemes_str, tokens_number]
      rfl
    have hpage : (pushPage none (some n) : List (Push S)) = [Push.str " OFFSET "] ++ [Push.str (toString n)] :=
      rfl
    rw [hpage, lexemes_append, hclause, hnumber]
    rfl
  rw [hwords, List.foldl_append] at hq
  rcases hplain q with heq | heq
  · rw [heq] at hq
    cases d with
    | postgres => exact hd rfl
    | mysql => exact hq rfl
    | sqlite => exact hq rfl
  · rw [heq] at hq
    exact hq rfl

theorem plain_of_fits {form : List (Symbol Lexeme Phrase)} {ws : List Lexeme}
    (hform : ∀ q ∈ Watch.all, ∀ q' ∈ ends (g := grammar d) (Watch.next d) (Phrase.leads d) form q,
      q' = .plain ∨ q' = .refused)
    (h : Makes d form ws) (q : Watch) :
    ws.foldl (Watch.next d) q = .plain ∨ ws.foldl (Watch.next d) q = .refused :=
  hform q q.mem_all _ ((stable d).yields h q)

theorem forms_where {f : FilterNode S} (h : Forms d reading .cond (pushFilter d f)) :
    Forms d reading .where_ (pushWhere d " WHERE " f) := by
  have hclause : Fits d reading [word .where_] [.str " WHERE "] := .text (by decide)
  unfold pushWhere
  split
  · exact Fits.nil.rule (by decide)
  · exact (hclause.append h).rule (by decide)

theorem forms_having {f : FilterNode S} (h : Forms d reading .cond (pushFilter d f)) :
    Forms d reading .having (pushWhere d " HAVING " f) := by
  have hclause : Fits d reading [word .having] [.str " HAVING "] := .text (by decide)
  unfold pushWhere
  split
  · exact Fits.nil.rule (by decide)
  · exact (hclause.append h).rule (by decide)

theorem forms_orderKey {o : OrderBy} (h : o.Closed d) :
    Forms d reading .term (pushOrderKey d o) := by
  unfold pushOrderKey
  cases hdistance : o.spatialDistance with
  | some geometry =>
      have hcol : Forms d reading .term (pushColumn o.table o.column) := .column o.table o.column
      have hopen : Fits d reading [sign .bare, sign .open_] [.str "ST_Distance("] :=
        .text (by decide)
      have hgeometry : Fits d reading [sign .comma, sign .bare, sign .open_]
          [.str ", ST_GeomFromText("] := .text (by decide)
      have hall : Fits d reading [sign .bare, sign .open_, part .term, sign .comma, sign .bare,
          sign .open_, part .terms, sign .close, sign .close]
          ([Push.str "ST_Distance("] ++ (pushColumn o.table o.column ++
            ([Push.str ", ST_GeomFromText("] ++ ([Push.bind (.str geometry)] ++
              [Push.str (if d = .postgres then ", 4326))" else "))")])))) := by
        split
        · have hsystem : Fits d reading [sign .comma, sign .number, sign .close, sign .close]
              [.str ", 4326))"] := .text (by decide)
          have hwhole := hopen.append (hcol.append (hgeometry.append
            ((Forms.bind (.str geometry)).append hsystem)))
          have hnumber := Fits.expand (c := [sign .number]) (n := .term) (b := [sign .close, sign .close])
            (a := [sign .bare, sign .open_, part .term, sign .comma, sign .bare, sign .open_,
              part .term, sign .comma]) hwhole (by decide)
          have hlast := Fits.expand (c := [part .term]) (n := .terms) (b := [sign .close, sign .close])
            (a := [sign .bare, sign .open_, part .term, sign .comma, sign .bare, sign .open_,
              part .term, sign .comma]) hnumber (by decide)
          exact Fits.expand (c := [part .term, sign .comma, part .terms]) (n := .terms)
            (a := [sign .bare, sign .open_, part .term, sign .comma, sign .bare, sign .open_])
            (b := [sign .close, sign .close]) hlast (by decide)
        · have hclose : Fits d reading [sign .close, sign .close] [.str "))"] := .text (by decide)
          exact hopen.append (hcol.append (hgeometry.append
            ((Forms.bind (.str geometry)).terms.append hclose)))
      have hcall := Fits.expand (c := [sign .bare, sign .open_, part .terms, sign .close]) (n := .term)
        (a := [sign .bare, sign .open_, part .term, sign .comma]) (b := [sign .close]) hall
        (by decide)
      have hlast := Fits.expand (c := [part .term]) (n := .terms) (b := [sign .close])
        (a := [sign .bare, sign .open_, part .term, sign .comma]) hcall (by decide)
      have hterms := Fits.expand (c := [part .term, sign .comma, part .terms]) (n := .terms)
        (a := [sign .bare, sign .open_]) (b := [sign .close]) hlast (by decide)
      have hterm : Forms d reading .term _ := hterms.rule (by decide)
      simpa using hterm
  | none =>
      cases hpath : o.jsonPath with
      | some path =>
          have hclosed : JsonPath.Closed d path := by simpa [OrderBy.Closed, hdistance, hpath] using h
          exact forms_jsonExpr o.table o.column o.text hclosed
      | none => exact Forms.column o.table o.column

theorem forms_orderBy {order : List OrderBy} (h : ∀ o ∈ order, o.Closed d) :
    Forms d reading .order (pushOrderBy d order) := by
  have hclause : Fits d reading [word .order, word .by_] [.str " ORDER BY "] := .text (by decide)
  unfold pushOrderBy
  split
  · exact Fits.nil.rule (by decide)
  · next hne =>
      have hitems : Forms d reading .items (pushOrder d order) := by
        refine Forms.several (k := .item) (w := .comma) Forms.comma (by decide)
          (by decide) (by simpa using hne) fun item hitem => ?_
        obtain ⟨o, ho, rfl⟩ := List.mem_map.mp hitem
        have hdirection : Forms d reading .direction [.str (if o.desc then " DESC" else " ASC")] := by
          cases o.desc with
          | false => exact Fits.rule (a := [word .asc]) (.text (by decide)) (by decide)
          | true => exact Fits.rule (a := [word .desc]) (.text (by decide)) (by decide)
        exact ((forms_orderKey (h o ho)).append hdirection).rule (by decide)
      exact (hclause.append hitems).rule (by decide)

-- What a query selects.

theorem forms_target {p : List (Push S)} (h : Forms d reading .term p) :
    Forms d reading .target p := by
  have hlabel : Forms d reading .label [] := Fits.nil.rule (by decide)
  simpa using (h.append hlabel).rule (n := .target) (by decide)

theorem forms_targets {items : List (List (Push S))} (hne : items ≠ [])
    (h : ∀ item ∈ items, Forms d reading .target item) :
    Forms d reading .targets (separated ", " items) :=
  Forms.several (k := .target) (w := .comma) Forms.comma (by decide) (by decide) hne h

theorem forms_targets_more {items : List (List (Push S))} {r : List (Push S)} (hne : items ≠ [])
    (h : ∀ item ∈ items, Forms d reading .target item) (hr : Forms d reading .targets r) :
    Forms d reading .targets (separated ", " items ++ .str ", " :: r) := by
  induction items with
  | nil => exact absurd rfl hne
  | cons first rest ih =>
      obtain ⟨hfirst, hrest⟩ := List.forall_mem_cons.mp h
      cases rest with
      | nil => exact (Fits.append hfirst (Forms.comma.append hr)).rule (by decide)
      | cons next more =>
          have hlater := ih (by simp) hrest
          have hcons : separated ", " (first :: next :: more) ++ .str ", " :: r
              = first ++ ([Push.str ", "] ++ (separated ", " (next :: more) ++ .str ", " :: r)) := by
            simp [separated]
          rw [hcons]
          exact (Fits.append hfirst (Forms.comma.append hlater)).rule (by decide)

theorem forms_allOf (table : String) : Forms d reading .target [.quoted table, .str ".*"] := by
  have hstar : Fits d reading [sign .dot, sign .star] [.str ".*"] := .text (by decide)
  exact ((Fits.quoted table).append hstar).rule (by decide)

-- A list of all columns, as targets one by one.
theorem allColumns_eq (table : String) (columns : List String) :
    ∃ items : List (List (Push S)), pushAllColumns table columns = separated ", " items ∧ items ≠ [] ∧
      ∀ item ∈ items, Forms d reading .target item := by
  unfold pushAllColumns
  split
  · exact ⟨[[.quoted table, .str ".*"]], rfl, by simp, by simpa using forms_allOf table⟩
  · next hne =>
      refine ⟨columns.map (pushColumn table), rfl, by simpa using hne, fun item hitem => ?_⟩
      obtain ⟨column, -, rfl⟩ := List.mem_map.mp hitem
      exact forms_target (Forms.column table column)

theorem forms_projection (table : String) (columns : List String) :
    Forms d reading .targets
      (if columns.isEmpty then [.str "*"] else pushColumns table columns) := by
  split
  · have hstar : Forms d reading .target [.str "*"] :=
      Fits.rule (a := [sign .star]) (.text (by decide)) (by decide)
    exact Fits.rule hstar (by decide)
  · next hne =>
      refine forms_targets (by simpa using hne) fun item hitem => ?_
      obtain ⟨column, -, rfl⟩ := List.mem_map.mp hitem
      exact forms_target (Forms.column table column)

theorem forms_groupBy (table : String) (groupBy : List String) :
    Forms d reading .group (pushGroupBy table groupBy) := by
  have hclause : Fits d reading [word .group, word .by_] [.str " GROUP BY "] := .text (by decide)
  unfold pushGroupBy
  split
  · exact Fits.nil.rule (by decide)
  · next hne =>
      have hterms : Forms d reading .terms (pushColumns table groupBy) := by
        refine Forms.several (k := .term) (w := .comma) Forms.comma (by decide)
          (by decide) (by simpa using hne) fun item hitem => ?_
        obtain ⟨column, -, rfl⟩ := List.mem_map.mp hitem
        exact Forms.column table column
      exact (hclause.append hterms).rule (by decide)

theorem forms_average (table column : String) :
    Forms d reading .term (pushAverage d table column) := by
  have hcol : ∀ {d : Dialect}, Forms d reading .term (pushColumn table column) :=
    Forms.column table column
  have hcast : ∀ {d : Dialect} {s : String},
      Fits d reading [word .as_, part .type_, sign .close] [.str s] →
      Forms d reading .term ([Push.str "CAST("] ++ pushColumn table column ++ [Push.str s]) := by
    intro d s hs
    have hopen : Fits d reading [word .cast, sign .open_] [.str "CAST("] := .text (by decide)
    rw [List.append_assoc]
    exact (hopen.append (hcol.append hs)).rule (by decide)
  cases d with
  | postgres =>
      have htype : Fits .postgres reading [sign .cast, sign .bare, sign .bare]
          [.str "::double precision"] := .read (by decide)
      have hall := hcol.append htype
      have hlast := Fits.expand (a := [part .term, sign .cast, sign .bare]) (c := [sign .bare])
        (n := .type_) (b := []) hall (by decide)
      have hwhole := Fits.expand (a := [part .term, sign .cast]) (c := [sign .bare, part .type_])
        (n := .type_) (b := []) hlast (by decide)
      exact hwhole.own (by decide)
  | mysql =>
      have htype : Fits .mysql reading [word .as_, sign .bare, sign .close] [.str " AS DOUBLE)"] :=
        .read (by decide)
      exact hcast (Fits.expand (a := [word .as_]) (c := [sign .bare]) (n := .type_)
        (b := [sign .close]) htype (by decide))
  | sqlite =>
      have htype : Fits .sqlite reading [word .as_, sign .bare, sign .close] [.str " AS REAL)"] :=
        .read (by decide)
      exact hcast (Fits.expand (a := [word .as_]) (c := [sign .bare]) (n := .type_)
        (b := [sign .close]) htype (by decide))

theorem forms_aggregate (agg : AggregateEntry) : Forms d reading .target (pushAggregate d agg) := by
  have hfunction : Fits d reading [sign .bare] [.str agg.kind.sqlFn] := by
    cases agg.kind <;> exact .text (by decide)
  have hdistinct : Fits d reading [word .distinct] [.str "DISTINCT "] := .text (by decide)
  have has : Fits d reading [word .as_] [.str " AS "] := .text (by decide)
  have hlabel : Forms d reading .label [.str " AS ", .quoted agg.alias_] :=
    (has.append (Fits.quoted agg.alias_)).rule (by decide)
  have hargument : Forms d reading .terms (if agg.kind = .avg then pushAverage d agg.table agg.column
      else pushColumn agg.table agg.column) := by
    split
    · exact (forms_average agg.table agg.column).terms
    · exact Forms.columns agg.table agg.column
  have hcall : Forms d reading .term ([Push.str agg.kind.sqlFn] ++ ([Push.str "("] ++
      ((if agg.kind = .countDistinct then [Push.str "DISTINCT "] else []) ++
        ((if agg.kind = .avg then pushAverage d agg.table agg.column
          else pushColumn agg.table agg.column) ++ [Push.str ")"])))) := by
    split
    · exact (hfunction.append (Forms.open_.append (hdistinct.append
        (hargument.append Forms.close)))).rule (by decide)
    · exact (hfunction.append (Forms.open_.append (hargument.append Forms.close))).rule (by decide)
  have htarget : Forms d reading .target _ := (hcall.append hlabel).rule (by decide)
  simpa [pushAggregate] using htarget

-- The query itself, up to its page.

theorem fits_selectKeyword (distinct : Bool) :
    Fits d reading [word .select, part .quantifier] (pushSelectKeyword distinct) := by
  have hselect : Fits d reading [word .select] [.str "SELECT "] := .text (by decide)
  cases distinct with
  | false => exact hselect.append (Fits.nil.rule (n := .quantifier) (by decide))
  | true =>
      have hword : Fits d reading [word .distinct] [.str "DISTINCT "] := .text (by decide)
      exact hselect.append (hword.rule (n := .quantifier) (by decide))

theorem forms_from (table : String) :
    Fits d reading [word .from_, part .tables] [.str " FROM ", .quoted table] := by
  have hfrom : Fits d reading [word .from_] [.str " FROM "] := .text (by decide)
  have hlabel : Forms d reading .label [] := Fits.nil.rule (by decide)
  have htable : Forms d reading .table ([Push.quoted table] ++ []) :=
    ((Fits.quoted table).append hlabel).rule (by decide)
  exact hfrom.append (Fits.rule htable (by decide))

theorem fits_core {k t f w g h o : List (Push S)}
    (hk : Fits d reading [word .select, part .quantifier] k) (ht : Forms d reading .targets t)
    (hf : Fits d reading [word .from_, part .tables] f) (hw : Forms d reading .where_ w)
    (hg : Forms d reading .group g) (hh : Forms d reading .having h)
    (ho : Forms d reading .order o) :
    Fits d reading [part .core, part .order] (k ++ (t ++ (f ++ (w ++ (g ++ h)))) ++ o) := by
  have hcore : Forms d reading .core (k ++ (t ++ (f ++ (w ++ (g ++ h))))) :=
    (hk.append (ht.append (hf.append (hw.append (hg.append hh))))).rule (by decide)
  exact hcore.append ho

theorem fits_select {m : Model} {f : FilterNode S} {order : List OrderBy} (projection : List String)
    (distinct : Bool) (hf : Forms d reading .cond (pushFilter d f)) (ho : ∀ o ∈ order, o.Closed d) :
    Fits d reading [part .core, part .order]
      (select d m projection f order none none distinct) := by
  have hgroup : Forms d reading .group [] := Fits.nil.rule (by decide)
  have hhaving : Forms d reading .having [] := Fits.nil.rule (by decide)
  have hcore := fits_core (fits_selectKeyword distinct)
    (forms_projection m.table (if projection.isEmpty then m.columns else projection))
    (forms_from m.table) (forms_where hf) hgroup hhaving (forms_orderBy ho)
  simpa [select, pushPage, pushNumber] using hcore

theorem forms_alias (name : Option String) : Forms d reading .label (pushAlias name) := by
  have has : Fits d reading [word .as_] [.str " AS "] := .text (by decide)
  cases name with
  | none => exact Fits.nil.rule (by decide)
  | some name => exact (has.append (Fits.quoted name)).rule (by decide)

theorem fits_joinKind {kind : JoinKind} (h : kind = .full → d = .postgres) :
    Fits d reading [part .joinKind, word .join] [.str (joinKindSql d kind)] := by
  have hplain : ∀ {s : String} {w : Symbol Lexeme Phrase}, Fits d reading [w, word .join] [.str s] →
      (⟨.joinKind, [w]⟩ : Rule) ∈ queryRules ++ conditionRules →
      Fits d reading [part .joinKind, word .join] [.str s] := fun hwords hrule =>
    Fits.expand (a := []) (b := [word .join]) hwords hrule
  cases kind with
  | inner =>
      exact hplain (w := word .inner) (s := "INNER JOIN") (.text (by decide)) (by decide)
  | left =>
      exact hplain (w := word .left) (s := "LEFT JOIN") (.text (by decide)) (by decide)
  | right =>
      exact hplain (w := word .right) (s := "RIGHT JOIN") (.text (by decide)) (by decide)
  | full =>
      obtain rfl := h rfl
      have hwords : Makes .postgres [part .joinKind] [.word .full, .word .outer] :=
        ((Makes.nil.cons (.word .outer)).cons (.word .full)).own (by decide)
      have hjoin := hwords.append (Makes.nil.cons (.word .join))
      have hlexemes : lexemes .postgres reading [.str (joinKindSql .postgres .full)]
          = [Lexeme.word .full, Lexeme.word .outer] ++ [Lexeme.word .join] := by
        rw [lexemes_str]
        decide
      rw [Fits, hlexemes]
      exact hjoin

theorem fits_joinSelect {on f : FilterNode S} {order : List OrderBy} (leftTable : String)
    (leftColumns : List String) (rightTable : String) (rightColumns : List String)
    (rightAlias : Option String) {kind : JoinKind} (distinct : Bool)
    (hkind : kind = .full → d = .postgres) (hon : Forms d reading .cond (pushFilter d on))
    (hf : Forms d reading .cond (pushFilter d f)) (ho : ∀ o ∈ order, o.Closed d) :
    Fits d reading [part .core, part .order]
      (joinSelectWithColumns d leftTable leftColumns rightTable rightColumns rightAlias kind on f
        order none none distinct) := by
  have hgroup : Forms d reading .group [] := Fits.nil.rule (by decide)
  have hhaving : Forms d reading .having [] := Fits.nil.rule (by decide)
  have hblank : Fits d reading [] [.str " "] := .text (by decide)
  have honClause : Fits d reading [word .on] [.str " ON "] := .text (by decide)
  obtain ⟨lefts, hleft, hlne, hlefts⟩ := allColumns_eq (d := d) (S := S) leftTable leftColumns
  obtain ⟨rights, hright, hrne, hrights⟩ :=
    allColumns_eq (d := d) (S := S) (rightAlias.getD rightTable) rightColumns
  have htargets : Forms d reading .targets (pushAllColumns leftTable leftColumns ++
      .str ", " :: pushAllColumns (rightAlias.getD rightTable) rightColumns) := by
    rw [hleft, hright]
    exact forms_targets_more hlne hlefts (forms_targets hrne hrights)
  have htable : Forms d reading .table ([Push.quoted rightTable] ++ pushAlias rightAlias) :=
    ((Fits.quoted rightTable).append (forms_alias rightAlias)).rule (by decide)
  have hjoin : Fits d reading [part .joinKind, word .join, part .table, word .on, part .cond]
      ([Push.str " "] ++ ([Push.str (joinKindSql d kind)] ++ ([Push.str " "] ++ (([Push.quoted rightTable] ++
        pushAlias rightAlias) ++ ([Push.str " ON "] ++ pushFilter d on))))) :=
    hblank.append ((fits_joinKind hkind).append (hblank.append (htable.append
      (honClause.append hon))))
  have hfrom := (forms_from (d := d) (S := S) leftTable).append hjoin
  have htables := Fits.expand (a := [word .from_]) (n := .tables) (b := [])
    (c := [part .tables, part .joinKind, word .join, part .table, word .on, part .cond]) hfrom
    (by decide)
  have hcore := fits_core (fits_selectKeyword distinct) htargets htables (forms_where hf) hgroup
    hhaving (forms_orderBy ho)
  simpa [joinSelectWithColumns, pushPage, pushNumber] using hcore

-- Without aggregates nothing is selected.
theorem fits_aggregateSelect {f having : FilterNode S} {order : List OrderBy} (table : String)
    {aggregates : List AggregateEntry} (groupBy : List String)
    (haggregates : aggregates = [] → d = .postgres) (hf : Forms d reading .cond (pushFilter d f))
    (hh : Forms d reading .cond (pushFilter d having)) (ho : ∀ o ∈ order, o.Closed d) :
    Fits d reading [part .core, part .order]
      (aggregateSelect d table aggregates f groupBy having order none none) := by
  cases aggregates with
  | nil =>
      obtain rfl := haggregates rfl
      have hselect : Fits .postgres reading [word .select] [.str "SELECT "] := .read (by decide)
      have hcore : Forms .postgres reading .core _ :=
        (hselect.append ((forms_from table).append ((forms_where hf).append
          ((forms_groupBy table groupBy).append (forms_having hh))))).own (by decide)
      simpa [aggregateSelect, separated, pushPage, pushNumber] using hcore.append (forms_orderBy ho)
  | cons first rest =>
      have htargets : Forms d reading .targets
          (separated ", " ((first :: rest).map (pushAggregate d))) := by
        refine forms_targets (by simp) fun item hitem => ?_
        obtain ⟨agg, -, rfl⟩ := List.mem_map.mp hitem
        exact forms_aggregate agg
      have hcore := fits_core (fits_selectKeyword false) htargets (forms_from table)
        (forms_where hf) (forms_groupBy table groupBy) (forms_having hh) (forms_orderBy ho)
      simpa [aggregateSelect, pushSelectKeyword, pushPage, pushNumber] using hcore

end Ruprizzle.Runtime
