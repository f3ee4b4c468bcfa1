import Ruprizzle.Runtime.FilterPhrases

namespace Ruprizzle.Runtime

-- The phrases of the operators on documents, arrays, texts and places.

variable {S : Type} {d : Dialect} {reading : S → List Lexeme} {p q rest : List (Push S)}
  {b : List (Symbol Lexeme Phrase)} {s t : String}

theorem tokens_inQuotes (hs : StaysIn d s.toList) :
    tokens d (inQuotes s).toList = [⟨.literal, (inQuotes s).toList⟩] := by
  have hlist : (inQuotes s).toList = '\x27' :: (s.toList ++ ['\x27']) := by simp [inQuotes]
  have hopen : Lexer.scan d .gap '\x27' = (.start .literal, .within (literalQuote d)) := by
    cases d <;> rfl
  have hclose : Lexer.scan d (.within (literalQuote d)) '\x27'
      = (.cont, .closing (literalQuote d)) := by cases d <;> rfl
  obtain ⟨hread, -⟩ := hs ['\x27']
  rw [tokens, hlist, Scan.read_start hopen, hread, Scan.read_cont hclose]
  rfl

theorem tokens_number (n : Nat) :
    tokens d (toString n).toList = [⟨.number, (toString n).toList⟩] := by
  have hlist : (toString n).toList = Nat.toDigits 10 n := Nat.toList_repr
  have hdigits : ∀ c ∈ Nat.toDigits 10 n, c.isDigit := fun c hc =>
    Nat.isDigit_of_mem_toDigits (by decide) (by decide) hc
  rw [hlist]
  cases hn : Nat.toDigits 10 n with
  | nil => exact absurd hn Nat.toDigits_ne_nil
  | cons c more =>
      rw [hn] at hdigits
      have hstart : Lexer.scan d .gap c = (.start .number, .number) := by
        rw [Lexer.scan, Sym.of_digit (hdigits c (by simp))]
        cases d <;> rfl
      have hstay : Scan.read (Lexer.scan d) .number more = (more, []) :=
        (Scan.read_stays fun e he => by
          rw [Lexer.scan, Sym.of_digit (hdigits e (List.mem_cons_of_mem c he))]
          rfl).1
      rw [tokens, Scan.read_start hstart, hstay]

namespace Fits

theorem literal (hs : StaysIn d s.toList) : Fits d reading [sign .literal] [.str (inQuotes s)] :=
  of_eq (by rw [lexemes_str, tokens_inQuotes hs]; rfl)

theorem number (n : Nat) : Fits d reading [sign .number] [.str (toString n)] :=
  of_eq (by rw [lexemes_str, tokens_number]; rfl)

-- A call up to its closing bracket, with which the next text begins.
theorem call (hopen : Fits d reading [sign .bare, sign .open_] [.str s])
    (hargs : Forms d reading .terms p) (hrest : Fits d reading (sign .close :: b) rest) :
    Fits d reading (part .term :: b) (.str s :: p ++ rest) := by
  have hall := hopen.append (hargs.append hrest)
  exact expand (a := []) (c := [sign .bare, sign .open_, part .terms, sign .close]) (b := b) hall
    (by decide)

end Fits

namespace Forms

theorem call (hopen : Fits d reading [sign .bare, sign .open_] [.str s])
    (hargs : Forms d reading .terms p) : Forms d reading .term (.str s :: p ++ [Push.str ")"]) :=
  Fits.call hopen hargs close

theorem literal (hs : StaysIn d s.toList) : Forms d reading .term [.str (inQuotes s)] :=
  (Fits.literal hs).rule (by decide)

theorem columns (table column : String) : Forms d reading .terms (pushColumn table column) :=
  (Forms.column table column).terms

-- A comparison of a call with a number.
theorem callTest (hopen : Fits d reading [sign .bare, sign .open_] [.str s])
    (hargs : Forms d reading .terms p)
    (htest : Fits d reading [sign .close, sign .compare, sign .number] [.str t]) :
    Forms d reading .cond (.str s :: p ++ [Push.str t]) := by
  have hall := Fits.call hopen hargs htest
  have hnumber := Fits.expand (a := [part .term, sign .compare]) (c := [sign .number]) (n := .term)
    (b := []) hall (by decide)
  exact pred (hnumber.rule (by decide))

-- A call that is NULL or a number.
theorem emptiness {u : String}
    (hopen : Fits d reading [sign .open_, sign .bare, sign .open_] [.str s])
    (hnull : Fits d reading [sign .close, word .is_, word .null, word .or_, sign .bare, sign .open_]
      [.str t])
    (hzero : Fits d reading [sign .close, sign .compare, sign .number, sign .close] [.str u])
    (hargs : Forms d reading .terms p) :
    Forms d reading .cond (.str s :: p ++ Push.str t :: p ++ [Push.str u]) := by
  have hall := hopen.append (hargs.append (hnull.append (hargs.append hzero)))
  have hfirst := Fits.expand (a := [sign .open_])
    (c := [sign .bare, sign .open_, part .terms, sign .close]) (n := .term)
    (b := [word .is_, word .null, word .or_, sign .bare, sign .open_, part .terms, sign .close,
      sign .compare, sign .number, sign .close]) hall (by decide)
  have hsecond := Fits.expand (a := [sign .open_, part .term, word .is_, word .null, word .or_])
    (c := [sign .bare, sign .open_, part .terms, sign .close]) (n := .term)
    (b := [sign .compare, sign .number, sign .close]) hfirst (by decide)
  have hterm := Fits.expand (n := .term) (c := [sign .number])
    (a := [sign .open_, part .term, word .is_, word .null, word .or_, part .term, sign .compare])
    (b := [sign .close]) hsecond (by decide)
  have htest := Fits.expand (a := [sign .open_, part .term, word .is_, word .null, word .or_])
    (c := [part .term, sign .compare, part .term]) (n := .pred) (b := [sign .close]) hterm
    (by decide)
  have hright := Fits.expand (a := [sign .open_, part .term, word .is_, word .null, word .or_])
    (c := [part .pred]) (n := .cond) (b := [sign .close]) htest (by decide)
  have hplain := Fits.expand (a := [sign .open_, part .term, word .is_]) (c := []) (n := .negation)
    (b := [word .null, word .or_, part .cond, sign .close]) hright (by decide)
  have hisNull := Fits.expand (a := [sign .open_])
    (c := [part .term, word .is_, part .negation, word .null]) (n := .pred)
    (b := [word .or_, part .cond, sign .close]) hplain (by decide)
  have hleft := Fits.expand (a := [sign .open_]) (c := [part .pred]) (n := .cond)
    (b := [word .or_, part .cond, sign .close]) hisNull (by decide)
  have hboth := Fits.expand (a := [sign .open_]) (c := [part .cond, word .or_, part .cond])
    (n := .cond) (b := [sign .close]) hleft (by decide)
  have hterms : Forms d reading .term (.str s :: (p ++ .str t :: (p ++ [Push.str u]))) :=
    hboth.rule (by decide)
  simpa using hterms.cond

end Forms

theorem forms_jsonExpr (table column : String) {path : JsonPath} (text : Bool)
    (h : JsonPath.Closed d path) :
    Forms d reading .term (pushJsonExpr d table column path text) := by
  have hcol : Forms d reading .term (pushColumn table column) := .column table column
  cases d with
  | postgres =>
      have harrow : Fits .postgres reading [sign .arrow] [.str (if text then "->>" else "->")] := by
        cases text <;> exact .text (by decide)
      have hpath : Fits .postgres reading [sign .pathArrow] [.str (if text then "#>>" else "#>")] := by
        cases text <;> exact .read (by decide)
      unfold pushJsonExpr pushJsonExprPostgres
      dsimp only
      split
      · simpa using hcol
      · next k =>
          have hkey : Forms .postgres reading .term [.str (inQuotes (jsonStringLiteral k))] :=
            .literal (jsonStringLiteral_stays k (by decide))
          exact (hcol.append (harrow.append hkey)).rule (by decide)
      · next i =>
          have hindex : Forms .postgres reading .term [.str (toString i)] :=
            (Fits.number i).rule (by decide)
          exact (hcol.append (harrow.append hindex)).rule (by decide)
      · next hnil hkey hindex =>
          have hpaired : ∀ seg ∈ path, seg.Paired := h.resolve_left fun hshort => by
            rcases path with - | ⟨seg, - | ⟨next, more⟩⟩
            · exact hnil rfl
            · cases seg with
              | key k => exact hkey k rfl
              | index i => exact hindex i rfl
            · simp at hshort
          have helements : Forms .postgres reading .term [.str (jsonPathArray path)] :=
            .literal (jsonPathArray_stays hpaired)
          exact (hcol.append (hpath.append helements)).own (by decide)
  | sqlite =>
      have hpath : Forms .sqlite reading .term [.str (inQuotes (jsonPathWithKey path none))] :=
        .literal (jsonPathWithKey_stays (h.paired (by decide)) (by simp))
      unfold pushJsonExpr pushJsonExprSqlite
      dsimp only
      split
      · exact hcol
      split
      · have harrow : Fits .sqlite reading [sign .arrow] [.str "->>"] := .read (by decide)
        exact (hcol.append (harrow.append hpath)).rule (by decide)
      · have hargs := hcol.more hpath.terms
        simpa using Forms.call (.text (by decide)) hargs
  | mysql =>
      have hpath : Forms .mysql reading .term [.str (inQuotes (jsonPathWithKey path none))] :=
        .literal (jsonPathWithKey_stays (h.paired (by decide)) (by simp))
      have hargs := hcol.more hpath.terms
      unfold pushJsonExpr pushJsonExprMysql
      dsimp only
      split
      · exact hcol
      cases text with
      | false => simpa using Forms.call (.text (by decide)) hargs
      | true =>
          have hopen : Fits .mysql reading [sign .bare, sign .open_, sign .bare, sign .open_]
              [.str "JSON_UNQUOTE(JSON_EXTRACT("] := .text (by decide)
          have hclose : Fits .mysql reading [sign .close, sign .close] [.str "))"] :=
            .read (by decide)
          have hall := hopen.append (hargs.append hclose)
          have hinner := Fits.expand (a := [sign .bare, sign .open_]) (b := [sign .close])
            (c := [sign .bare, sign .open_, part .terms, sign .close]) (n := .term) hall (by decide)
          have houter := Fits.expand (a := [sign .bare, sign .open_]) (b := [sign .close])
            (c := [part .term]) (n := .terms) hinner (by decide)
          have hterm : Forms .mysql reading .term _ := houter.rule (by decide)
          simpa using hterm

theorem forms_jsonType (table column : String) {path : JsonPath} {extra : Option String}
    (hpath : ∀ seg ∈ path, seg.Paired) (hextra : ∀ k ∈ extra, pairedQuotes k.toList = true) :
    Forms d reading .pred (pushJsonType table column path extra) := by
  have hliteral : Forms d reading .term [.str (inQuotes (jsonPathWithKey path extra))] :=
    .literal (jsonPathWithKey_stays hpath hextra)
  have hargs := (Forms.column table column).more hliteral.terms
  have htail : Fits d reading [sign .close, word .is_, word .not_, word .null]
      [.str ") IS NOT NULL"] := .text (by decide)
  have hall := Fits.call (s := "json_type(") (.text (by decide)) hargs htail
  have hnot := Fits.expand (a := [part .term, word .is_]) (c := [word .not_]) (n := .negation)
    (b := [word .null]) hall (by decide)
  have hpred : Forms d reading .pred _ := hnot.rule (by decide)
  simpa [pushJsonType] using hpred

theorem forms_jsonContains (table column : String) {path : JsonPath} {value : Value}
    (hpath : JsonPath.Closed d path)
    (hkeys : ∀ k ∈ spelledKeys d value, pairedQuotes k.toList = true) :
    Forms d reading .cond (pushJsonContains d table column path value) := by
  cases d with
  | postgres =>
      have hcontains : Fits .postgres reading [sign .contains] [.str " @> "] :=
        .read (by decide)
      have hcast : Fits .postgres reading [sign .cast, sign .bare] [.str "::jsonb"] :=
        .read (by decide)
      have htype := Fits.expand (a := [part .term, sign .cast]) (c := [sign .bare]) (n := .type_)
        (b := []) ((Forms.bind value).append hcast) (by decide)
      have hvalue : Forms .postgres reading .term ([Push.bind value] ++ [Push.str "::jsonb"]) :=
        htype.own (by decide)
      have hleft : Forms .postgres reading .term (pushJsonExpr .postgres table column path false) :=
        forms_jsonExpr table column false hpath
      have hpred := (hleft.append (hcontains.append hvalue)).own (n := .pred) (by decide)
      exact hpred.pred
  | mysql =>
      have hliteral : Forms .mysql reading .term [.str (inQuotes (jsonPathWithKey path none))] :=
        .literal (jsonPathWithKey_stays (hpath.paired (by decide)) (by simp))
      have hargs := (Forms.column table column).more ((Forms.bind value).more hliteral.terms)
      have hcall := Forms.call (s := "JSON_CONTAINS(") (.text (by decide)) hargs
      simpa [pushJsonContains] using hcall.cond
  | sqlite =>
      have hpath := hpath.paired (by decide)
      unfold pushJsonContains
      dsimp only
      split
      · next member members =>
          refine Forms.cond (Forms.brackets ?_)
          refine Forms.conjunction (by simp) fun item hitem => ?_
          obtain ⟨⟨k, v⟩, hmem, rfl⟩ := List.mem_map.mp hitem
          refine (forms_jsonType table column hpath ?_).pred
          rintro _ ⟨rfl⟩
          exact hkeys k (List.mem_map.mpr ⟨(k, v), hmem, rfl⟩)
      · exact (forms_jsonType table column hpath (by simp)).pred


theorem forms_jsonHasKey (table column : String) {path : JsonPath} {value : Value}
    (h : JsonFilterOp.Closed d path value .hasKey) :
    Forms d reading .cond (pushJsonHasKey d table column path value) := by
  cases d with
  | postgres =>
      have hhas : Fits .postgres reading [sign .contains] [.str " ? "] := .read (by decide)
      have hcol : Forms .postgres reading .term (pushJsonExpr .postgres table column [] false) :=
        forms_jsonExpr table column false (Or.inl ⟨rfl, by simp⟩)
      have hpred := (hcol.append (hhas.append (Forms.bind value))).own (n := .pred) (by decide)
      exact hpred.pred
  | mysql =>
      obtain ⟨hpath, hkey⟩ := h.resolve_left (by decide)
      have hone : Fits .mysql reading [sign .comma, sign .literal, sign .comma] [.str ", 'one', "] :=
        .text (by decide)
      have hliteral : Forms .mysql reading .terms
          [.str (inQuotes (jsonPathWithKey path (keyOf value)))] :=
        (Forms.literal (jsonPathWithKey_stays hpath (by simpa using hkey))).terms
      have hall := (Forms.column table column).append (hone.append hliteral)
      have hmiddle := Fits.expand (a := [part .term, sign .comma]) (c := [sign .literal]) (n := .term)
        (b := [sign .comma, part .terms]) hall (by decide)
      have hlater := Fits.expand (a := [part .term, sign .comma]) (n := .terms)
        (c := [part .term, sign .comma, part .terms]) (b := []) hmiddle (by decide)
      have hargs : Forms .mysql reading .terms _ := hlater.rule (by decide)
      have hcall := Forms.call (s := "JSON_CONTAINS_PATH(") (.text (by decide)) hargs
      simpa [pushJsonHasKey] using hcall.cond
  | sqlite =>
      obtain ⟨hpath, hkey⟩ := h.resolve_left (by decide)
      exact (forms_jsonType table column hpath (by simpa using hkey)).pred

theorem forms_jsonArray (values : List Value) :
    Forms .mysql reading .term (pushJsonArray values) := by
  have hopen : Fits .mysql reading [sign .bare, sign .open_] [.str "JSON_ARRAY("] :=
    .read (by decide)
  cases values with
  | nil => exact (hopen.append Forms.close).rule (by decide)
  | cons v more => exact Forms.call hopen (Forms.binds (by simp))

theorem forms_arrayOpPostgres (table column : String) (op : ArrayFilterOp) (values : List Value) :
    Forms .postgres reading .cond (pushArrayOpPostgres table column op values) := by
  have hcol : Forms .postgres reading .term (pushColumn table column) := .column table column
  have hoperator : ∀ {s : String}, Fits .postgres reading [sign .contains] [.str s] →
      Forms .postgres reading .cond (pushColumn table column ++ [Push.str s, Push.bind (.array values)]) := by
    intro s hs
    have hpred := (hcol.append (hs.append (Forms.bind (.array values)))).own (n := .pred)
      (by decide)
    exact hpred.pred
  cases op with
  | has =>
      have hany : Fits .postgres reading [sign .compare, sign .bare, sign .open_] [.str " = ANY("] :=
        .read (by decide)
      have hall := (Forms.bind (values.head?.getD .null)).append
        (hany.append (hcol.terms.append Forms.close))
      have hcall := Fits.expand (a := [part .term, sign .compare]) (n := .term) (b := [])
        (c := [sign .bare, sign .open_, part .terms, sign .close]) hall (by decide)
      have hpred : Forms .postgres reading .pred _ := hcall.rule (by decide)
      exact hpred.pred
  | contains => exact hoperator (.read (by decide))
  | containedBy => exact hoperator (.read (by decide))
  | overlaps => exact hoperator (.read (by decide))
  | isEmpty =>
      exact Forms.emptiness (.read (by decide)) (.read (by decide)) (.read (by decide)) hcol.terms
  | isNotEmpty => exact Forms.callTest (.read (by decide)) hcol.terms (.read (by decide))

theorem forms_arrayOpMysql (table column : String) (op : ArrayFilterOp) (values : List Value) :
    Forms .mysql reading .cond (pushArrayOpMysql table column op values) := by
  have hcol : Forms .mysql reading .term (pushColumn table column) := .column table column
  have hpath : Fits .mysql reading [sign .comma, sign .literal, sign .close] [.str ", '$')"] :=
    .read (by decide)
  -- A call on two terms and the path of the whole document.
  have hcontains : ∀ {l r : List (Push S)}, Forms .mysql reading .term l →
      Forms .mysql reading .term r →
      Forms .mysql reading .cond
        (.str "JSON_CONTAINS(" :: (l ++ Push.str ", " :: (r ++ [Push.str ", '$')"]))) := by
    intro l r hl hr
    have hopen : Fits .mysql reading [sign .bare, sign .open_] [.str "JSON_CONTAINS("] :=
      .read (by decide)
    have hall := hopen.append (hl.append (Forms.comma.append (hr.append hpath)))
    have hliteral := Fits.expand (c := [sign .literal]) (n := .term) (b := [sign .close])
      (a := [sign .bare, sign .open_, part .term, sign .comma, part .term, sign .comma]) hall
      (by decide)
    have hlast := Fits.expand (c := [part .term]) (n := .terms) (b := [sign .close])
      (a := [sign .bare, sign .open_, part .term, sign .comma, part .term, sign .comma]) hliteral
      (by decide)
    have hlater := Fits.expand (c := [part .term, sign .comma, part .terms]) (n := .terms)
      (a := [sign .bare, sign .open_, part .term, sign .comma]) (b := [sign .close]) hlast
      (by decide)
    have hterms := Fits.expand (c := [part .term, sign .comma, part .terms]) (n := .terms)
      (a := [sign .bare, sign .open_]) (b := [sign .close]) hlater (by decide)
    have hcall : Forms .mysql reading .term _ := hterms.rule (by decide)
    exact hcall.cond
  cases op with
  | has =>
      cases values with
      | nil =>
          have hempty : Fits .mysql reading [sign .bare, sign .open_, sign .close]
              [.str "JSON_ARRAY()"] := .read (by decide)
          simpa [pushArrayOpMysql] using hcontains hcol (hempty.rule (by decide))
      | cons v more => simpa [pushArrayOpMysql] using hcontains hcol (forms_jsonArray [v])
  | contains => simpa [pushArrayOpMysql] using hcontains hcol (forms_jsonArray values)
  | containedBy => simpa [pushArrayOpMysql] using hcontains (forms_jsonArray values) hcol
  | overlaps =>
      have hcall := Forms.call (s := "JSON_OVERLAPS(") (.read (by decide))
        (hcol.more (forms_jsonArray values).terms)
      simpa [pushArrayOpMysql] using hcall.cond
  | isEmpty =>
      exact Forms.emptiness (.read (by decide)) (.read (by decide)) (.read (by decide)) hcol.terms
  | isNotEmpty => exact Forms.callTest (.read (by decide)) hcol.terms (.read (by decide))

-- A question to the elements of an array, by what it says of them.
theorem forms_jsonEach (table column : String) {test : String} {tail : List (Push S)}
    {v w : List Lexeme}
    (htest : (tokens .sqlite (") WHERE json_each.value " ++ test).toList).map Lexeme.of
      = [Lexeme.close, Lexeme.word .where_, Lexeme.bare, Lexeme.dot, Lexeme.bare] ++ v)
    (htail : lexemes .sqlite reading tail = w ++ [Lexeme.close])
    (hcond : Makes .sqlite [part .cond] ([Lexeme.bare, Lexeme.dot, Lexeme.bare] ++ (v ++ w))) :
    Forms .sqlite reading .cond (pushJsonEach table column test tail) := by
  have hopen : lexemes .sqlite reading [.str "EXISTS (SELECT 1 FROM json_each("]
      = [.word .exists_, .open_, .word .select, .number, .word .from_, .bare, .open_] := by
    rw [lexemes_str]
    decide
  have hargs : Makes .sqlite [part .terms] (lexemes .sqlite reading (pushColumn table column)) :=
    Forms.columns table column
  have hlabel : Makes .sqlite [part .label] [] := Makes.nil.rule (by decide)
  have htable : Makes .sqlite [part .table]
      (.bare :: .open_ :: (lexemes .sqlite reading (pushColumn table column) ++ [Lexeme.close])) := by
    have hall := ((hargs.append (hlabel.cons .close)).cons .open_).cons .bare
    exact hall.own (by decide)
  have hexists := makes_exists false (makes_select htable hcond)
  have hlexemes : lexemes .sqlite reading (pushJsonEach table column test tail)
      = .word .exists_ :: .open_ :: ([Lexeme.word .select, Lexeme.number, Lexeme.word .from_]
        ++ (.bare :: .open_ :: (lexemes .sqlite reading (pushColumn table column) ++ [Lexeme.close]))
        ++ .word .where_ :: ([Lexeme.bare, Lexeme.dot, Lexeme.bare] ++ (v ++ w)) ++ [Lexeme.close]) := by
    rw [pushJsonEach, List.cons_append, lexemes_cons, hopen, lexemes_append,
      lexemes_cons (.str (") WHERE json_each.value " ++ test)), lexemes_str, htest, htail]
    simp
  rw [Forms, Fits, hlexemes]
  exact hexists

theorem forms_arrayOpSqlite (table column : String) (op : ArrayFilterOp) (values : List Value) :
    Forms .sqlite reading .cond (pushArrayOpSqlite table column op values) := by
  have hcol : Forms .sqlite reading .term (pushColumn table column) := .column table column
  have hclose : lexemes .sqlite reading [.str ")"] = [.close] := by
    rw [lexemes_str]
    decide
  have hvalue : Makes .sqlite [part .term] [.bare, .dot, .bare] :=
    (((Makes.nil.cons .bare).cons .dot).cons .bare).rule (by decide)
  have hequals : ∀ value : Value, Forms .sqlite reading .cond
      (pushJsonEach table column "= " [.bind value, .str ")"]) := by
    intro value
    have hpred : Makes .sqlite [part .pred] ([Lexeme.bare, Lexeme.dot, Lexeme.bare] ++ [Lexeme.compare, Lexeme.value]) := by
      have hright : Makes .sqlite [part .term] [.value] := (Makes.nil.cons .value).rule (by decide)
      exact (hvalue.append (hright.cons .compare)).rule (by decide)
    refine forms_jsonEach table column (v := [.compare]) (w := [.value]) (by decide) ?_
      (hpred.rule (by decide))
    rw [lexemes_cons, hclose]
    rfl
  -- A list of values after IN, or after NOT IN.
  have hlist : ∀ (negated : Bool), values ≠ [] → Forms .sqlite reading .cond
      (pushJsonEach table column (if negated then "NOT IN (" else "IN (")
        (pushBinds values ++ [Push.str "))"])) := by
    intro negated hne
    have hvalues : Makes .sqlite [part .terms] (lexemes .sqlite reading (pushBinds values)) :=
      Forms.binds hne
    have hend : Makes .sqlite [sign .close] [.close] := Makes.nil.cons .close
    have hin := ((hvalues.append hend).cons .open_).cons (.word .in_)
    have hnegation : Makes .sqlite [part .negation] (if negated then [Lexeme.word .not_] else []) := by
      cases negated with
      | false => exact Makes.nil.rule (by decide)
      | true => exact (Makes.nil.cons (.word .not_)).rule (by decide)
    have hpred : Makes .sqlite [part .pred] _ :=
      (hvalue.append (hnegation.append hin)).rule (by decide)
    have hclosing : lexemes .sqlite reading [.str "))"] = [.close, .close] := by
      rw [lexemes_str]
      decide
    refine forms_jsonEach table column
      (v := (if negated then [Lexeme.word .not_] else []) ++ [Lexeme.word .in_, Lexeme.open_])
      (w := lexemes .sqlite reading (pushBinds values) ++ [Lexeme.close]) ?_ ?_ ?_
    · cases negated <;> decide
    · rw [lexemes_append, hclosing]
      simp
    · simpa using hpred.rule (n := .cond) (by decide)
  unfold pushArrayOpSqlite
  cases op with
  | has => exact hequals _
  | contains =>
      dsimp only
      split
      · have hone : Forms .sqlite reading .term [.str "1"] :=
          Fits.rule (a := [sign .number]) (.read (by decide)) (by decide)
        exact hone.cond
      · next hne =>
          refine Forms.conjunction (by simpa using hne) fun item hitem => ?_
          obtain ⟨value, -, rfl⟩ := List.mem_map.mp hitem
          exact hequals value
  | containedBy =>
      dsimp only
      split
      · have hopen : Fits .sqlite reading [sign .open_, sign .bare, sign .open_]
            [.str "(json_array_length("] := .read (by decide)
        have hzero : Fits .sqlite reading [sign .close, sign .compare, sign .number, sign .close]
            [.str ") = 0)"] := .read (by decide)
        have hall := hopen.append (hcol.terms.append hzero)
        have hcall := Fits.expand (a := [sign .open_]) (n := .term)
          (c := [sign .bare, sign .open_, part .terms, sign .close])
          (b := [sign .compare, sign .number, sign .close]) hall (by decide)
        have hnumber := Fits.expand (a := [sign .open_, part .term, sign .compare]) (n := .term)
          (c := [sign .number]) (b := [sign .close]) hcall (by decide)
        have hpred := Fits.expand (a := [sign .open_]) (n := .pred) (b := [sign .close])
          (c := [part .term, sign .compare, part .term]) hnumber (by decide)
        have hcond := Fits.expand (a := [sign .open_]) (n := .cond) (b := [sign .close])
          (c := [part .pred]) hpred (by decide)
        have hterm : Forms .sqlite reading .term _ := hcond.rule (by decide)
        simpa using hterm.cond
      · next hne =>
          have hnot : Fits .sqlite reading [word .not_] [.str "NOT "] := .read (by decide)
          exact (hnot.append (hlist true (by simpa using hne))).rule (by decide)
  | overlaps =>
      dsimp only
      split
      · have hzero : Forms .sqlite reading .term [.str "0"] :=
          Fits.rule (a := [sign .number]) (.read (by decide)) (by decide)
        exact hzero.cond
      · next hne => exact hlist false (by simpa using hne)
  | isEmpty =>
      exact Forms.emptiness (.read (by decide)) (.read (by decide)) (.read (by decide)) hcol.terms
  | isNotEmpty => exact Forms.callTest (.read (by decide)) hcol.terms (.read (by decide))

theorem forms_arrayOp (table column : String) (op : ArrayFilterOp) (values : List Value) :
    Forms d reading .cond (pushArrayOp d table column op values) := by
  cases d with
  | postgres => exact forms_arrayOpPostgres table column op values
  | mysql => exact forms_arrayOpMysql table column op values
  | sqlite => exact forms_arrayOpSqlite table column op values

theorem forms_fullTextMatch (table column query : String) :
    Forms d reading .cond (pushFullTextMatch d table column query) := by
  have hcol : ∀ {d : Dialect}, Forms d reading .term (pushColumn table column) :=
    Forms.column table column
  cases d with
  | postgres =>
      have hopen : Fits .postgres reading [sign .bare, sign .open_, sign .literal, sign .comma]
          [.str "to_tsvector('english', "] := .read (by decide)
      have hmiddle : Fits .postgres reading
          [sign .close, sign .contains, sign .bare, sign .open_, sign .literal, sign .comma]
          [.str ") @@ plainto_tsquery('english', "] := .read (by decide)
      have hall := hopen.append (hcol.terms.append
        (hmiddle.append ((Forms.bind (.str query)).terms.append Forms.close)))
      have hfirst := Fits.expand (a := [sign .bare, sign .open_]) (c := [sign .literal]) (n := .term)
        (b := [sign .comma, part .terms, sign .close, sign .contains, sign .bare, sign .open_,
          sign .literal, sign .comma, part .terms, sign .close]) hall (by decide)
      have hsecond := Fits.expand (c := [sign .literal]) (n := .term)
        (a := [sign .bare, sign .open_, part .term, sign .comma, part .terms, sign .close,
          sign .contains, sign .bare, sign .open_])
        (b := [sign .comma, part .terms, sign .close]) hfirst (by decide)
      have hleft := Fits.expand (a := [sign .bare, sign .open_]) (n := .terms)
        (c := [part .term, sign .comma, part .terms])
        (b := [sign .close, sign .contains, sign .bare, sign .open_, part .term, sign .comma,
          part .terms, sign .close]) hsecond (by decide)
      have hright := Fits.expand (n := .terms) (c := [part .term, sign .comma, part .terms])
        (a := [sign .bare, sign .open_, part .terms, sign .close, sign .contains, sign .bare,
          sign .open_]) (b := [sign .close]) hleft (by decide)
      have hvector := Fits.expand (a := []) (n := .term)
        (c := [sign .bare, sign .open_, part .terms, sign .close])
        (b := [sign .contains, sign .bare, sign .open_, part .terms, sign .close]) hright
        (by decide)
      have hquery := Fits.expand (a := [part .term, sign .contains]) (n := .term) (b := [])
        (c := [sign .bare, sign .open_, part .terms, sign .close]) hvector (by decide)
      have hpred : Forms .postgres reading .pred _ := hquery.own (by decide)
      simpa [pushFullTextMatch] using hpred.pred
  | mysql =>
      have hopen : Fits .mysql reading [word .match_, sign .open_] [.str "MATCH("] :=
        .read (by decide)
      have hmiddle : Fits .mysql reading [sign .close, word .against, sign .open_]
          [.str ") AGAINST("] := .read (by decide)
      have hmode : Fits .mysql reading
          [word .in_, word .natural, word .language, word .mode, sign .close]
          [.str " IN NATURAL LANGUAGE MODE)"] := .read (by decide)
      have hall := hopen.append (hcol.terms.append
        (hmiddle.append ((Forms.bind (.str query)).append hmode)))
      have hpred : Forms .mysql reading .pred _ := hall.own (by decide)
      simpa [pushFullTextMatch] using hpred.pred
  | sqlite =>
      have hmatch : Fits .sqlite reading [word .match_] [.str " MATCH "] := .read (by decide)
      have hpred := (hcol.append (hmatch.append (Forms.bind (.str query)))).own (n := .pred)
        (by decide)
      exact hpred.pred

-- A spatial call without its closing bracket.
theorem fits_spatialCall {function : String} (table column geometry : String)
    (hfunction : Fits d reading [sign .bare, sign .open_] [.str (function ++ "(")]) :
    Fits d reading [sign .bare, sign .open_, part .term, sign .comma, part .term]
      (pushSpatialCall d function table column geometry) := by
  have hcol : Forms d reading .term (pushColumn table column) := .column table column
  have hopen : Fits d reading [sign .comma, sign .bare, sign .open_] [.str ", ST_GeomFromText("] :=
    .text (by decide)
  have hgeometry : Fits d reading [sign .bare, sign .open_, part .term, sign .comma, sign .bare,
      sign .open_, part .terms, sign .close] (pushSpatialCall d function table column geometry) := by
    unfold pushSpatialCall
    split
    · have hsystem : Fits d reading [sign .comma, sign .number, sign .close] [.str ", 4326)"] :=
        .text (by decide)
      have hall := hfunction.append (hcol.append
        (hopen.append ((Forms.bind (.str geometry)).append hsystem)))
      have hnumber := Fits.expand (c := [sign .number]) (n := .term) (b := [sign .close])
        (a := [sign .bare, sign .open_, part .term, sign .comma, sign .bare, sign .open_, part .term,
          sign .comma]) hall (by decide)
      have hlast := Fits.expand (c := [part .term]) (n := .terms) (b := [sign .close])
        (a := [sign .bare, sign .open_, part .term, sign .comma, sign .bare, sign .open_, part .term,
          sign .comma]) hnumber (by decide)
      exact Fits.expand (c := [part .term, sign .comma, part .terms]) (n := .terms)
        (a := [sign .bare, sign .open_, part .term, sign .comma, sign .bare, sign .open_])
        (b := [sign .close]) hlast (by decide)
    · exact hfunction.append (hcol.append
        (hopen.append ((Forms.bind (.str geometry)).terms.append Forms.close)))
  exact Fits.expand (c := [sign .bare, sign .open_, part .terms, sign .close]) (n := .term) (b := [])
    (a := [sign .bare, sign .open_, part .term, sign .comma]) hgeometry (by decide)

theorem forms_spatialOp (table column : String) (op : SpatialOp) (geometry : String)
    (distance : Option F64) :
    Forms d reading .cond (pushSpatialOp d table column op geometry distance) := by
  -- Two arguments and the bracket, then what follows.
  have htwo : ∀ {function : String} {b : List (Symbol Lexeme Phrase)} {rest : List (Push S)},
      Fits d reading [sign .bare, sign .open_] [.str (function ++ "(")] →
      Fits d reading (sign .close :: b) rest →
      Fits d reading (part .term :: b) (pushSpatialCall d function table column geometry ++ rest) := by
    intro function b rest hfunction hrest
    have hall := (fits_spatialCall table column geometry hfunction).append hrest
    have hlast := Fits.expand (c := [part .term]) (n := .terms) (b := sign .close :: b)
      (a := [sign .bare, sign .open_, part .term, sign .comma]) hall (by decide)
    have hterms := Fits.expand (c := [part .term, sign .comma, part .terms]) (n := .terms)
      (a := [sign .bare, sign .open_]) (b := sign .close :: b) hlast (by decide)
    exact Fits.expand (c := [sign .bare, sign .open_, part .terms, sign .close]) (n := .term) (a := [])
      (b := b) hterms (by decide)
  have hcall : ∀ {function : String}, Fits d reading [sign .bare, sign .open_]
      [.str (function ++ "(")] →
      Forms d reading .cond (pushSpatialCall d function table column geometry ++ [Push.str ")"]) :=
    fun hfunction => Forms.cond (htwo hfunction Forms.close)
  have hdistance : Fits d reading [part .term, sign .compare, part .term]
      (pushSpatialCall d "ST_Distance" table column geometry ++
        [Push.str ") <= ", Push.bind (.f64 (distance.getD F64.zero))]) := by
    have htest : Fits d reading [sign .close, sign .compare] [.str ") <= "] := .text (by decide)
    exact htwo (.text (by decide)) (htest.append (Forms.bind _))
  cases op with
  | withinRadius =>
      cases d with
      | postgres =>
          have hwithin : Fits .postgres reading _
              (pushSpatialCall .postgres "ST_DWithin" table column geometry) :=
            fits_spatialCall table column geometry (.read (by decide))
          have hall := hwithin.append (Forms.comma.append
              ((Forms.bind (.f64 (distance.getD F64.zero))).terms.append Forms.close))
          have hlater := Fits.expand (c := [part .term, sign .comma, part .terms]) (n := .terms)
            (a := [sign .bare, sign .open_, part .term, sign .comma]) (b := [sign .close]) hall
            (by decide)
          have hterms := Fits.expand (c := [part .term, sign .comma, part .terms]) (n := .terms)
            (a := [sign .bare, sign .open_]) (b := [sign .close]) hlater (by decide)
          exact Forms.cond (hterms.rule (by decide))
      | mysql => exact Forms.pred (hdistance.rule (by decide))
      | sqlite => exact Forms.pred (hdistance.rule (by decide))
  | intersects => exact hcall (.text (by decide))
  | contains => exact hcall (.text (by decide))
  | within => exact hcall (.text (by decide))

end Ruprizzle.Runtime
