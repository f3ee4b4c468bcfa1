import Ruprizzle.Runtime.Sentences

namespace Ruprizzle.Runtime

open ContextFree

-- The statements that ask for rows, as sentences of their dialect.

variable {S : Type} {d : Dialect} {sub sub' : S → Prop} {reading : S → List Lexeme}

theorem paged_eq (limit offset : Option Nat) (main : List Lexeme) :
    paged (template Lexeme.ofPiece d) " OFFSET " offset
      (paged (template Lexeme.ofPiece d) " LIMIT " limit main)
      = main ++ lexemes d id (pushPage limit offset) := by
  have hpaged : ∀ (clause : String) (n : Option Nat) (ws : List Lexeme),
      paged (template Lexeme.ofPiece d) clause n ws = ws ++ lexemes d id (pushNumber clause n) := by
    intro clause n ws
    cases n with
    | none => exact (List.append_nil ws).symm
    | some n => rw [paged, template_eq, lexemes_cons, lexemes_renumbered, pushNumber, id]
  rw [hpaged, hpaged, pushPage, lexemes_append, List.append_assoc]

theorem forms_setOp (op : SetOp) {left right : List Lexeme} (hl : Makes d [part .statement] left)
    (hr : Makes d [part .statement] right) : Forms d id .compound (setOp d op left right) := by
  have hstatement : ∀ {ws : List Lexeme}, Makes d [part .statement] ws →
      Fits d id [part .statement] [.renumbered ws] := by
    intro ws hws
    rw [Fits, lexemes_renumbered]
    exact hws
  have hop : Forms d id .setOp [.str op.sql] := by
    cases op with
    | union => exact Fits.rule (a := [word .union]) (.text (by decide)) (by decide)
    | unionAll => exact Fits.rule (a := [word .union, word .all]) (.text (by decide)) (by decide)
    | intersect => exact Fits.rule (a := [word .intersect]) (.text (by decide)) (by decide)
    | except => exact Fits.rule (a := [word .except]) (.text (by decide)) (by decide)
  have hjoined : ∀ {p q : List (Push (List Lexeme))}, Forms d id .operand p → Forms d id .operand q →
      Forms d id .compound (p ++ ([Push.str op.sql] ++ q)) := by
    intro p q hp hq
    have hfirst : Forms d id .compound p := Fits.rule hp (by decide)
    exact (hfirst.append (hop.append hq)).rule (by decide)
  unfold setOp
  split
  · have hselected : ∀ {ws : List Lexeme} {s t : String}, Makes d [part .statement] ws →
        Fits d id [word .select, sign .star, word .from_, sign .open_] [.str s] →
        Fits d id [sign .close, word .as_, sign .bare] [.str t] →
        Forms d id .operand [.str s, .renumbered ws, .str t] := by
      intro ws s t hws hs ht
      have hall := hs.append ((hstatement hws).append ht)
      have hlabel := Fits.expand (c := [word .as_, sign .bare]) (n := .label) (b := [])
        (a := [word .select, sign .star, word .from_, sign .open_, part .statement, sign .close]) hall
        (by decide)
      have htable := Fits.expand (a := [word .select, sign .star, word .from_]) (n := .table) (b := [])
        (c := [sign .open_, part .statement, sign .close, part .label]) hlabel (by decide)
      have htables := Fits.expand (a := [word .select, sign .star, word .from_]) (c := [part .table])
        (n := .tables) (b := []) htable (by decide)
      have htarget := Fits.expand (a := [word .select]) (c := [sign .star]) (n := .target)
        (b := [word .from_, part .tables]) htables (by decide)
      have htargets := Fits.expand (a := [word .select]) (c := [part .target]) (n := .targets)
        (b := [word .from_, part .tables]) htarget (by decide)
      have hquantifier := Fits.expand (a := [word .select]) (c := []) (n := .quantifier)
        (b := [part .targets, word .from_, part .tables]) htargets (by decide)
      have hwhere : Forms d id .where_ [] := Fits.nil.rule (by decide)
      have hgroup : Forms d id .group [] := Fits.nil.rule (by decide)
      have hhaving : Forms d id .having [] := Fits.nil.rule (by decide)
      have hcore : Forms d id .core _ :=
        (hquantifier.append (hwhere.append (hgroup.append hhaving))).rule (by decide)
      simpa using Fits.rule (n := .operand) hcore (by decide)
    have hleft := hselected (s := "SELECT * FROM (") (t := ") AS __rz_l ") hl (.text (by decide)) (.text (by decide))
    have hright := hselected (s := " SELECT * FROM (") (t := ") AS __rz_r") hr (.text (by decide)) (.text (by decide))
    exact hjoined hleft hright
  · next hd =>
      have hbracketed : ∀ {ws : List Lexeme} {s t : String}, Makes d [part .statement] ws →
          Fits d id [sign .open_] [.str s] → Fits d id [sign .close] [.str t] →
          Forms d id .operand [.str s, .renumbered ws, .str t] := by
        intro ws s t hws hs ht
        have hall := hs.append ((hstatement hws).append ht)
        cases d with
        | postgres => exact hall.own (by decide)
        | mysql => exact hall.own (by decide)
        | sqlite => exact absurd rfl hd
      have hleft := hbracketed (s := "(") (t := ") ") hl (.text (by decide)) (.text (by decide))
      have hright := hbracketed (s := " (") (t := ")") hr (.text (by decide)) (.text (by decide))
      exact hjoined hleft hright

-- A query for one expression of the rows that a filter leaves.
theorem forms_single {s : String} {c : List (Symbol Lexeme Phrase)} {f : FilterNode S} (table : String)
    (hterm : (⟨.term, c⟩ : Rule) ∈ queryRules ++ conditionRules)
    (hopen : Fits d reading (word .select :: (c ++ [word .from_])) [.str s])
    (hf : Forms d reading .cond (pushFilter d f)) :
    Forms d reading .core (.str s :: .quoted table :: pushWhere d " WHERE " f) := by
  have hlabel : Forms d reading .label [] := Fits.nil.rule (by decide)
  have htable : Forms d reading .table ([Push.quoted table] ++ []) :=
    ((Fits.quoted table).append hlabel).rule (by decide)
  have htables : Forms d reading .tables ([Push.quoted table] ++ []) := Fits.rule htable (by decide)
  have hgroup : Forms d reading .group [] := Fits.nil.rule (by decide)
  have hhaving : Forms d reading .having [] := Fits.nil.rule (by decide)
  have hall := hopen.append (htables.append ((forms_where hf).append (hgroup.append hhaving)))
  let rest := [word .from_, part .tables, part .where_, part .group, part .having]
  have hsplit : word .select :: (c ++ [word .from_]) ++
      ([part .tables] ++ ([part .where_] ++ ([part .group] ++ [part .having])))
      = [word .select] ++ c ++ rest := by
    simp [rest]
  rw [hsplit] at hall
  have hselected := Fits.expand (n := .term) hall hterm
  have hlabelled := Fits.expand (a := [word .select, part .term]) (c := []) (n := .label) (b := rest)
    hselected (by decide)
  have htarget := Fits.expand (a := [word .select]) (c := [part .term, part .label]) (n := .target)
    (b := rest) hlabelled (by decide)
  have htargets := Fits.expand (a := [word .select]) (c := [part .target]) (n := .targets)
    (b := rest) htarget (by decide)
  have hcore : Forms d reading .core _ := (Fits.expand (a := [word .select]) (c := [])
    (n := .quantifier) (b := part .targets :: rest) htargets (by decide)).rule (by decide)
  simpa using hcore

theorem forms_unordered {p r : List (Push S)} (hp : Forms d reading .core p)
    (hr : Forms d reading .page r) : Forms d reading .body (p ++ r) := by
  have horder : Forms d reading .order [] := Fits.nil.rule (by decide)
  have hall := hp.append horder
  rw [List.append_nil] at hall
  exact forms_body hall hr

theorem forms_count {f : FilterNode S} (table : String)
    (hf : Forms d reading .cond (pushFilter d f)) : Forms d reading .body (count d table f) := by
  have hcore : Forms d reading .core (count d table f) :=
    forms_single (c := [sign .bare, sign .open_, sign .star, sign .close]) table (by decide) (.text (by decide)) hf
  have hpage : Forms d reading .page [] := Fits.nil.rule (by decide)
  simpa using forms_unordered hcore hpage

theorem forms_existence {f : FilterNode S} (table : String)
    (hf : Forms d reading .cond (pushFilter d f)) : Forms d reading .body (exists_ d table f) := by
  have hcore := forms_single (s := "SELECT 1 FROM ") (c := [sign .number]) table (by decide) (.text (by decide)) hf
  have hlimit : Fits d reading [word .limit, sign .number] [.str " LIMIT 1"] := .text (by decide)
  simpa [exists_] using forms_unordered hcore (hlimit.rule (by decide))

theorem aggregateSelect_eq (table : String) (aggregates : List AggregateEntry) (f : FilterNode S)
    (groupBy : List String) (having : FilterNode S) (order : List OrderBy)
    (limit offset : Option Nat) :
    aggregateSelect d table aggregates f groupBy having order limit offset
      = aggregateSelect d table aggregates f groupBy having order none none ++
        pushPage limit offset := by
  simp [aggregateSelect, pushPage, pushNumber]

theorem alive_operands {op : SetOp} {l r : List Lexeme}
    (h : Alive d (lexemes d id (setOp d op l r))) : Alive d l ∧ Alive d r := by
  have hinner : ∀ {p q : List (Push (List Lexeme))} {ws : List Lexeme},
      Alive d (lexemes d id (p ++ [Push.renumbered ws] ++ q)) → Alive d ws := by
    intro p q ws halive
    have hwords := FilterNode.alive_within halive
    rw [lexemes_renumbered] at hwords
    exact hwords
  unfold setOp at h
  split at h
  · exact ⟨hinner (p := [_]) (q := [_, _, _, _, _]) h,
      hinner (p := [_, _, _, _, _]) (q := [_]) h⟩
  · exact ⟨hinner (p := [_]) (q := [_, _, _, _, _]) h,
      hinner (p := [_, _, _, _, _]) (q := [_]) h⟩

namespace Statement

variable {q : Statement S} {ws : List Lexeme} (told : Told d reading sub sub')
include told

-- A statement that is spoken is made by the grammar.
theorem makes (hq : q.Plain d sub) (hs : q.Spoken d sub')
    (h : q.toSql (Runtime.template Lexeme.ofPiece d) reading d = some ws) : Makes d [part .statement] ws := by
  have hfiltered : ∀ {q : SelectQuery S}, q.Plain d sub → q.filter.Spoken d sub' →
      Forms d reading .cond (pushFilter d q.effectiveFilter) := fun hq hs =>
    FilterNode.forms_filter ((SelectQuery.every_effectiveFilter _ fun _ _ _ => trivial).mpr hq.filter)
      ((SelectQuery.every_effectiveFilter _ fun _ _ _ => trivial).mpr hs) told.makes
  cases q with
  | select q =>
      simp only [toSql, SelectQuery.toSql] at h
      split at h
      · next hsupported =>
          obtain rfl := Option.some.inj h
          exact makes_whole told hq hsupported hs
      · cases h
  | count q =>
      have hq : q.Plain d sub := hq
      simp only [toSql] at h
      split at h
      · obtain rfl := Option.some.inj h
        rw [withCtePrefix_eq]
        exact makes_ctes told hq.ctes hs.2 (forms_count _ (hfiltered hq hs.1))
      · cases h
  | exists_ q =>
      have hq : q.Plain d sub := hq
      simp only [toSql] at h
      split at h
      · obtain rfl := Option.some.inj h
        rw [withCtePrefix_eq]
        exact makes_ctes told hq.ctes hs.2 (forms_existence _ (hfiltered hq hs.1))
      · cases h
  | setOp q =>
      obtain ⟨hl, hr⟩ := hq
      obtain ⟨hsl, hsr, hpage⟩ := hs
      simp only [toSql, SetOpQuery.toSql] at h
      split at h
      · next hsupported =>
          obtain rfl := Option.some.inj h
          have hleft :=
            (q.left.forms_pushes told hl hsupported.1 hsl).rule (n := .statement) (by decide)
          have hright :=
            (q.right.forms_pushes told hr hsupported.2.1 hsr).rule (n := .statement) (by decide)
          have hcompound := forms_setOp q.op hleft hright
          have hpaged : Forms d id .page (pushPage q.limit q.offset) := forms_page hpage
          have hctes : ∀ c ∈ q.left.ctes ++ q.right.ctes, c.Closed sub := fun c hc =>
            (List.mem_append.mp hc).elim (hl.ctes c) (hr.ctes c)
          have hspoken : ∀ c ∈ q.left.ctes ++ q.right.ctes, c.Spoken d sub' := fun c hc =>
            (List.mem_append.mp hc).elim (hsl.ctes c) (hsr.ctes c)
          have hwhole := makes_ctes told hctes hspoken
            (makes_body hcompound hpaged)
          rw [paged_eq, withCtePrefix_eq, template_eq, SelectQuery.cteList, SelectQuery.cteList,
            ← List.map_append, List.append_assoc]
          exact hwhole
      · cases h
  | aggregate q =>
      obtain ⟨hf, hh, ho, hctes⟩ := hq
      obtain ⟨hsf, hsh, haggregates, hpage, hsctes⟩ := hs
      obtain rfl := Option.some.inj h
      have hcore := fits_aggregateSelect q.model.table q.groupBy haggregates
        (FilterNode.forms_filter hf hsf told.makes) (FilterNode.forms_filter hh hsh told.makes) ho
      have hbody := forms_body hcore (forms_page hpage)
      rw [← aggregateSelect_eq] at hbody
      rw [withCtePrefix_eq]
      exact makes_ctes told hctes hsctes hbody
  | partitioned | insert | insertMany | upsert | update | delete => exact hq.elim

-- What is alive of a statement is spoken.
theorem spoken_of_alive (hq : q.Plain d sub)
    (h : q.toSql (Runtime.template Lexeme.ofPiece d) reading d = some ws) (halive : Alive d ws) :
    q.Spoken d sub' := by
  have hfiltered : ∀ {q : SelectQuery S}, q.Plain d sub →
      Alive d (lexemes d reading (pushWhere d " WHERE " q.effectiveFilter)) →
      q.filter.Spoken d sub' := fun hq hwhere =>
    (SelectQuery.every_effectiveFilter _ fun _ _ _ => trivial).mp (spoken_of_where told
      ((SelectQuery.every_effectiveFilter _ fun _ _ _ => trivial).mpr hq.filter) hwhere)
  cases q with
  | select q =>
      simp only [toSql, SelectQuery.toSql] at h
      split at h
      · next hsupported =>
          obtain rfl := Option.some.inj h
          exact whole_of_alive told hq hsupported halive
      · cases h
  | count q =>
      have hq : q.Plain d sub := hq
      simp only [toSql] at h
      split at h
      · obtain rfl := Option.some.inj h
        rw [withCtePrefix_eq] at halive
        refine ⟨hfiltered hq ?_, ctes_of_alive told hq.ctes halive.left⟩
        have hcount : Alive d (lexemes d reading
            (Runtime.count d q.model.table q.effectiveFilter)) := halive.right
        exact FilterNode.alive_within (l := [.str "SELECT COUNT(*) FROM ", .quoted q.model.table])
          (r := []) (by simpa [Runtime.count] using hcount)
      · cases h
  | exists_ q =>
      have hq : q.Plain d sub := hq
      simp only [toSql] at h
      split at h
      · obtain rfl := Option.some.inj h
        rw [withCtePrefix_eq] at halive
        refine ⟨hfiltered hq ?_, ctes_of_alive told hq.ctes halive.left⟩
        exact alive_of_mem (i := pushWhere d " WHERE " q.effectiveFilter) halive.right (by simp)
      · cases h
  | setOp q =>
      obtain ⟨hl, hr⟩ := hq
      simp only [toSql, SetOpQuery.toSql] at h
      split at h
      · next hsupported =>
          obtain rfl := Option.some.inj h
          rw [paged_eq, withCtePrefix_eq, template_eq, SelectQuery.cteList, SelectQuery.cteList,
            ← List.map_append, List.append_assoc] at halive
          obtain ⟨hleft, hright⟩ := alive_operands halive.right.left
          obtain ⟨hlf, hlon, hlpage⟩ := q.left.spoken_of_pushes told hl hsupported.1 hleft
          obtain ⟨hrf, hron, hrpage⟩ := q.right.spoken_of_pushes told hr hsupported.2.1 hright
          have hctes := ctes_of_alive told (fun c hc =>
            (List.mem_append.mp hc).elim (hl.ctes c) (hr.ctes c)) halive.left
          have hsl : q.left.Spoken d sub' :=
            ⟨hlf, hlon, hlpage, fun c hc => hctes c (List.mem_append_left _ hc)⟩
          have hsr : q.right.Spoken d sub' :=
            ⟨hrf, hron, hrpage, fun c hc => hctes c (List.mem_append_right _ hc)⟩
          have hcompound := forms_setOp q.op
            ((q.left.forms_pushes told hl hsupported.1 hsl).rule (by decide))
            ((q.right.forms_pushes told hr hsupported.2.1 hsr).rule (by decide))
          exact ⟨hsl, hsr, pageSpoken_of_alive (plain_of_fits (by cases d <;> decide) hcompound)
            halive.right⟩
      · cases h
  | aggregate q =>
      obtain ⟨hf, hh, ho, hctes⟩ := hq
      obtain rfl := Option.some.inj h
      rw [withCtePrefix_eq] at halive
      have hpushes : Alive d (lexemes d reading (aggregateSelect d q.model.table q.aggregates q.filter
        q.groupBy q.having q.order q.limit q.offset)) := halive.right
      rw [aggregateSelect_eq, lexemes_append] at hpushes
      have hparts := hpushes.left
      rw [aggregateSelect] at hparts
      have hsf := spoken_of_where told hf
        (alive_of_mem hparts (i := pushWhere d " WHERE " q.filter) (by simp))
      have hsh := spoken_of_where told hh
        (alive_of_mem hparts (i := pushWhere d " HAVING " q.having) (by simp))
      have haggregates : q.aggregates = [] → d = .postgres := by
        intro hnone
        by_contra hd
        have hnothing : lexemes d reading [.str "SELECT ", .str " FROM "]
            = [.word .select, .word .from_] := by
          rw [lexemes_cons, lexemes_str, lexemes_str]
          cases d <;> decide
        refine not_alive_selectFrom hd (hnothing ▸ FilterNode.alive_within (l := [])
          (r := .quoted q.model.table :: (pushWhere d " WHERE " q.filter ++
            (pushGroupBy q.model.table q.groupBy ++ (pushWhere d " HAVING " q.having ++
              (pushOrderBy d q.order ++ pushPage none none))))) ?_)
        simpa [hnone, separated] using hparts
      have hcore := fits_aggregateSelect q.model.table q.groupBy haggregates
        (FilterNode.forms_filter hf hsf told.makes) (FilterNode.forms_filter hh hsh told.makes) ho
      exact ⟨hsf, hsh, haggregates,
        pageSpoken_of_alive (plain_of_fits (by cases d <;> decide) hcore) hpushes,
        ctes_of_alive told hctes halive.left⟩
  | partitioned | insert | insertMany | upsert | update | delete => exact hq.elim

end Statement

theorem map_of_fill {k : Nat} {values : List Value} {ts : List Token} {pieces : List Piece}
    (h : fill d k values ts = some pieces) : ts.map Lexeme.of = pieces.map Lexeme.ofPiece := by
  induction ts generalizing k values pieces with
  | nil =>
      obtain ⟨-, rfl⟩ := fill_nil h
      rfl
  | cons t rest ih =>
      rcases fill_cons h with ⟨-, later, hlater, rfl⟩ | ⟨hparam, -, v, later, values', -, hlater, rfl⟩
      · rw [List.map_cons, List.map_cons, ih hlater]
        rfl
      · rw [List.map_cons, List.map_cons, ih hlater, Lexeme.of, hparam]
        rfl

section Example

def pageQuery (limit offset : Option Nat) : Statement (Select .sqlite 0) :=
  .select { usersWhere firstUser with limit := limit, offset := offset }

theorem pageQuery_plain (limit offset : Option Nat) :
    (pageQuery limit offset).Plain .sqlite (Select.Plain 0) where
  filter := .leaf rfl trivial
  order := by simp [usersWhere]
  join := by simp [usersWhere]
  ctes := by simp [usersWhere]

end Example

end Ruprizzle.Runtime
