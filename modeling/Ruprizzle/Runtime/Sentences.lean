import Ruprizzle.Runtime.Placeholders
import Ruprizzle.Runtime.ClausePhrases
import Ruprizzle.Runtime.Steady

namespace Ruprizzle.Runtime

open ContextFree

-- Which statements of the builders are sentences of their dialect.

section Renumbered

-- What a renumbering leaves as it is: texts of ASCII without a dollar.
def Fixed (text : List Char) : Prop := ∀ c ∈ text, c.toNat < 128 ∧ c ≠ '$'

instance (text : List Char) : Decidable (Fixed text) :=
  decidable_of_iff (text.all (fun c => decide (c.toNat < 128) && c != '$') = true)
    (by simp [Fixed])

theorem Fixed.renumber_eq {text : List Char} (h : Fixed text) (k : Nat) : renumber k text = text := by
  induction text with
  | nil => rfl
  | cons c rest ih =>
      obtain ⟨⟨hlow, hdollar⟩, hrest⟩ := List.forall_mem_cons.mp h
      rw [renumber_char k (fun heq => absurd heq hdollar), ih hrest, byteChars_ascii hlow]
      rfl

theorem fixed_of_renumber {k : Nat} {text : List Char} (h : Fixed (renumber k text)) :
    Fixed text := by
  induction units text with
  | nil => exact h
  | @char c rest hc _ ih =>
      rw [renumber_char k hc] at h
      have hrest : Fixed rest := ih fun e he => h e (by simp [he])
      by_cases hlow : c.toNat < 128
      · rw [byteChars_ascii hlow] at h
        exact List.forall_mem_cons.mpr ⟨h c (by simp), hrest⟩
      · obtain ⟨hne, hbytes⟩ := byteChars_high (Nat.not_lt.mp hlow)
        obtain ⟨b, hb⟩ := List.exists_mem_of_ne_nil _ hne
        have hbelow := (h b (by simp [hb])).1
        have habove := hbytes b hb
        omega
  | @dollar first more rest hfirst hmore hrest _ _ =>
      rw [renumber_dollar k hfirst hmore hrest] at h
      exact absurd rfl (h '$' (by simp)).2

-- A table of such texts is searched with the same result.
theorem find_renumber {A : Type} {table : List (List Char × A)} {f : List Char → List Char}
    (hkey : ∀ s ∈ table, ∀ text, s.1 = f text → Fixed text) (k : Nat) (text : List Char) :
    table.find? (fun s => s.1 = f (renumber k text)) = table.find? fun s => s.1 = f text := by
  by_cases hfixed : Fixed text
  · rw [hfixed.renumber_eq]
  · have hafter : table.find? (fun s => s.1 = f (renumber k text)) = none :=
      List.find?_eq_none.mpr fun s hs heq =>
        hfixed (fixed_of_renumber (hkey s hs _ (of_decide_eq_true heq)))
    have hbefore : table.find? (fun s => s.1 = f text) = none :=
      List.find?_eq_none.mpr fun s hs heq => hfixed (hkey s hs _ (of_decide_eq_true heq))
    rw [hafter, hbefore]

theorem toUpper_fixed {c : Char} (hlow : c.toUpper.toNat < 128) (hdollar : c.toUpper ≠ '$') :
    c.toNat < 128 ∧ c ≠ '$' := by
  refine ⟨?_, fun heq => hdollar (by rw [heq]; rfl)⟩
  by_contra hhigh
  have hsame : c.toUpper = c := by
    have hbeyond : ¬ (97 ≤ c.val ∧ c.val ≤ 122) := by
      rintro ⟨-, hle⟩
      have hle : c.toNat ≤ 122 := hle
      omega
    exact dif_neg hbeyond
  exact hhigh (hsame ▸ hlow)

theorem Lexeme.of_renumber (k : Nat) (t : Token) : Lexeme.of (renumberToken k t) = Lexeme.of t := by
  have hword : Lexeme.ofWord (renumber k t.text) = Lexeme.ofWord t.text := by
    unfold Lexeme.ofWord
    rw [find_renumber (f := List.map Char.toUpper)]
    intro s hs text heq c hc
    have hspelled : ∀ s ∈ Reserved.spellings, Fixed s.1 := by decide
    obtain ⟨hlow, hdollar⟩ := hspelled s hs c.toUpper (heq ▸ List.mem_map_of_mem hc)
    exact toUpper_fixed hlow hdollar
  have hsign : Lexeme.ofSign (renumber k t.text) = Lexeme.ofSign t.text := by
    have hspelled : ∀ s ∈ signs, Fixed s.1 := by decide
    have hfind : signs.find? (fun s => s.1 = renumber k t.text) = signs.find? fun s => s.1 = t.text :=
      find_renumber (f := id) (fun s hs text (heq : s.1 = text) => heq ▸ hspelled s hs) k t.text
    unfold Lexeme.ofSign
    rw [hfind]
  obtain ⟨kind, text⟩ := t
  cases kind <;> first | rfl | exact hword | exact hsign

theorem Lexeme.ofPiece_renumber (k : Nat) (p : Piece) :
    Lexeme.ofPiece (renumberPiece k p) = Lexeme.ofPiece p := by
  cases p with
  | token t => exact Lexeme.of_renumber k t
  | value v => rfl

end Renumbered

section

variable {S : Type} {d : Dialect} {sub sub' : S → Prop} {reading : S → List Lexeme}

-- Something of a conjunction is something of its parts.
theorem FilterNode.every_conjuncts {leaf : FilterNode S → Prop} {f : FilterNode S} :
    (∀ node ∈ f.conjuncts, node.Every leaf sub) ↔ f.Every leaf sub := by
  cases f with
  | and nodes =>
      refine ⟨.and, fun h => ?_⟩
      cases h with
      | leaf hleaf _ => exact absurd hleaf Bool.false_ne_true
      | and hnodes => exact hnodes
  | _ => exact List.forall_mem_singleton

theorem FilterNode.every_and {leaf : FilterNode S → Prop} {f g : FilterNode S} :
    (Filter.and f g).Every leaf sub ↔ f.Every leaf sub ∧ g.Every leaf sub := by
  rw [Filter.and_eq, ← every_conjuncts, conjuncts, List.forall_mem_append, every_conjuncts,
    every_conjuncts]

namespace SelectQuery

-- What the soft delete adds to the filters is without subqueries.
theorem every_effectiveFilter {leaf : FilterNode S → Prop} (q : SelectQuery S)
    (hnull : ∀ table column negated, leaf (.null table column negated)) :
    q.effectiveFilter.Every leaf sub ↔ q.filter.Every leaf sub := by
  unfold effectiveFilter
  split
  · next col _ =>
      split
      · rfl
      · have hadded : (FilterNode.null q.model.table col q.onlyDeleted).Every leaf sub :=
          .leaf rfl (hnull _ _ _)
        rw [FilterNode.every_and, and_iff_left hadded]
  · rfl

theorem every_joinOn {leaf : FilterNode S → Prop} (q : SelectQuery S) (j : JoinSpec S)
    (hnull : ∀ table column negated, leaf (.null table column negated)) :
    (q.joinOn j).Every leaf sub ↔ j.on.Every leaf sub := by
  unfold joinOn
  split
  · next column _ =>
      split
      · rfl
      · have hadded : (FilterNode.null (j.rightAlias.getD j.rightTable) column false).Every leaf sub :=
          .leaf rfl (hnull _ _ _)
        refine ⟨fun h => ?_, fun h => .and (by simp [h, hadded])⟩
        cases h with
        | leaf hleaf _ => exact absurd hleaf Bool.false_ne_true
        | and hall => exact hall j.on (by simp)
  · rfl

-- A query that is written with care.
structure Plain (d : Dialect) (sub : S → Prop) (q : SelectQuery S) : Prop where
  filter : q.filter.Plain d sub
  order : ∀ o ∈ q.order, o.Closed d
  join : ∀ j ∈ q.join, j.on.Plain d sub
  ctes : ∀ c ∈ q.ctes, c.Closed sub

end SelectQuery

theorem CteQuery.Closed.mono {c : CteQuery S} (h : c.Closed sub) (hsub : ∀ s, sub s → sub' s) :
    c.Closed sub' := by
  cases c with
  | with_ name query => exact hsub query h
  | withRecursive name anchor recursive => exact ⟨hsub anchor h.1, hsub recursive h.2⟩

theorem SelectQuery.Plain.closed {q : SelectQuery S} (h : q.Plain d sub)
    (hsub : ∀ s, sub s → sub' s) : q.Closed d sub' :=
  ⟨h.filter.closed hsub, h.order, fun j hj => (h.join j hj).closed hsub,
    fun c hc => (h.ctes c hc).mono hsub⟩

-- SQLite takes no SELECT in brackets as a part of a recursive table.
def CteQuery.Spoken (d : Dialect) (sub : S → Prop) : CteQuery S → Prop
  | with_ _ query => sub query
  | withRecursive _ anchor recursive => d ≠ .sqlite ∧ sub anchor ∧ sub recursive

structure SelectQuery.Spoken (d : Dialect) (sub : S → Prop) (q : SelectQuery S) : Prop where
  filter : q.filter.Spoken d sub
  join : ∀ j ∈ q.join, j.on.Spoken d sub
  page : PageSpoken d q.limit q.offset
  ctes : ∀ c ∈ q.ctes, c.Spoken d sub

namespace Statement

def Plain (d : Dialect) (sub : S → Prop) : Statement S → Prop
  | select q | count q | exists_ q => q.Plain d sub
  | setOp q => q.left.Plain d sub ∧ q.right.Plain d sub
  | aggregate q => q.filter.Plain d sub ∧ q.having.Plain d sub ∧
      (∀ o ∈ q.order, o.Closed d) ∧ ∀ c ∈ q.ctes, c.Closed sub
  | _ => False

-- Counting and asking for existence leave out all but the filter. Without
-- aggregates nothing is selected, which only PostgreSQL takes.
def Spoken (d : Dialect) (sub : S → Prop) : Statement S → Prop
  | select q => q.Spoken d sub
  | count q | exists_ q => q.filter.Spoken d sub ∧ ∀ c ∈ q.ctes, c.Spoken d sub
  | setOp q => q.left.Spoken d sub ∧ q.right.Spoken d sub ∧ PageSpoken d q.limit q.offset
  | aggregate q => q.filter.Spoken d sub ∧ q.having.Spoken d sub ∧
      (q.aggregates = [] → d = .postgres) ∧ PageSpoken d q.limit q.offset ∧
      ∀ c ∈ q.ctes, c.Spoken d sub
  | _ => False

theorem Plain.closed {q : Statement S} (h : q.Plain d sub) (hsub : ∀ s, sub s → sub' s) :
    q.Closed d sub' := by
  cases q with
  | select q => exact SelectQuery.Plain.closed h hsub
  | count q => exact SelectQuery.Plain.closed h hsub
  | exists_ q => exact SelectQuery.Plain.closed h hsub
  | setOp q => exact ⟨h.1.closed hsub, h.2.closed hsub⟩
  | aggregate q =>
      obtain ⟨hf, hh, ho, hctes⟩ := h
      exact ⟨hf.closed hsub, hh.closed hsub, ho, fun c hc => (hctes c hc).mono hsub⟩
  | partitioned | insert | insertMany | upsert | update | delete => exact h.elim

end Statement

-- A query by itself, with its page.
theorem forms_body {p r : List (Push S)} (hp : Fits d reading [part .core, part .order] p)
    (hr : Forms d reading .page r) : Forms d reading .body (p ++ r) := by
  have hoperand := Fits.expand (a := []) (c := [part .core]) (n := .operand)
    (b := [part .order, part .page]) (hp.append hr) (by decide)
  exact (Fits.expand (a := []) (c := [part .operand]) (n := .compound)
    (b := [part .order, part .page]) hoperand (by decide)).rule (by decide)

-- Subqueries that are sentences when they are spoken, and only then.
structure Told (d : Dialect) (reading : S → List Lexeme) (sub sub' : S → Prop) : Prop where
  makes : ∀ s, sub s → sub' s → Makes d [part .statement] (reading s)
  spoken : ∀ s, sub s → Alive d (reading s) → sub' s

theorem alive_of_mem {items : List (List (Push S))} {i : List (Push S)}
    (h : Alive d (lexemes d reading items.flatten)) (hi : i ∈ items) :
    Alive d (lexemes d reading i) := by
  obtain ⟨before, after, rfl⟩ := List.append_of_mem hi
  rw [List.flatten_append, List.flatten_cons, ← List.append_assoc] at h
  exact FilterNode.alive_within h

theorem spoken_of_where {f : FilterNode S} {clause : String} (told : Told d reading sub sub')
    (hf : f.Plain d sub) (h : Alive d (lexemes d reading (pushWhere d clause f))) :
    f.Spoken d sub' := by
  unfold pushWhere at h
  split at h
  · next htrivial =>
      obtain rfl := FilterNode.eq_and_nil htrivial
      exact .and (by simp)
  · rw [lexemes_cons] at h
    exact FilterNode.spoken_of_alive hf told.spoken h.right

namespace SelectQuery

def unpaged (q : SelectQuery S) : SelectQuery S := { q with limit := none, offset := none }

theorem unpaged_none {q : SelectQuery S} (h : q.join = none) : q.unpaged.pushes d
    = select d q.model q.projection q.effectiveFilter q.order none none q.distinct := by
  have hjoin : q.unpaged.join = none := h
  simp only [pushes, hjoin]
  rfl

theorem unpaged_some {q : SelectQuery S} {j : JoinSpec S} (h : q.join = some j) :
    q.unpaged.pushes d = joinSelectWithColumns d q.model.table q.model.columns j.rightTable
      j.rightColumns j.rightAlias j.kind (q.joinOn j) q.effectiveFilter q.order none none
      q.distinct := by
  have hjoin : q.unpaged.join = some j := h
  simp only [pushes, hjoin]
  rfl

theorem pushes_eq (q : SelectQuery S) :
    q.pushes d = q.unpaged.pushes d ++ pushPage q.limit q.offset := by
  cases hjoin : q.join with
  | none =>
      rw [unpaged_none hjoin]
      simp [pushes, hjoin, select, pushPage, pushNumber]
  | some j =>
      rw [unpaged_some hjoin]
      simp [pushes, hjoin, joinSelectWithColumns, pushPage, pushNumber]

variable {q : SelectQuery S} (told : Told d reading sub sub') (hq : q.Plain d sub)
include told hq

theorem fits_unpaged (hsupported : q.joinSupported d = true) (hfilter : q.filter.Spoken d sub')
    (hon : ∀ j ∈ q.join, j.on.Spoken d sub') :
    Fits d reading [part .core, part .order] (q.unpaged.pushes d) := by
  have heffective : Forms d reading .cond (pushFilter d q.effectiveFilter) :=
    FilterNode.forms_filter ((q.every_effectiveFilter fun _ _ _ => trivial).mpr hq.filter)
      ((q.every_effectiveFilter fun _ _ _ => trivial).mpr hfilter) told.makes
  cases hjoin : q.join with
  | none =>
      rw [unpaged_none hjoin]
      exact fits_select q.projection q.distinct heffective hq.order
  | some j =>
      have hcond : Forms d reading .cond (pushFilter d (q.joinOn j)) :=
        FilterNode.forms_filter ((q.every_joinOn j fun _ _ _ => trivial).mpr (hq.join j hjoin))
          ((q.every_joinOn j fun _ _ _ => trivial).mpr (hon j hjoin)) told.makes
      have hkind : j.kind = .full → d = .postgres := by
        intro hfull
        simpa [joinSupported, hjoin, hfull] using hsupported
      rw [unpaged_some hjoin]
      exact fits_joinSelect q.model.table q.model.columns j.rightTable j.rightColumns j.rightAlias
        q.distinct hkind hcond heffective hq.order

theorem forms_pushes (hsupported : q.joinSupported d = true) (hs : q.Spoken d sub') :
    Forms d reading .body (q.pushes d) := by
  have hunpaged := fits_unpaged told hq hsupported hs.filter hs.join
  rw [pushes_eq]
  exact forms_body hunpaged (forms_page hs.page)

-- What is alive of a query is spoken: its conditions first, then its page.
theorem spoken_of_pushes (hsupported : q.joinSupported d = true)
    (h : Alive d (lexemes d reading (q.pushes d))) :
    q.filter.Spoken d sub' ∧ (∀ j ∈ q.join, j.on.Spoken d sub') ∧ PageSpoken d q.limit q.offset := by
  rw [pushes_eq, lexemes_append] at h
  have hplain := (q.every_effectiveFilter fun _ _ _ => trivial).mpr hq.filter
  have hconditions : q.effectiveFilter.Spoken d sub' ∧ ∀ j ∈ q.join, j.on.Spoken d sub' := by
    cases hjoin : q.join with
    | none =>
        have hunpaged := h.left
        rw [unpaged_none hjoin, select] at hunpaged
        have hwhere := alive_of_mem hunpaged (i := pushWhere d " WHERE " q.effectiveFilter)
          (by simp)
        exact ⟨spoken_of_where told hplain hwhere, by simp⟩
    | some j =>
        have hunpaged := h.left
        rw [unpaged_some hjoin, joinSelectWithColumns] at hunpaged
        have hwhere := alive_of_mem hunpaged (i := pushWhere d " WHERE " q.effectiveFilter)
          (by simp)
        have hon := alive_of_mem hunpaged (i := pushFilter d (q.joinOn j)) (by simp)
        refine ⟨spoken_of_where told hplain hwhere, ?_⟩
        rintro j' hj'
        obtain rfl := Option.some.inj hj'
        exact (q.every_joinOn j fun _ _ _ => trivial).mp (FilterNode.spoken_of_alive
          ((q.every_joinOn j fun _ _ _ => trivial).mpr (hq.join j hjoin)) told.spoken hon)
  obtain ⟨heffective, hon⟩ := hconditions
  have hfilter := (q.every_effectiveFilter fun _ _ _ => trivial).mp heffective
  have hunpaged := fits_unpaged told hq hsupported hfilter hon
  exact ⟨hfilter, hon, pageSpoken_of_alive (plain_of_fits (by cases d <;> decide) hunpaged) h⟩

end SelectQuery

-- The tables that stand before a query.

theorem template_eq (pushes : List (Push (List Lexeme))) :
    template Lexeme.ofPiece d pushes = lexemes d id pushes := by
  have hmap : (Push.map id : Push (List Lexeme) → Push (List Lexeme)) = id := by
    funext p
    cases p <;> rfl
  rw [lexemes, hmap, List.map_id]

def cteWords (d : Dialect) (ctes : List (Cte (List Lexeme))) : List Lexeme :=
  if ctes.isEmpty then []
  else lexemes d id ([Push.str (if ctes.any Cte.recursive then "WITH RECURSIVE " else "WITH ")] ++
    separated ", " (ctes.map pushCte))

theorem withCtePrefix_eq (ctes : List (Cte (List Lexeme))) (main : List Lexeme) :
    withCtePrefix (template Lexeme.ofPiece d) ctes main = cteWords d ctes ++ main := by
  unfold withCtePrefix cteWords
  split
  · rfl
  · have hblank : lexemes d id [.str " ", .renumbered main] = main := by
      rw [lexemes_cons, lexemes_str, lexemes_renumbered]
      cases d <;> rfl
    rw [template_eq, ctePrefix, List.flatten_cons, List.flatten_cons, List.flatten_singleton,
      ← List.append_assoc, lexemes_append, hblank]

theorem makes_withCtes {ctes : List (Cte (List Lexeme))} {ws : List Lexeme}
    (hctes : ∀ cte ∈ ctes, Makes d [part .statement] cte.compiled) (hws : Makes d [part .body] ws) :
    Makes d [part .statement] (cteWords d ctes ++ ws) := by
  unfold cteWords
  split
  · exact hws.rule (by decide)
  · next hne =>
      have hlist : Forms d id .ctes (separated ", " (ctes.map pushCte)) := by
        refine Forms.several (k := .cte) (w := .comma) Forms.comma (by decide)
          (by decide) (by simpa using hne) fun item hitem => ?_
        obtain ⟨cte, hcte, rfl⟩ := List.mem_map.mp hitem
        have has : Fits d id [word .as_, sign .open_] [.str " AS ("] := .text (by decide)
        have hcompiled : Fits d id [part .statement] [.renumbered cte.compiled] := by
          rw [Fits, lexemes_renumbered]
          exact hctes cte hcte
        exact ((Fits.quoted cte.name).append
          (has.append (hcompiled.append Forms.close))).rule (by decide)
      cases ctes.any Cte.recursive with
      | false =>
          have hkeyword : Fits d id [word .with_] [.str "WITH "] := .text (by decide)
          exact (Makes.append (hkeyword.append hlist) hws).rule (by decide)
      | true =>
          have hkeyword : Fits d id [word .with_, word .recursive] [.str "WITH RECURSIVE "] :=
            .text (by decide)
          exact (Makes.append (hkeyword.append hlist) hws).rule (by decide)

theorem makes_bracketed {ws : List Lexeme} (hd : d ≠ .sqlite) (h : Makes d [part .statement] ws) :
    Makes d [part .operand] (.open_ :: (ws ++ [Lexeme.close])) := by
  have hall : Makes d [sign .open_, part .statement, sign .close] (.open_ :: (ws ++ [Lexeme.close])) :=
    (h.append (Makes.nil.cons .close)).cons .open_
  cases d with
  | postgres => exact hall.own (by decide)
  | mysql => exact hall.own (by decide)
  | sqlite => exact absurd rfl hd

theorem makes_compound {l r ws : List Lexeme} (hl : Makes d [part .operand] l)
    (hop : Makes d [part .setOp] ws) (hr : Makes d [part .operand] r) :
    Makes d [part .compound] (l ++ (ws ++ r)) := by
  have hfirst : Makes d [part .compound] l := hl.rule (by decide)
  exact (hfirst.append (hop.append hr)).rule (by decide)

theorem makes_body {ws page : List Lexeme} (h : Makes d [part .compound] ws)
    (hpage : Makes d [part .page] page) : Makes d [part .body] (ws ++ page) := by
  have horder : Makes d [part .order] [] := Makes.nil.rule (by decide)
  exact (h.append (horder.append hpage)).rule (by decide)

section

variable {c : CteQuery S} (told : Told d reading sub sub') (hc : c.Closed sub)
include told hc

theorem makes_cte (hs : c.Spoken d sub') :
    Makes d [part .statement] (c.compile (template Lexeme.ofPiece d) reading).compiled := by
  cases c with
  | with_ name query => exact told.makes query hc hs
  | withRecursive name anchor recursive =>
      obtain ⟨hd, hanchor, hrecursive⟩ := hs
      have hopen : lexemes d id [.str "("] = [.open_] := by
        rw [lexemes_str]
        cases d <;> decide
      have hunion : lexemes d id [.str ") UNION ALL ("] = [.close, .word .union, .word .all, .open_] := by
        rw [lexemes_str]
        cases d <;> decide
      have hclose : lexemes d id [.str ")"] = [.close] := by
        rw [lexemes_str]
        cases d <;> decide
      have hop : Makes d [part .setOp] [.word .union, .word .all] :=
        ((Makes.nil.cons (.word .all)).cons (.word .union)).rule (by decide)
      have hcompound := makes_compound (makes_bracketed hd (told.makes anchor hc.1 hanchor)) hop
        (makes_bracketed hd (told.makes recursive hc.2 hrecursive))
      have hpage : Makes d [part .page] [] := Makes.nil.rule (by decide)
      have hstatement : Makes d [part .statement] _ := (makes_body hcompound hpage).rule (by decide)
      rw [CteQuery.compile, template_eq, lexemes_cons, lexemes_cons (.renumbered _),
        lexemes_cons (.str ") UNION ALL ("), lexemes_cons (.renumbered _) [.str ")"],
        lexemes_renumbered, lexemes_renumbered, hopen, hunion, hclose]
      simpa using hstatement

theorem cte_of_alive
    (h : Alive d (lexemes d id (pushCte (c.compile (template Lexeme.ofPiece d) reading)))) :
    c.Spoken d sub' := by
  cases c with
  | with_ name query =>
      have hquery := FilterNode.alive_within (l := [.quoted name, .str " AS ("])
        (p := [.renumbered (reading query)]) (r := [.str ")"]) h
      rw [lexemes_renumbered] at hquery
      exact told.spoken query hc hquery
  | withRecursive name anchor recursive =>
      rw [CteQuery.compile, template_eq] at h
      have hcompiled := FilterNode.alive_within (l := [.quoted name])
        (p := [.str " AS (", .renumbered _]) (r := [.str ")"]) h
      have has : lexemes d id [.str " AS ("] = [.word .as_, .open_] := by
        rw [lexemes_str]
        cases d <;> decide
      rw [lexemes_cons, lexemes_renumbered, has] at hcompiled
      have hinner : ∀ {l r : List (Push (List Lexeme))} {s : S}, sub s →
          Alive d (lexemes d id (l ++ [Push.renumbered (reading s)] ++ r)) → sub' s := by
        intro l r s hs halive
        have hreading := FilterNode.alive_within halive
        rw [lexemes_renumbered] at hreading
        exact told.spoken s hs hreading
      refine ⟨?_, hinner (l := [.str "("]) (r := [.str ") UNION ALL (", .renumbered (reading recursive),
        .str ")"]) hc.1 hcompiled.right, hinner (l := [.str "(", .renumbered (reading anchor),
          .str ") UNION ALL ("]) (r := [.str ")"]) hc.2 hcompiled.right⟩
      rintro rfl
      have hopen : lexemes .sqlite id [.str "("] = [.open_] := by
        rw [lexemes_str]
        decide
      rw [lexemes_cons, hopen] at hcompiled
      exact not_alive_bracketed (Alive.left (a := [.word .as_, .open_, .open_]) hcompiled)

end

theorem ctes_of_alive {ctes : List (CteQuery S)} (told : Told d reading sub sub')
    (hctes : ∀ c ∈ ctes, c.Closed sub)
    (h : Alive d (cteWords d (ctes.map (CteQuery.compile (template Lexeme.ofPiece d) reading)))) :
    ∀ c ∈ ctes, c.Spoken d sub' := by
  intro c hc
  have hmem := List.mem_map_of_mem (f := pushCte)
    (List.mem_map_of_mem (f := CteQuery.compile (template Lexeme.ofPiece d) reading) hc)
  have hne : (ctes.map (CteQuery.compile (template Lexeme.ofPiece d) reading)).isEmpty = false := by
    rw [List.isEmpty_eq_false_iff]
    exact List.ne_nil_of_mem (List.mem_map_of_mem hc)
  obtain ⟨l, r, hlist⟩ := FilterNode.mem_separated ", " hmem
  rw [cteWords, hne, if_neg Bool.false_ne_true, hlist, lexemes_append] at h
  exact cte_of_alive told (hctes c hc) (FilterNode.alive_within h.right)

theorem makes_ctes {ctes : List (CteQuery S)} {ws : List Lexeme} (told : Told d reading sub sub')
    (hctes : ∀ c ∈ ctes, c.Closed sub) (hs : ∀ c ∈ ctes, c.Spoken d sub')
    (hws : Makes d [part .body] ws) :
    Makes d [part .statement]
      (cteWords d (ctes.map (CteQuery.compile (template Lexeme.ofPiece d) reading)) ++ ws) := by
  refine makes_withCtes (fun cte hcte => ?_) hws
  obtain ⟨c, hc, rfl⟩ := List.mem_map.mp hcte
  exact makes_cte told (hctes c hc) (hs c hc)

-- A query is a sentence when it is spoken, and only then.
section

variable {q : SelectQuery S} (told : Told d reading sub sub') (hq : q.Plain d sub)
  (hsupported : q.joinSupported d = true)
include told hq hsupported

theorem makes_whole (hs : q.Spoken d sub') :
    Makes d [part .statement] (q.whole (template Lexeme.ofPiece d) reading d) := by
  rw [SelectQuery.whole, withCtePrefix_eq]
  exact makes_ctes told hq.ctes hs.ctes (q.forms_pushes told hq hsupported hs)

theorem whole_of_alive (h : Alive d (q.whole (template Lexeme.ofPiece d) reading d)) :
    q.Spoken d sub' := by
  rw [SelectQuery.whole, withCtePrefix_eq] at h
  obtain ⟨hfilter, hon, hpage⟩ := q.spoken_of_pushes told hq hsupported h.right
  exact ⟨hfilter, hon, hpage, ctes_of_alive told hq.ctes h.left⟩

end

end

namespace Select

variable {d : Dialect}

def Plain : (n : Nat) → Select d n → Prop
  | 0, _ => False
  | n + 1, q => q.val.Plain d (Plain n)

def Spoken : (n : Nat) → Select d n → Prop
  | 0, _ => False
  | n + 1, q => q.val.Spoken d (Spoken n)

theorem closed_of_plain {n : Nat} : ∀ s : Select d n, s.Plain → s.Closed := by
  induction n with
  | zero => exact fun _ h => h
  | succ n ih => exact fun s h => SelectQuery.Plain.closed h ih

theorem told (n : Nat) :
    Told (S := Select d n) d (Select.whole (template Lexeme.ofPiece d) n) (Plain n) (Spoken n) := by
  induction n with
  | zero => exact ⟨fun _ h => h.elim, fun _ h => h.elim⟩
  | succ n ih =>
      exact ⟨fun s hs hspoken => makes_whole ih hs s.property hspoken,
        fun s hs halive => whole_of_alive ih hs s.property halive⟩

end Select

end Ruprizzle.Runtime
