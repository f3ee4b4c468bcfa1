import Ruprizzle.Runtime.OperatorPhrases

namespace Ruprizzle.Runtime

-- Which filters a dialect has a sentence for.

variable {S : Type}

def FilterNode.isLeaf : FilterNode S → Bool
  | inSubquery _ _ _ _ | exists_ _ _ _ _ _ _ | existsSubquery _ _ | and _ | or _ | not _ => false
  | _ => true

-- Something of every comparison in a filter and of every subquery.
inductive FilterNode.Every (leaf : FilterNode S → Prop) (sub : S → Prop) : FilterNode S → Prop
  | leaf {f : FilterNode S} : f.isLeaf = true → leaf f → Every leaf sub f
  | inSubquery (table column : String) {s : S} (negated : Bool) : sub s →
      Every leaf sub (.inSubquery table column s negated)
  | exists_ (childTable childCol parentTable parentCol : String) {filter : FilterNode S}
      (negated : Bool) : Every leaf sub filter →
      Every leaf sub (.exists_ childTable childCol parentTable parentCol filter negated)
  | existsSubquery {s : S} (negated : Bool) : sub s → Every leaf sub (.existsSubquery s negated)
  | and {nodes : List (FilterNode S)} : (∀ node ∈ nodes, Every leaf sub node) →
      Every leaf sub (.and nodes)
  | or {nodes : List (FilterNode S)} : (∀ node ∈ nodes, Every leaf sub node) →
      Every leaf sub (.or nodes)
  | not {node : FilterNode S} : Every leaf sub node → Every leaf sub (.not node)

-- The caller's own SQL is an expression of the dialect.
def RawFragment.IsExpression (d : Dialect) (fragment : RawFragment) : Prop :=
  Forms d (fun s : Empty => nomatch s) .cond (pushRaw fragment.parts fragment.binds)

namespace FilterNode

def leafPlain (d : Dialect) : FilterNode S → Prop
  | raw fragment => fragment.Closed d ∧ fragment.IsExpression d
  | json _ _ path _ op value => op.Closed d path value
  | _ => True

-- What is known of a filter that is written with care: raw SQL is an expression, and
-- keys have their quotes in pairs.
def Plain (d : Dialect) : (S → Prop) → FilterNode S → Prop := Every (leafPlain d)

-- Only PostgreSQL has ILIKE, a comparison with NULL is written as an IS after its
-- operator, and only SQLite takes a list without values.
def leafSpoken (d : Dialect) : FilterNode S → Prop
  | cmp _ _ op value => op.Known d ∧ (value.isNull = true → op ≠ .eq ∧ op ≠ .ne)
  | columnCmp _ _ op _ _ => op.Known d
  | in_ _ _ values _ => values = [] → d = .sqlite
  | json _ _ _ _ (.cmp op) _ => op.Known d
  | _ => True

def Spoken (d : Dialect) : (S → Prop) → FilterNode S → Prop := Every (leafSpoken d)

variable {d : Dialect} {sub sub' : S → Prop} {f : FilterNode S} {reading : S → List Lexeme}

theorem Plain.closed (h : f.Plain d sub) (hsub : ∀ s, sub s → sub' s) : f.Closed d sub' := by
  induction h with
  | @leaf f hleaf hf =>
      cases f with
      | cmp table column op value => exact .cmp table column op value
      | between table column lo hi => exact .between table column lo hi
      | null table column negated => exact .null table column negated
      | in_ table column values negated => exact .in_ table column values negated
      | columnCmp leftTable leftCol op rightTable rightCol =>
          exact .columnCmp leftTable leftCol op rightTable rightCol
      | raw fragment => exact .raw hf.1
      | json table column path text op value => exact .json table column text hf
      | array table column op values => exact .array table column op values
      | fullTextMatch table column query => exact .fullTextMatch table column query
      | spatial table column op geometry distance => exact .spatial table column op geometry distance
      | _ => exact absurd hleaf Bool.false_ne_true
  | inSubquery table column negated hs => exact .inSubquery table column negated (hsub _ hs)
  | exists_ childTable childCol parentTable parentCol negated _ ih =>
      exact .exists_ childTable childCol parentTable parentCol negated ih
  | existsSubquery negated hs => exact .existsSubquery negated (hsub _ hs)
  | and _ ih => exact .and ih
  | or _ ih => exact .or ih
  | not _ ih => exact .not ih

theorem lexemes_pushRaw {R : Type} (other : R → List Lexeme) (parts : List String)
    (values : List Value) :
    lexemes d reading (pushRaw parts values) = lexemes d other (pushRaw parts values) := by
  induction parts generalizing values with
  | nil => rfl
  | cons part rest ih =>
      cases values with
      | nil =>
          have hleft : lexemes d reading (.str part :: pushRaw rest []) = _ := lexemes_cons _ _
          have hright : lexemes d other (.str part :: pushRaw rest []) = _ := lexemes_cons _ _
          rw [pushRaw, pushRaw, hleft, hright, ih, lexemes_str, lexemes_str]
      | cons value more =>
          have hleft : lexemes d reading (.str part :: .bind value :: pushRaw rest more) = _ :=
            lexemes_append [.str part, .bind value] _
          have hright : lexemes d other (.str part :: .bind value :: pushRaw rest more) = _ :=
            lexemes_append [.str part, .bind value] _
          have hpair : ∀ {T : Type} (r : T → List Lexeme), lexemes d r [.str part, .bind value]
              = (tokens d part.toList).map Lexeme.of ++ [Lexeme.value] := by
            intro T r
            rw [lexemes_cons, lexemes_str]
            rfl
          rw [pushRaw, pushRaw, hleft, hright, ih, hpair, hpair]

theorem forms_leaf (hleaf : f.isLeaf = true) (hplain : f.leafPlain d) (hspoken : f.leafSpoken d) :
    Forms d reading .cond (pushFilter d f) := by
  have hcol : ∀ {table column : String}, Forms d reading .term (pushColumn table column) :=
    Forms.column _ _
  cases f with
  | cmp table column op value =>
      obtain ⟨hop, hnull⟩ := hspoken
      have hvalue : (if value.isNull ∧ op = .eq then Push.str "IS NULL"
          else if value.isNull ∧ op = .ne then .str "IS NOT NULL" else .bind value : Push S)
          = .bind value := by
        split
        · next h => exact absurd h.2 (hnull h.1).1
        split
        · next h => exact absurd h.2 (hnull h.1).2
        · rfl
      rw [pushFilter, hvalue]
      exact (Forms.compared hop hcol (Forms.bind value)).pred
  | between table column lo hi =>
      have hopen : Fits d reading [word .between] [.str " BETWEEN "] := .text (by decide)
      have hand : Fits d reading [word .and_] [.str " AND "] := .text (by decide)
      have hleft : Forms d reading .term (pushColumn table column) := hcol
      have hall := hleft.append (Forms.affirmed.append
        (hopen.append ((Forms.bind lo).append (hand.append (Forms.bind hi)))))
      rw [pushFilter]
      exact Forms.pred (hall.rule (by decide))
  | null table column negated =>
      rw [pushFilter]
      exact (Forms.nullTest negated hcol).pred
  | in_ table column values negated =>
      rw [pushFilter]
      exact (Forms.inList hspoken negated hcol).pred
  | columnCmp leftTable leftCol op rightTable rightCol =>
      rw [pushFilter, List.append_assoc]
      exact (Forms.compared hspoken hcol hcol).pred
  | raw fragment =>
      rw [pushFilter, Forms, Fits, lexemes_pushRaw fun s : Empty => nomatch s]
      exact hplain.2
  | json table column path text op value =>
      cases op with
      | cmp op =>
          rw [pushFilter]
          exact (Forms.compared hspoken (forms_jsonExpr table column text hplain) (Forms.bind _)).pred
      | contains =>
          rw [pushFilter]
          exact forms_jsonContains table column hplain.1 hplain.2
      | hasKey =>
          rw [pushFilter]
          exact forms_jsonHasKey table column hplain
  | array table column op values =>
      rw [pushFilter]
      exact forms_arrayOp table column op values
  | fullTextMatch table column query =>
      rw [pushFilter]
      exact forms_fullTextMatch table column query
  | spatial table column op geometry distance =>
      rw [pushFilter]
      exact forms_spatialOp table column op geometry distance
  | _ => exact absurd hleaf Bool.false_ne_true

theorem forms_exists (childTable childCol parentTable parentCol : String) (negated : Bool)
    (h : Forms d reading .cond (pushFilter d f)) :
    Forms d reading .cond
      (pushFilter d (.exists_ childTable childCol parentTable parentCol f negated)) := by
  have hequals : Fits d reading [sign .compare] [.str " = "] := .text (by decide)
  have hand : Fits d reading [word .and_] [.str " AND "] := .text (by decide)
  have hkeys : Forms d reading .cond
      (pushColumn childTable childCol ++ .str " = " :: pushColumn parentTable parentCol) :=
    Forms.pred (((Forms.column childTable childCol).append
      (hequals.append (Forms.column parentTable parentCol))).rule (by decide))
  have hcond : Forms d reading .cond
      (pushColumn childTable childCol ++ .str " = " :: pushColumn parentTable parentCol ++
        if f.isTrivial then [] else .str " AND " :: pushFilter d f) := by
    split
    · simpa using hkeys
    · exact (hkeys.append (hand.append h)).rule (by decide)
  have htable : Makes d [part .table] [.name] := by
    have hlabel : Makes d [part .label] [] := Makes.nil.rule (by decide)
    exact (hlabel.cons .name).rule (by decide)
  have hopen : lexemes d reading
      [.str (if negated then "NOT EXISTS (SELECT 1 FROM " else "EXISTS (SELECT 1 FROM ")]
      = (if negated then [Lexeme.word .not_] else []) ++
        [Lexeme.word .exists_, Lexeme.open_, Lexeme.word .select, Lexeme.number, Lexeme.word .from_] := by
    rw [lexemes_str]
    cases negated <;> cases d <;> decide
  have hwhere : lexemes d reading [.quoted childTable, .str " WHERE "] = [.name, .word .where_] := by
    rw [lexemes_cons, lexemes_str]
    cases d <;> rfl
  have hclose : lexemes d reading [.str ")"] = [.close] := by
    rw [lexemes_str]
    cases d <;> decide
  have hpushes : pushFilter d (.exists_ childTable childCol parentTable parentCol f negated)
      = .str (if negated then "NOT EXISTS (SELECT 1 FROM " else "EXISTS (SELECT 1 FROM ") ::
        ([Push.quoted childTable, Push.str " WHERE "] ++ ((pushColumn childTable childCol ++ .str " = " ::
          pushColumn parentTable parentCol ++
            if f.isTrivial then [] else .str " AND " :: pushFilter d f) ++ [Push.str ")"])) := by
    simp [pushFilter]
  have hexists := makes_exists negated (makes_select htable hcond)
  rw [hpushes, Forms, Fits, lexemes_cons, lexemes_append, lexemes_append, hopen, hwhere, hclose]
  simpa using hexists

theorem forms_existsSubquery {s : S} (negated : Bool) (hs : Makes d [part .statement] (reading s)) :
    Forms d reading .cond (pushFilter d (.existsSubquery s negated)) := by
  have hopen : lexemes d reading [.str (if negated then "NOT EXISTS (" else "EXISTS (")]
      = (if negated then [Lexeme.word .not_] else []) ++ [Lexeme.word .exists_, Lexeme.open_] := by
    rw [lexemes_str]
    cases negated <;> cases d <;> decide
  have hclose : lexemes d reading [.str ")"] = [.close] := by
    rw [lexemes_str]
    cases d <;> decide
  rw [pushFilter, Forms, Fits, lexemes_cons, lexemes_cons (.subquery s), hopen, hclose,
    lexemes_subquery]
  simpa using makes_exists negated hs

-- A filter that is spoken is a condition.
theorem forms_filter (hplain : f.Plain d sub) (hspoken : f.Spoken d sub')
    (hsub : ∀ s, sub s → sub' s → Makes d [part .statement] (reading s)) :
    Forms d reading .cond (pushFilter d f) := by
  induction hplain with
  | leaf hleaf hf =>
      cases hspoken with
      | leaf _ hspoken => exact forms_leaf hleaf hf hspoken
      | _ => exact absurd hleaf Bool.false_ne_true
  | inSubquery table column negated hplain =>
      cases hspoken with
      | leaf hleaf _ => exact absurd hleaf Bool.false_ne_true
      | inSubquery _ _ _ hs =>
          rw [pushFilter]
          exact (Forms.inStatement negated (Forms.column table column) (hsub _ hplain hs)).pred
  | exists_ childTable childCol parentTable parentCol negated _ ih =>
      cases hspoken with
      | leaf hleaf _ => exact absurd hleaf Bool.false_ne_true
      | exists_ _ _ _ _ _ hfilter =>
          exact forms_exists childTable childCol parentTable parentCol negated (ih hfilter)
  | existsSubquery negated hplain =>
      cases hspoken with
      | leaf hleaf _ => exact absurd hleaf Bool.false_ne_true
      | existsSubquery _ hs => exact forms_existsSubquery negated (hsub _ hplain hs)
  | and _ ih =>
      cases hspoken with
      | leaf hleaf _ => exact absurd hleaf Bool.false_ne_true
      | and hnodes =>
          rw [pushFilter_and]
          exact forms_joined (w := .true_) (v := .and_) (.text (by decide)) (by decide)
            (.text (by decide))
            (by decide) fun node hnode => ih node hnode (hnodes node hnode)
  | or _ ih =>
      cases hspoken with
      | leaf hleaf _ => exact absurd hleaf Bool.false_ne_true
      | or hnodes =>
          rw [pushFilter_or]
          exact forms_joined (w := .false_) (v := .or_) (.text (by decide)) (by decide)
            (.text (by decide))
            (by decide) fun node hnode => ih node hnode (hnodes node hnode)
  | not _ ih =>
      cases hspoken with
      | leaf hleaf _ => exact absurd hleaf Bool.false_ne_true
      | not hnode =>
          have hopen : Fits d reading [word .not_, sign .open_] [.str "NOT ("] := .text (by decide)
          have hall := hopen.append ((ih hnode).append Forms.close)
          have hterm := Fits.expand (a := [word .not_]) (n := .term) (b := [])
            (c := [sign .open_, part .cond, sign .close]) hall (by decide)
          have hpred := Fits.expand (a := [word .not_]) (n := .pred) (b := []) (c := [part .term]) hterm
            (by decide)
          have hcond := Fits.expand (a := [word .not_]) (n := .cond) (b := []) (c := [part .pred]) hpred
            (by decide)
          rw [pushFilter]
          exact hcond.rule (by decide)

theorem alive_within {l p r : List (Push S)} (h : Alive d (lexemes d reading (l ++ p ++ r))) :
    Alive d (lexemes d reading p) := by
  rw [lexemes_append, lexemes_append] at h
  exact h.middle

theorem known_of_alive {op : CmpOp} {l r : List (Push S)}
    (h : Alive d (lexemes d reading (l ++ [Push.str op.sql] ++ r))) : op.Known d := by
  rintro rfl
  by_contra hd
  refine not_alive_ilike hd ?_
  have hword : lexemes d reading [.str CmpOp.ilike.sql] = [.word .ilike] := by
    rw [lexemes_str]
    cases d <;> decide
  exact hword ▸ alive_within h

theorem not_alive_null {op : CmpOp} {s : String} {w : List Lexeme} (hop : op = .eq ∨ op = .ne)
    (htest : ∀ d, (tokens d s.toList).map Lexeme.of = .word .is_ :: w) :
    ¬ Alive d (lexemes d reading [.str op.sql, .str " ", .str s]) := by
  have hsign : lexemes d reading [.str op.sql, .str " "] = [.compare] := by
    rw [lexemes_cons, lexemes_str, lexemes_str]
    rcases hop with rfl | rfl <;> cases d <;> decide
  have hsplit : lexemes d reading [.str op.sql, .str " ", .str s]
      = [Lexeme.compare, Lexeme.word .is_] ++ w := by
    rw [lexemes_cons, lexemes_cons (.str " "), ← List.append_assoc, ← lexemes_append]
    exact (congrArg (· ++ _) hsign).trans (by rw [lexemes_str, htest]; rfl)
  intro halive
  rw [hsplit] at halive
  exact not_alive_isNull halive.left

theorem leafSpoken_of_alive (hleaf : f.isLeaf = true)
    (h : Alive d (lexemes d reading (pushFilter d f))) : f.leafSpoken d := by
  cases f with
  | cmp table column op value =>
      rw [pushFilter] at h
      refine ⟨known_of_alive (l := pushColumn table column ++ [Push.str " "]) h, fun hnull => ?_⟩
      by_contra hop
      have hop : op = .eq ∨ op = .ne := by
        by_contra hneither
        exact hop (not_or.mp hneither)
      have htail := alive_within (l := pushColumn table column ++ [Push.str " "]) (r := [])
        (by simpa using h)
      rcases hop with rfl | rfl
      · exact not_alive_null (Or.inl rfl) (s := "IS NULL") (w := [.word .null]) (by decide)
          (by simpa [hnull] using htail)
      · exact not_alive_null (Or.inr rfl) (s := "IS NOT NULL") (w := [.word .not_, .word .null])
          (by decide) (by simpa [hnull] using htail)
  | columnCmp leftTable leftCol op rightTable rightCol =>
      rw [pushFilter] at h
      exact known_of_alive (l := pushColumn leftTable leftCol ++ [Push.str " "])
        (r := .str " " :: pushColumn rightTable rightCol) (by simpa using h)
  | in_ table column values negated =>
      rintro rfl
      by_contra hd
      have hempty : lexemes d reading
          (.str (if negated then " NOT IN (" else " IN (") :: pushBinds [] ++ [Push.str ")"])
          = (if negated then [Lexeme.word .not_] else []) ++ [Lexeme.word .in_, Lexeme.open_, Lexeme.close] := by
        have hnone : (pushBinds [] : List (Push S)) = [] := rfl
        rw [hnone, lexemes_append, lexemes_str, lexemes_str]
        cases negated <;> cases d <;> decide
      rw [pushFilter, List.append_assoc, lexemes_append] at h
      have hlist := h.right
      rw [hempty] at hlist
      exact not_alive_emptyList hd hlist.right
  | json table column path text op value =>
      cases op with
      | cmp op =>
          rw [pushFilter] at h
          exact known_of_alive (l := pushJsonExpr d table column path text ++ [Push.str " "])
            (r := [.str " ", .bind (jsonCmpValue d text value)]) (by simpa using h)
      | contains => trivial
      | hasKey => trivial
  | inSubquery | exists_ | existsSubquery | and | or | not => exact absurd hleaf Bool.false_ne_true
  | between | null | raw | array | fullTextMatch | spatial => trivial

theorem mem_separated (sep : String) {items : List (List (Push S))} {item : List (Push S)}
    (hitem : item ∈ items) : ∃ l r, separated sep items = l ++ item ++ r := by
  induction items with
  | nil => simp at hitem
  | cons first rest ih =>
      cases rest with
      | nil =>
          obtain rfl := List.mem_singleton.mp hitem
          exact ⟨[], [], by simp [separated]⟩
      | cons next more =>
          have hcons : separated sep (first :: next :: more)
              = first ++ .str sep :: separated sep (next :: more) := rfl
          rcases List.mem_cons.mp hitem with rfl | hlater
          · exact ⟨[], .str sep :: separated sep (next :: more), by simp [hcons]⟩
          · obtain ⟨l, r, heq⟩ := ih hlater
            exact ⟨first ++ .str sep :: l, r, by simp [hcons, heq]⟩

theorem alive_joined {constant sep : String} {nodes : List (FilterNode S)} {node : FilterNode S}
    (h : Alive d (lexemes d reading (joined d constant sep nodes))) (hnode : node ∈ nodes) :
    Alive d (lexemes d reading (pushFilter d node)) := by
  match nodes with
  | [] => simp at hnode
  | [only] =>
      obtain rfl := List.mem_singleton.mp hnode
      exact h
  | first :: second :: rest =>
      obtain ⟨l, r, heq⟩ := mem_separated sep (List.mem_map.mpr ⟨node, hnode, rfl⟩)
      rw [joined, pushFilters_eq, heq] at h
      · exact alive_within (l := .str "(" :: l) (r := r ++ [Push.str ")"]) (by simpa using h)
      · simp
      · simp

-- A filter that is part of a sentence is spoken.
theorem spoken_of_alive (hplain : f.Plain d sub)
    (hsub : ∀ s, sub s → Alive d (reading s) → sub' s)
    (h : Alive d (lexemes d reading (pushFilter d f))) : f.Spoken d sub' := by
  have hinner : ∀ {s : S} {l r : List (Push S)}, sub s →
      Alive d (lexemes d reading (l ++ [Push.subquery s] ++ r)) → sub' s := by
    intro s l r hs halive
    have := alive_within halive
    rw [lexemes_subquery] at this
    exact hsub s hs this
  induction hplain with
  | leaf hleaf _ => exact .leaf hleaf (leafSpoken_of_alive hleaf h)
  | inSubquery table column negated hs =>
      rw [pushFilter] at h
      refine .inSubquery table column negated (hinner hs
        (l := pushColumn table column ++ [Push.str (if negated then " NOT IN (" else " IN (")])
        (r := [.str ")"]) ?_)
      simpa using h
  | @exists_ childTable childCol parentTable parentCol filter negated _ ih =>
      refine .exists_ childTable childCol parentTable parentCol negated ?_
      cases htrivial : filter.isTrivial with
      | true =>
          obtain rfl := eq_and_nil htrivial
          exact .and (by simp)
      | false =>
          refine ih (alive_within (r := [.str ")"])
            (l := .str (if negated then "NOT EXISTS (SELECT 1 FROM " else "EXISTS (SELECT 1 FROM ") ::
              .quoted childTable :: .str " WHERE " :: (pushColumn childTable childCol ++ .str " = " ::
              pushColumn parentTable parentCol ++ [Push.str " AND "])) ?_)
          simpa [pushFilter, htrivial] using h
  | existsSubquery negated hs =>
      rw [pushFilter] at h
      exact .existsSubquery negated (hinner hs
        (l := [.str (if negated then "NOT EXISTS (" else "EXISTS (")]) (r := [.str ")"]) h)
  | and _ ih =>
      rw [pushFilter_and] at h
      exact .and fun node hnode => ih node hnode (alive_joined h hnode)
  | or _ ih =>
      rw [pushFilter_or] at h
      exact .or fun node hnode => ih node hnode (alive_joined h hnode)
  | not _ ih =>
      rw [pushFilter] at h
      exact .not (ih (alive_within (l := [.str "NOT ("]) h))

end FilterNode

end Ruprizzle.Runtime
