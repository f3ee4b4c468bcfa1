import Ruprizzle.Runtime.Phrases

namespace Ruprizzle.Runtime

open ContextFree

-- The phrases that the filters make.

variable {S : Type} {d : Dialect} {reading : S → List Lexeme} {p q l r : List (Push S)}

def CmpOp.Known (d : Dialect) (op : CmpOp) : Prop := op = .ilike → d = .postgres

namespace Forms

theorem affirmed : Forms d reading .negation [] := Fits.nil.rule (by decide)

theorem compared {op : CmpOp} (hop : op.Known d) (hl : Forms d reading .term l)
    (hr : Forms d reading .term r) :
    Forms d reading .pred (l ++ ([Push.str " ", Push.str op.sql, Push.str " "] ++ r)) := by
  have hblank : Fits d reading [] [.str " "] := .text (by decide)
  have hsign : ∀ w, Fits d reading [w] [.str op.sql] →
      Fits d reading [w, part .term] ([Push.str " ", Push.str op.sql, Push.str " "] ++ r) := fun _ hw =>
    hblank.append (hw.append (hblank.append hr))
  cases op with
  | like =>
      exact (hl.append (affirmed.append (hsign (word .like) (.text (by decide))))).rule (by decide)
  | ilike =>
      obtain rfl := hop rfl
      exact (hl.append (affirmed.append (hsign (word .ilike) (.text (by decide))))).own (by decide)
  | _ => exact (hl.append (hsign (sign .compare) (.text (by decide)))).rule (by decide)

theorem brackets (h : Forms d reading .cond p) : Forms d reading .term (.str "(" :: p ++ [Push.str ")"]) :=
  (open_.append (h.append close)).rule (by decide)

-- What may be denied by a NOT inside of a text.
theorem denied {s : String} {a b : List (Symbol Lexeme Phrase)} (negated : Bool)
    (h : Fits d reading (a ++ (if negated then [word .not_] else []) ++ b) [.str s]) :
    Fits d reading (a ++ [part .negation] ++ b) [.str s] := by
  cases negated with
  | false => exact h.expand (by decide)
  | true => exact h.expand (by decide)

theorem nullTest (negated : Bool) (h : Forms d reading .term p) :
    Forms d reading .pred (p ++ [Push.str (if negated then " IS NOT NULL" else " IS NULL")]) := by
  have htest : Fits d reading ([word .is_] ++ (if negated then [word .not_] else []) ++ [word .null])
      [.str (if negated then " IS NOT NULL" else " IS NULL")] := by
    cases negated with
    | false => exact .text (by decide)
    | true => exact .text (by decide)
  exact (h.append (denied negated htest)).rule (by decide)

theorem opening (negated : Bool) : Fits d reading [part .negation, word .in_, sign .open_]
    [.str (if negated then " NOT IN (" else " IN (")] := by
  have hopen : Fits d reading
      ([] ++ (if negated then [word .not_] else []) ++ [word .in_, sign .open_])
      [.str (if negated then " NOT IN (" else " IN (")] := by
    cases negated with
    | false => exact .text (by decide)
    | true => exact .text (by decide)
  exact denied negated hopen

theorem binds {values : List Value} (hne : values ≠ []) : Forms d reading .terms (pushBinds values) := by
  refine several (k := .term) (w := .comma) comma (by decide) (by decide) (by simpa using hne) ?_
  intro item hitem
  obtain ⟨v, -, rfl⟩ := List.mem_map.mp hitem
  exact bind v

theorem inList {values : List Value} (hvalues : values = [] → d = .sqlite) (negated : Bool)
    (h : Forms d reading .term p) :
    Forms d reading .pred (p ++ .str (if negated then " NOT IN (" else " IN (") ::
      pushBinds values ++ [Push.str ")"]) := by
  rw [List.append_assoc]
  cases values with
  | nil =>
      obtain rfl := hvalues rfl
      exact (h.append ((opening negated).append close)).own (by decide)
  | cons v rest =>
      exact (h.append ((opening negated).append ((binds (by simp)).append close))).rule (by decide)

theorem inStatement {s : S} (negated : Bool) (h : Forms d reading .term p)
    (hs : Makes d [part .statement] (reading s)) :
    Forms d reading .pred (p ++ [Push.str (if negated then " NOT IN (" else " IN ("), Push.subquery s,
      Push.str ")"]) := by
  have hsub : Forms d reading .statement [.subquery s] := by
    rw [Forms, Fits, lexemes_subquery]
    exact hs
  exact (h.append ((opening negated).append (hsub.append close))).rule (by decide)

end Forms

-- The rows of a table that a condition asks for.
theorem makes_select {table ws : List Lexeme} (htable : Makes d [part .table] table)
    (hws : Makes d [part .cond] ws) :
    Makes d [part .statement]
      ([Lexeme.word .select, Lexeme.number, Lexeme.word .from_] ++ table ++ .word .where_ :: ws) := by
  have hnumber : Makes d [part .term] [.number] := (Makes.nil.cons .number).rule (by decide)
  have hnone : Makes d [part .label] [] := Makes.nil.rule (by decide)
  have htarget : Makes d [part .target] [.number] := (hnumber.append hnone).rule (by decide)
  have htargets : Makes d [part .targets] [.number] := htarget.rule (by decide)
  have htables : Makes d [part .tables] table := htable.rule (by decide)
  have hwhere : Makes d [part .where_] (.word .where_ :: ws) :=
    (hws.cons (.word .where_)).rule (by decide)
  have hall : Makes d [part .quantifier] [] := Makes.nil.rule (by decide)
  have hgroup : Makes d [part .group] [] := Makes.nil.rule (by decide)
  have hhaving : Makes d [part .having] [] := Makes.nil.rule (by decide)
  have hafter : Makes d [part .where_, part .group, part .having] (.word .where_ :: ws) := by
    simpa using hwhere.append (hgroup.append hhaving)
  have hcore : Makes d [part .core]
      (.word .select :: ([] ++ ([Lexeme.number] ++ .word .from_ :: (table ++ .word .where_ :: ws)))) :=
    ((hall.append (htargets.append ((htables.append hafter).cons (.word .from_)))).cons
      (.word .select)).rule (by decide)
  have horder : Makes d [part .order] [] := Makes.nil.rule (by decide)
  have hpage : Makes d [part .page] [] := Makes.nil.rule (by decide)
  have hoperand : Makes d [part .operand] _ := hcore.rule (by decide)
  have hcompound : Makes d [part .compound] _ := hoperand.rule (by decide)
  have hbody := (hcompound.append (horder.append hpage)).rule (n := .body) (by decide)
  simpa using hbody.rule (n := .statement) (by decide)

-- A condition after NOT.
theorem makes_denied {ws : List Lexeme} (negated : Bool) (h : Makes d [part .cond] ws) :
    Makes d [part .cond] ((if negated then [Lexeme.word .not_] else []) ++ ws) := by
  cases negated with
  | false => exact h
  | true => exact (h.cons (.word .not_)).rule (by decide)

theorem makes_exists {ws : List Lexeme} (negated : Bool) (h : Makes d [part .statement] ws) :
    Makes d [part .cond] ((if negated then [Lexeme.word .not_] else []) ++
      .word .exists_ :: .open_ :: (ws ++ [Lexeme.close])) := by
  have hclose : Makes d [sign .close] [.close] := Makes.nil.cons .close
  have hpred : Makes d [part .pred] (.word .exists_ :: .open_ :: (ws ++ [Lexeme.close])) :=
    (((h.append hclose).cons .open_).cons (.word .exists_)).rule (by decide)
  exact makes_denied negated (hpred.rule (by decide))

namespace Forms

-- One condition or more with a connective between them.
theorem chain {items : List (List (Push S))} {w : Reserved} {sep : String}
    (hsep : Fits d reading [word w] [.str sep])
    (hmany : (⟨.cond, [part .cond, word w, part .cond]⟩ : Rule) ∈ queryRules ++ conditionRules)
    (hne : items ≠ []) (h : ∀ item ∈ items, Forms d reading .cond item) :
    Forms d reading .cond (separated sep items) := by
  induction items with
  | nil => exact absurd rfl hne
  | cons first rest ih =>
      obtain ⟨hfirst, hrest⟩ := List.forall_mem_cons.mp h
      cases rest with
      | nil => exact hfirst
      | cons next rest => exact (Fits.append hfirst (hsep.append (ih (by simp) hrest))).rule hmany

theorem conjunction {items : List (List (Push S))} (hne : items ≠ [])
    (h : ∀ item ∈ items, Forms d reading .cond item) :
    Forms d reading .cond (separated " AND " items) :=
  chain (w := .and_) (.text (by decide)) (by decide) hne h

end Forms

-- Two or more conditions stand in brackets, one stands alone.
theorem forms_joined {constant sep : String} {w v : Reserved} {nodes : List (FilterNode S)}
    (hconstant : Fits d reading [word w] [.str constant])
    (hterm : (⟨.term, [word w]⟩ : Rule) ∈ queryRules ++ conditionRules)
    (hsep : Fits d reading [word v] [.str sep])
    (hmany : (⟨.cond, [part .cond, word v, part .cond]⟩ : Rule) ∈ queryRules ++ conditionRules)
    (h : ∀ node ∈ nodes, Forms d reading .cond (pushFilter d node)) :
    Forms d reading .cond (joined d constant sep nodes) := by
  have hlist : ∀ nodes : List (FilterNode S), nodes ≠ [] →
      (∀ node ∈ nodes, Forms d reading .cond (pushFilter d node)) →
      Forms d reading .cond (pushFilters d sep nodes) := by
    intro nodes hne hall
    rw [pushFilters_eq]
    refine Forms.chain hsep hmany (mt List.map_eq_nil_iff.mp hne) fun item hitem => ?_
    obtain ⟨node, hnode, rfl⟩ := List.mem_map.mp hitem
    exact hall node hnode
  match nodes with
  | [] => exact Forms.cond (hconstant.rule hterm)
  | [node] => exact h node (by simp)
  | first :: second :: rest => exact (hlist _ (by simp) h).brackets.cond

end Ruprizzle.Runtime
