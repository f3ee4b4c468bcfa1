import Ruprizzle.Runtime.Pushes

namespace Ruprizzle.Runtime

-- What a query has to spell with care, part by part, so that every statement
-- built of it is read as it was pushed.

variable {S : Type}

inductive FilterNode.Closed (d : Dialect) (sub : S → Prop) : FilterNode S → Prop
  | cmp (table column : String) (op : CmpOp) (value : Value) :
      Closed d sub (.cmp table column op value)
  | between (table column : String) (lo hi : Value) : Closed d sub (.between table column lo hi)
  | null (table column : String) (negated : Bool) : Closed d sub (.null table column negated)
  | in_ (table column : String) (values : List Value) (negated : Bool) :
      Closed d sub (.in_ table column values negated)
  | inSubquery (table column : String) {s : S} (negated : Bool) : sub s →
      Closed d sub (.inSubquery table column s negated)
  | columnCmp (leftTable leftCol : String) (op : CmpOp) (rightTable rightCol : String) :
      Closed d sub (.columnCmp leftTable leftCol op rightTable rightCol)
  | exists_ (childTable childCol parentTable parentCol : String) {filter : FilterNode S}
      (negated : Bool) : Closed d sub filter →
      Closed d sub (.exists_ childTable childCol parentTable parentCol filter negated)
  | existsSubquery {s : S} (negated : Bool) : sub s → Closed d sub (.existsSubquery s negated)
  | and {nodes : List (FilterNode S)} : (∀ node ∈ nodes, Closed d sub node) →
      Closed d sub (.and nodes)
  | or {nodes : List (FilterNode S)} : (∀ node ∈ nodes, Closed d sub node) →
      Closed d sub (.or nodes)
  | not {node : FilterNode S} : Closed d sub node → Closed d sub (.not node)
  | raw {fragment : RawFragment} : fragment.Closed d → Closed d sub (.raw fragment)
  | json (table column : String) {path : JsonPath} (text : Bool) {op : JsonFilterOp}
      {value : Value} : op.Closed d path value → Closed d sub (.json table column path text op value)
  | array (table column : String) (op : ArrayFilterOp) (values : List Value) :
      Closed d sub (.array table column op values)
  | fullTextMatch (table column query : String) : Closed d sub (.fullTextMatch table column query)
  | spatial (table column : String) (op : SpatialOp) (geometry : String) (distance : Option F64) :
      Closed d sub (.spatial table column op geometry distance)

def OrderBy.Closed (d : Dialect) (o : OrderBy) : Prop :=
  match o.spatialDistance, o.jsonPath with
  | none, some path => JsonPath.Closed d path
  | _, _ => True

def SetExpr.Closed : SetExpr → Prop
  | .column _ _ => True
  | .jsonSet _ path _ => ∀ seg ∈ path, seg.Paired

-- A name of a conflict target, which is written without quotes.
def BareName (d : Dialect) (name : String) : Prop :=
  ∃ e, textFlow d (.at_ .gap) name.toList = some e ∧ e.Outside

variable {d : Dialect} {sub : S → Prop}

theorem pushFilters_eq (d : Dialect) (sep : String) (nodes : List (FilterNode S)) :
    pushFilters d sep nodes = separated sep (nodes.map (pushFilter d)) := by
  induction nodes with
  | nil => rfl
  | cons node rest ih =>
      cases rest with
      | nil => rfl
      | cons next rest =>
          rw [pushFilters]
          · rw [ih]
            rfl
          · simp

theorem spans_op (op : CmpOp) : Spans d sub Edge.Gap [.str op.sql] Edge.Outside := by
  cases d <;> cases op <;> exact .of_flow rfl (by decide) rfl

theorem blank : Spans d sub Edge.Outside [.str " "] Edge.Gap :=
  .break_ rfl (by cases d <;> exact .of_flow rfl rfl rfl)

-- Two or more nodes are joined in parentheses, one is written by itself.
def joined (d : Dialect) (constant sep : String) (nodes : List (FilterNode S)) : List (Push S) :=
  match nodes with
  | [] => [.str constant]
  | [node] => pushFilter d node
  | nodes => .str "(" :: pushFilters d sep nodes ++ [Push.str ")"]

theorem pushFilter_and (d : Dialect) (nodes : List (FilterNode S)) :
    pushFilter d (.and nodes) = joined d "TRUE" " AND " nodes := by
  match nodes with
  | [] => rw [pushFilter, joined]
  | [node] => rw [pushFilter, joined]
  | first :: second :: rest => rw [pushFilter, joined] <;> simp

theorem pushFilter_or (d : Dialect) (nodes : List (FilterNode S)) :
    pushFilter d (.or nodes) = joined d "FALSE" " OR " nodes := by
  match nodes with
  | [] => rw [pushFilter, joined]
  | [node] => rw [pushFilter, joined]
  | first :: second :: rest => rw [pushFilter, joined] <;> simp

theorem spans_joined {nodes : List (FilterNode S)} {constant sep : String}
    (hconstant : Spans d sub Edge.Gap [.str constant] Edge.Outside)
    (hsep : Spans d sub Edge.Outside [.str sep] Edge.Gap)
    (hnodes : ∀ node ∈ nodes, Spans d sub Edge.Gap (pushFilter d node) Edge.Outside) :
    Spans d sub Edge.Gap (joined d constant sep nodes) Edge.Outside := by
  have hopen : Spans d sub Edge.Gap [.str "("] Edge.Gap := by
    cases d <;> exact .of_flow rfl rfl rfl
  have hjoined : Spans d sub Edge.Gap (pushFilters d sep nodes) Edge.Outside := by
    rw [pushFilters_eq]
    refine .separated hsep fun item hitem => ?_
    obtain ⟨node, hnode, rfl⟩ := List.mem_map.mp hitem
    exact hnodes node hnode
  match nodes with
  | [] => exact hconstant
  | [node] => exact hnodes node (by simp)
  | first :: second :: rest => exact (Spans.append hopen hjoined).append Spans.close.weaken

theorem spans_pushFilter {f : FilterNode S} (h : f.Closed d sub) :
    Spans d sub Edge.Gap (pushFilter d f) Edge.Outside := by
  induction h with
  | cmp table column op value =>
      have hright : Spans d sub Edge.Gap
          [if value.isNull ∧ op = .eq then .str "IS NULL"
            else if value.isNull ∧ op = .ne then .str "IS NOT NULL"
            else .bind value] Edge.Outside := by
        split
        · cases d <;> exact .of_flow rfl trivial rfl
        split
        · cases d <;> exact .of_flow rfl trivial rfl
        · exact .bind value
      rw [pushFilter]
      exact (Spans.column_outside table column).append
        (.cons blank (.cons (spans_op op) (.cons blank hright)))
  | between table column lo hi =>
      rw [pushFilter]
      cases d <;> exact .of_flow rfl trivial rfl
  | null table column negated =>
      rw [pushFilter]
      cases d <;> cases negated <;> exact .of_flow rfl trivial rfl
  | in_ table column values negated =>
      have hopen : Spans d sub Edge.Outside
          [.str (if negated then " NOT IN (" else " IN (")] Edge.Gap := by
        cases negated <;> exact .break_ rfl (by cases d <;> exact .of_flow rfl rfl rfl)
      rw [pushFilter]
      simpa using (Spans.column_outside table column).append
        (hopen.append ((Spans.binds values).append Spans.close.weaken))
  | inSubquery table column negated hs =>
      have hopen : Spans d sub Edge.Outside
          [.str (if negated then " NOT IN (" else " IN (")] Edge.Gap := by
        cases negated <;> exact .break_ rfl (by cases d <;> exact .of_flow rfl rfl rfl)
      rw [pushFilter]
      exact (Spans.column_outside table column).append
        (.cons hopen (.cons (.subquery hs) Spans.close.weaken))
  | columnCmp leftTable leftCol op rightTable rightCol =>
      rw [pushFilter]
      have hop : Spans d sub Edge.Outside [.str " ", .str op.sql, .str " "] Edge.Gap :=
        .cons blank (.cons (spans_op op) blank)
      exact ((Spans.column_outside leftTable leftCol).append hop).append
        (.column_outside rightTable rightCol)
  | @exists_ childTable childCol parentTable parentCol filter negated hf ih =>
      have hopen : Spans d sub Edge.Gap
          [.str (if negated then "NOT EXISTS (SELECT 1 FROM " else "EXISTS (SELECT 1 FROM ")]
          Edge.Gap := by
        cases negated <;> cases d <;> exact .of_flow rfl rfl rfl
      have hwhere : Spans d sub Edge.Outside [.str " WHERE "] Edge.Gap :=
        .break_ rfl (by cases d <;> exact .of_flow rfl rfl rfl)
      have hequals : Spans d sub Edge.Outside [.str " = "] Edge.Gap :=
        .break_ rfl (by cases d <;> exact .of_flow rfl rfl rfl)
      have hand : Spans d sub Edge.Outside [.str " AND "] Edge.Gap :=
        .break_ rfl (by cases d <;> exact .of_flow rfl rfl rfl)
      have hfilter : Spans d sub Edge.Outside
          (if filter.isTrivial then [] else .str " AND " :: pushFilter d filter) Edge.Outside := by
        split
        · exact .nil
        · exact .cons hand ih
      have htables : Spans d sub Edge.Gap (.str
          (if negated then "NOT EXISTS (SELECT 1 FROM " else "EXISTS (SELECT 1 FROM ") ::
          .quoted childTable :: .str " WHERE " :: pushColumn childTable childCol) Edge.Outside :=
        .cons hopen (.cons (.quoted childTable)
          (.cons hwhere (.column_outside childTable childCol)))
      have hkeys : Spans d sub Edge.Outside (.str " = " :: pushColumn parentTable parentCol)
          Edge.Outside := .cons hequals (.column_outside parentTable parentCol)
      rw [pushFilter]
      simpa using (htables.append hkeys).append (hfilter.append Spans.close.weaken)
  | existsSubquery negated hs =>
      have hopen : Spans d sub Edge.Gap
          [.str (if negated then "NOT EXISTS (" else "EXISTS (")] Edge.Gap := by
        cases negated <;> cases d <;> exact .of_flow rfl rfl rfl
      rw [pushFilter]
      exact .cons hopen (.cons (.subquery hs) Spans.close.weaken)
  | and hnodes ih =>
      have hand : Spans d sub Edge.Outside [.str " AND "] Edge.Gap :=
        .break_ rfl (by cases d <;> exact .of_flow rfl rfl rfl)
      have htrue : Spans d sub Edge.Gap [.str "TRUE"] Edge.Outside := by
        cases d <;> exact .of_flow rfl trivial rfl
      rw [pushFilter_and]
      exact spans_joined htrue hand ih
  | or hnodes ih =>
      have hor : Spans d sub Edge.Outside [.str " OR "] Edge.Gap :=
        .break_ rfl (by cases d <;> exact .of_flow rfl rfl rfl)
      have hfalse : Spans d sub Edge.Gap [.str "FALSE"] Edge.Outside := by
        cases d <;> exact .of_flow rfl trivial rfl
      rw [pushFilter_or]
      exact spans_joined hfalse hor ih
  | not hnode ih =>
      have hopen : Spans d sub Edge.Gap [.str "NOT ("] Edge.Gap := by
        cases d <;> exact .of_flow rfl rfl rfl
      rw [pushFilter]
      exact (Spans.append hopen ih).append Spans.close.weaken
  | raw hfragment =>
      rw [pushFilter]
      exact spans_pushRaw hfragment
  | @json table column path text op value hop =>
      cases op with
      | cmp op =>
          rw [pushFilter]
          have htail : Spans d sub Edge.Outside
              [.str " ", .str op.sql, .str " ", .bind (jsonCmpValue d text value)] Edge.Outside :=
            .cons blank (.cons (spans_op op) (.cons blank (.bind _)))
          exact (spans_pushJsonExpr table column text hop).append htail
      | contains =>
          rw [pushFilter]
          exact spans_pushJsonContains table column hop.1 hop.2
      | hasKey =>
          rw [pushFilter]
          exact spans_pushJsonHasKey table column hop
  | array table column op values =>
      rw [pushFilter]
      exact spans_pushArrayOp table column op values
  | fullTextMatch table column query =>
      rw [pushFilter]
      exact spans_pushFullTextMatch table column query
  | spatial table column op geometry distance =>
      rw [pushFilter]
      exact spans_pushSpatialOp table column op geometry distance

end Ruprizzle.Runtime
