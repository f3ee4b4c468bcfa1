import Ruprizzle.Runtime.Closed
import Ruprizzle.Runtime.Steady

namespace Ruprizzle.Runtime

-- How many values a statement binds, of which a database takes only so many.

variable {S : Type}

def Push.bindCount (size : S → Nat) : Push S → Nat
  | .bind _ => 1
  | .subquery s => size s
  | .renumbered s => size s
  | .str _ => 0
  | .quoted _ => 0

def binds (size : S → Nat) : List (Push S) → Nat
  | [] => 0
  | p :: rest => p.bindCount size + binds size rest

theorem length_bound (inner : S → CompiledSql) (pushes : List (Push S)) :
    (bound (pushes.map (Push.map inner))).length
      = binds (fun s => (inner s).binds.length) pushes := by
  induction pushes with
  | nil => rfl
  | cons p rest ih =>
      rw [List.map_cons, bound_cons, List.length_append, ih, binds]
      cases p <;> rfl

variable {size : S → Nat} {d : Dialect}

theorem binds_append (a b : List (Push S)) : binds size (a ++ b) = binds size a + binds size b := by
  induction a with
  | nil => simp [binds]
  | cons p rest ih => rw [List.cons_append, binds, binds, ih, Nat.add_assoc]

theorem binds_separated (sep : String) (items : List (List (Push S))) :
    binds size (separated sep items) = binds size items.flatten := by
  induction items with
  | nil => rfl
  | cons item rest ih =>
      cases rest with
      | nil => simp [separated]
      | cons next more =>
          have hcons : separated sep (item :: next :: more)
              = item ++ .str sep :: separated sep (next :: more) := rfl
          rw [hcons, binds_append, binds, ih, Push.bindCount, Nat.zero_add, ← binds_append]
          rfl

theorem binds_flatten_zero {items : List (List (Push S))} (h : ∀ item ∈ items, binds size item = 0) :
    binds size items.flatten = 0 := by
  induction items with
  | nil => rfl
  | cons item rest ih =>
      obtain ⟨hitem, hrest⟩ := List.forall_mem_cons.mp h
      rw [List.flatten_cons, binds_append, hitem, ih hrest]

def filterBinds (size : S → Nat) (d : Dialect) (f : FilterNode S) : Nat := binds size (pushFilter d f)

def orderBinds (size : S → Nat) (d : Dialect) (order : List OrderBy) : Nat :=
  binds size (pushOrder d order)

theorem binds_joined (constant sep : String) (nodes : List (FilterNode S)) :
    binds size (joined d constant sep nodes)
      = binds size (nodes.map (pushFilter d)).flatten := by
  match nodes with
  | [] => rfl
  | [node] => simp [joined]
  | first :: second :: rest =>
      have hmany : joined d constant sep (first :: second :: rest)
          = .str "(" :: pushFilters d sep (first :: second :: rest) ++ [Push.str ")"] := rfl
      rw [hmany, List.cons_append, binds, binds_append, pushFilters_eq, binds_separated]
      simp [binds, Push.bindCount]

theorem filterBinds_conjuncts (f : FilterNode S) :
    binds size (f.conjuncts.map (pushFilter d)).flatten = filterBinds size d f := by
  cases f with
  | and nodes => rw [filterBinds, pushFilter_and, binds_joined, FilterNode.conjuncts]
  | _ => simp [FilterNode.conjuncts, filterBinds]

-- Joining filters adds no values and leaves none out.
theorem filterBinds_and (f g : FilterNode S) :
    filterBinds size d (Filter.and f g) = filterBinds size d f + filterBinds size d g := by
  rw [Filter.and_eq, filterBinds, pushFilter_and, binds_joined, List.map_append, List.flatten_append,
    binds_append, filterBinds_conjuncts, filterBinds_conjuncts]

theorem filterBinds_nil : filterBinds size d (.and [] : FilterNode S) = 0 := by
  rw [filterBinds, pushFilter_and]
  rfl

theorem filterBinds_null (table column : String) (negated : Bool) :
    filterBinds size d (.null table column negated : FilterNode S) = 0 := by
  rw [filterBinds, pushFilter]
  rfl

theorem filterBinds_in (table column : String) (values : List Value) (negated : Bool) :
    filterBinds size d (.in_ table column values negated : FilterNode S) = values.length := by
  have hvalues : binds size (values.map fun v => [(.bind v : Push S)]).flatten = values.length := by
    induction values with
    | nil => rfl
    | cons v rest ih =>
        rw [List.map_cons, List.flatten_cons, binds_append, ih, List.length_cons]
        simp [binds, Push.bindCount, Nat.add_comm]
  have hbinds : binds size (pushBinds values) = values.length := by
    rw [pushBinds, binds_separated, hvalues]
  rw [filterBinds, pushFilter, binds_append, binds_append, binds, hbinds]
  simp [binds, Push.bindCount, pushColumn]

theorem binds_pushWhere (clause : String) (f : FilterNode S) :
    binds size (pushWhere d clause f) = filterBinds size d f := by
  rw [pushWhere]
  split
  · next htrivial =>
      obtain rfl := FilterNode.eq_and_nil htrivial
      exact filterBinds_nil.symm
  · rw [binds]
    simp [Push.bindCount, filterBinds]

theorem binds_pushColumns (table : String) (columns : List String) :
    binds size (pushColumns table columns) = 0 := by
  rw [pushColumns, binds_separated]
  refine binds_flatten_zero fun item hitem => ?_
  obtain ⟨column, -, rfl⟩ := List.mem_map.mp hitem
  rfl

theorem binds_pushOrderBy (order : List OrderBy) :
    binds size (pushOrderBy d order) = orderBinds size d order := by
  rw [pushOrderBy]
  split
  · next hempty =>
      rw [List.isEmpty_iff.mp hempty]
      rfl
  · rw [binds]
    simp [Push.bindCount, orderBinds]

-- A query without a join and limits binds what its filter and its order do.
theorem binds_select (m : Model) (projection : List String) (f : FilterNode S)
    (order : List OrderBy) :
    binds size (select d m projection f order none none false)
      = filterBinds size d f + orderBinds size d order := by
  have hcolumns : ∀ columns : List String,
      binds size (if columns.isEmpty then [.str "*"] else pushColumns m.table columns) = 0 := by
    intro columns
    split
    · rfl
    · exact binds_pushColumns _ _
  simp only [select, List.flatten_cons, List.flatten_nil, List.append_nil, binds_append, hcolumns,
    binds_pushWhere, binds_pushOrderBy]
  simp [binds, Push.bindCount, pushSelectKeyword, pushPage, pushNumber]

theorem binds_selectPartitioned (m : Model) (partitionBy : String) (f : FilterNode S)
    (order : List OrderBy) (take : Nat) :
    binds size (selectPartitioned d m partitionBy f order take)
      = filterBinds size d f + orderBinds size d order := by
  have hcolumns : binds size (pushAllColumns m.table m.columns : List (Push S)) = 0 := by
    rw [pushAllColumns]
    split
    · rfl
    · exact binds_pushColumns _ _
  have hwindow : binds size (pushWindowOrder d m order : List (Push S)) = orderBinds size d order := by
    rw [pushWindowOrder]
    split
    · next hempty =>
        rw [List.isEmpty_iff.mp hempty]
        rfl
    · rfl
  simp only [selectPartitioned, List.flatten_cons, List.flatten_nil, List.append_nil, binds_append,
    hcolumns, hwindow, binds_pushWhere]
  simp [binds, Push.bindCount, pushColumn]
  omega

end Ruprizzle.Runtime
