import Ruprizzle.Runtime.Closed
import Ruprizzle.Runtime.Meaning

namespace Ruprizzle.Runtime

-- The words that a filter is compiled to.

variable {S : Type} (d : Dialect) (reading : S → List Word)

def wordsOf (pushes : List (Push S)) : List Word :=
  template (Word.of d) d (pushes.map (Push.map reading))

def FilterNode.words (f : FilterNode S) : List Word := wordsOf d reading (pushFilter d f)

-- A column under its table, and values with commas between.
def columnWords (table column : String) : List Word := [.name table, .dot, .name column]

def valueWords : List Value → List Word
  | [] => []
  | [v] => [.value v]
  | v :: rest => .value v :: .comma :: valueWords rest

variable {d reading}

@[simp] theorem wordsOf_nil : wordsOf d reading [] = [] := rfl

@[simp] theorem wordsOf_append (a b : List (Push S)) :
    wordsOf d reading (a ++ b) = wordsOf d reading a ++ wordsOf d reading b := by
  simp [wordsOf, template]

theorem wordsOf_cons (p : Push S) (rest : List (Push S)) :
    wordsOf d reading (p :: rest) = wordsOf d reading [p] ++ wordsOf d reading rest :=
  wordsOf_append [p] rest

theorem wordsOf_quoted (name : String) : wordsOf d reading [.quoted name] = [.name name] := by
  have hname : Text.unquoted (d.quoteIdent name).toList = name := by
    cases d <;> exact Text.unquoted_quoted _ name
  simp [wordsOf, template, Push.map, Push.slots, Word.of, hname]

theorem wordsOf_bind (v : Value) : wordsOf d reading [.bind v] = [.value v] := rfl

theorem wordsOf_column (table column : String) :
    wordsOf d reading (pushColumn table column) = columnWords table column := by
  have hdot : wordsOf d reading [.str "."] = [.dot] := by cases d <;> rfl
  rw [pushColumn, wordsOf_cons, wordsOf_cons (.str "."), wordsOf_quoted, wordsOf_quoted, hdot]
  rfl

theorem wordsOf_separated {sep : String} {w : Word} (hsep : wordsOf d reading [.str sep] = [w])
    (items : List (List (Push S))) :
    wordsOf d reading (separated sep items) = Nesting.joined w (items.map (wordsOf d reading)) := by
  induction items with
  | nil => rfl
  | cons item rest ih =>
      cases rest with
      | nil => rfl
      | cons next rest =>
          rw [separated, wordsOf_append, wordsOf_cons, hsep, ih]
          · rfl
          · simp

theorem wordsOf_binds (values : List Value) :
    wordsOf d reading (pushBinds values) = valueWords values := by
  have hcomma : wordsOf d reading [.str ", "] = [.comma] := by cases d <;> rfl
  rw [pushBinds, wordsOf_separated hcomma]
  induction values with
  | nil => rfl
  | cons v rest ih =>
      cases rest with
      | nil => rfl
      | cons next rest =>
          simp only [List.map_cons, Nesting.joined] at ih ⊢
          rw [ih]
          rfl

theorem wordsOf_op (o : CmpOp) : wordsOf d reading [.str " ", .str o.sql, .str " "] = [.op o] := by
  cases d <;> cases o <;> rfl

-- What a comparison is made with.
def comparedWords (op : CmpOp) (value : Value) : List Word :=
  if value.isNull ∧ op = .eq then [.keyword .is_, .keyword .null]
  else if value.isNull ∧ op = .ne then [.keyword .is_, .keyword .not_, .keyword .null]
  else [.value value]

def nullWords (negated : Bool) : List Word :=
  if negated then [.keyword .is_, .keyword .not_, .keyword .null]
  else [.keyword .is_, .keyword .null]

def negatedWords (negated : Bool) (ws : List Word) : List Word :=
  if negated then .keyword .not_ :: ws else ws

section Filters

variable (table column : String)

theorem words_cmp (op : CmpOp) (value : Value) :
    (FilterNode.cmp table column op value : FilterNode S).words d reading
      = columnWords table column ++ .op op :: comparedWords op value := by
  have hright : wordsOf d reading [if value.isNull ∧ op = .eq then .str "IS NULL"
      else if value.isNull ∧ op = .ne then .str "IS NOT NULL" else .bind value]
      = comparedWords op value := by
    unfold comparedWords
    split
    · cases d <;> rfl
    split
    · cases d <;> rfl
    · rfl
  rw [FilterNode.words, pushFilter, wordsOf_append, wordsOf_column]
  refine congrArg (columnWords table column ++ ·) ((wordsOf_append [_, _, _] [_]).trans ?_)
  rw [wordsOf_op, hright]
  rfl

theorem words_between (lo hi : Value) :
    (FilterNode.between table column lo hi : FilterNode S).words d reading
      = columnWords table column ++
        [Word.keyword .between, Word.value lo, Word.keyword .and_, Word.value hi] := by
  rw [FilterNode.words, pushFilter, wordsOf_append, wordsOf_column]
  refine congrArg (columnWords table column ++ ·) ?_
  cases d <;> rfl

theorem words_null (negated : Bool) :
    (FilterNode.null table column negated : FilterNode S).words d reading
      = columnWords table column ++ nullWords negated := by
  rw [FilterNode.words, pushFilter, wordsOf_append, wordsOf_column]
  refine congrArg (columnWords table column ++ ·) ?_
  cases negated <;> cases d <;> rfl

theorem words_in (values : List Value) (negated : Bool) :
    (FilterNode.in_ table column values negated : FilterNode S).words d reading
      = columnWords table column ++ negatedWords negated
        (.keyword .in_ :: .open_ :: valueWords values ++ [Word.close]) := by
  have hopen : wordsOf d reading [.str (if negated then " NOT IN (" else " IN (")]
      = negatedWords negated [.keyword .in_, .open_] := by
    cases negated <;> cases d <;> rfl
  have hclose : wordsOf d reading [.str ")"] = [.close] := by cases d <;> rfl
  rw [FilterNode.words, pushFilter, wordsOf_append, wordsOf_append, wordsOf_column, wordsOf_cons,
    wordsOf_binds, hopen, hclose]
  cases negated <;> simp [negatedWords]

theorem words_columnCmp (op : CmpOp) (rightTable rightCol : String) :
    (FilterNode.columnCmp table column op rightTable rightCol : FilterNode S).words d reading
      = columnWords table column ++ .op op :: columnWords rightTable rightCol := by
  rw [FilterNode.words, pushFilter, wordsOf_append, wordsOf_append, wordsOf_column, wordsOf_column,
    wordsOf_op]
  simp

end Filters

-- Two or more conditions stand in brackets, one stands alone.
def joinedWords (constant connective : Word) : List (List Word) → List Word
  | [] => [constant]
  | [item] => item
  | items => .open_ :: Nesting.joined connective items ++ [Word.close]

theorem words_joined {constant sep : String} {w w' : Word}
    (hconstant : wordsOf d reading [.str constant] = [w])
    (hsep : wordsOf d reading [.str sep] = [w']) (nodes : List (FilterNode S)) :
    wordsOf d reading (joined d constant sep nodes)
      = joinedWords w w' (nodes.map (FilterNode.words d reading)) := by
  have hopen : wordsOf d reading [.str "("] = [.open_] := by cases d <;> rfl
  have hclose : wordsOf d reading [.str ")"] = [.close] := by cases d <;> rfl
  match nodes with
  | [] => exact hconstant
  | [node] => rfl
  | first :: second :: rest =>
      have hmap : (first :: second :: rest).map (FilterNode.words d reading)
          = ((first :: second :: rest).map (pushFilter d)).map (wordsOf d reading) := by
        rw [List.map_map]
        rfl
      rw [joined, wordsOf_append, wordsOf_cons, pushFilters_eq, wordsOf_separated hsep, hopen, hclose,
        ← hmap]
      · rfl
      · simp
      · simp

theorem words_and (nodes : List (FilterNode S)) :
    (FilterNode.and nodes).words d reading = joinedWords (.keyword .true_) (.keyword .and_)
      (nodes.map (FilterNode.words d reading)) := by
  rw [FilterNode.words, pushFilter_and]
  exact words_joined (by cases d <;> rfl) (by cases d <;> rfl) nodes

theorem words_or (nodes : List (FilterNode S)) :
    (FilterNode.or nodes).words d reading = joinedWords (.keyword .false_) (.keyword .or_)
      (nodes.map (FilterNode.words d reading)) := by
  rw [FilterNode.words, pushFilter_or]
  exact words_joined (by cases d <;> rfl) (by cases d <;> rfl) nodes

theorem words_not (node : FilterNode S) :
    (FilterNode.not node).words d reading
      = .keyword .not_ :: .open_ :: node.words d reading ++ [Word.close] := by
  have hopen : wordsOf d reading [.str "NOT ("] = [.keyword .not_, .open_] := by cases d <;> rfl
  have hclose : wordsOf d reading [.str ")"] = [.close] := by cases d <;> rfl
  rw [FilterNode.words, pushFilter, wordsOf_append, wordsOf_cons, hopen, hclose]
  rfl

-- The rows of a child table that belong to a row outside, and which of them.
def keyWords (childTable childCol parentTable parentCol : String) : List Word :=
  columnWords childTable childCol ++ .op .eq :: columnWords parentTable parentCol

def existsWords (childTable : String) (condition : List Word) : List Word :=
  [Word.keyword .exists_, Word.open_, Word.keyword .select, Word.number ['1'], Word.keyword .from_, Word.name childTable,
    Word.keyword .where_] ++ condition ++ [Word.close]

theorem words_exists (childTable childCol parentTable parentCol : String) (filter : FilterNode S)
    (negated : Bool) :
    (FilterNode.exists_ childTable childCol parentTable parentCol filter negated).words d reading
      = negatedWords negated (existsWords childTable
          (keyWords childTable childCol parentTable parentCol ++
            if filter.isTrivial then [] else .keyword .and_ :: filter.words d reading)) := by
  have hopen : wordsOf d reading
      [.str (if negated then "NOT EXISTS (SELECT 1 FROM " else "EXISTS (SELECT 1 FROM ")]
      = negatedWords negated [.keyword .exists_, .open_, .keyword .select, .number ['1'],
        .keyword .from_] := by
    cases negated <;> cases d <;> rfl
  have hwhere : wordsOf d reading [.str " WHERE "] = [.keyword .where_] := by cases d <;> rfl
  have hequals : wordsOf d reading [.str " = "] = [.op .eq] := by cases d <;> rfl
  have hand : wordsOf d reading [.str " AND "] = [.keyword .and_] := by cases d <;> rfl
  have hclose : wordsOf d reading [.str ")"] = [.close] := by cases d <;> rfl
  have hfilter : wordsOf d reading
      (if filter.isTrivial then [] else .str " AND " :: pushFilter d filter)
      = if filter.isTrivial then [] else .keyword .and_ :: filter.words d reading := by
    split
    · rfl
    · rw [wordsOf_cons, hand]
      rfl
  have htables : wordsOf d reading
      (.str (if negated then "NOT EXISTS (SELECT 1 FROM " else "EXISTS (SELECT 1 FROM ") ::
        .quoted childTable :: .str " WHERE " :: pushColumn childTable childCol)
      = negatedWords negated [Word.keyword .exists_, Word.open_, Word.keyword .select, Word.number ['1'],
        Word.keyword .from_] ++ .name childTable :: .keyword .where_ ::
        columnWords childTable childCol := by
    rw [wordsOf_cons, hopen, wordsOf_cons (.quoted childTable), wordsOf_quoted,
      wordsOf_cons (.str " WHERE "), hwhere, wordsOf_column]
    rfl
  have hkeys : wordsOf d reading (.str " = " :: pushColumn parentTable parentCol)
      = .op .eq :: columnWords parentTable parentCol := by
    rw [wordsOf_cons, hequals, wordsOf_column]
    rfl
  rw [FilterNode.words, pushFilter, wordsOf_append, wordsOf_append, wordsOf_append, htables, hkeys,
    hfilter, hclose]
  cases negated <;> simp [negatedWords, existsWords, keyWords]

end Ruprizzle.Runtime
