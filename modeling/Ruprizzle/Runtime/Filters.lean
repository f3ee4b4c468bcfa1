import Ruprizzle.Runtime.Wording

namespace Ruprizzle.Runtime

-- What the tree of a filter says, and that its text says the same.

def Truth.negate (negated : Bool) (t : Truth) : Truth := if negated then t.not else t

section Meaning

variable {S : Type} (engine : Engine) (db : Database) (d : Dialect) (reading : S → List Word)

-- A comparison with None asks whether there is a value.
def Engine.compareTo (op : CmpOp) (x value : Value) : Truth :=
  if value.isNull ∧ op = .eq then isNullTest x false
  else if value.isNull ∧ op = .ne then isNullTest x true
  else engine.compare op x value

mutual

-- Kinds of filters that no connective is in are what their texts say.
def FilterNode.meaning : FilterNode S → Env → Truth
  | .cmp table column op value => fun env => engine.compareTo op (env table column) value
  | .between table column lo hi => fun env => engine.isBetween (env table column) lo hi
  | .null table column negated => fun env => isNullTest (env table column) negated
  | .in_ table column values negated => fun env =>
      Truth.negate negated (engine.isIn (env table column) values)
  | .columnCmp leftTable leftCol op rightTable rightCol => fun env =>
      engine.compare op (env leftTable leftCol) (env rightTable rightCol)
  | .exists_ childTable childCol parentTable parentCol filter negated => fun env =>
      Truth.negate negated (Truth.ofBool ((db childTable).any fun row =>
        (engine.compare .eq (row childCol) (env parentTable parentCol)).and
          (FilterNode.meaning filter (env.bind childTable row)) = .yes))
  | .and nodes => fun env => Truth.all (meanings nodes env)
  | .or nodes => fun env => Truth.any (meanings nodes env)
  | .not node => fun env => (FilterNode.meaning node env).not
  | other => fun env => engine.truth db d env (other.words d reading)

def meanings : List (FilterNode S) → Env → List Truth
  | [], _ => []
  | node :: rest, env => FilterNode.meaning node env :: meanings rest env

end

variable {engine db d reading}

theorem meanings_eq (nodes : List (FilterNode S)) (env : Env) :
    meanings engine db d reading nodes env
      = nodes.map fun node => node.meaning engine db d reading env := by
  induction nodes with
  | nil => rfl
  | cons node rest ih => rw [meanings, ih, List.map_cons]

theorem meaning_and (nodes : List (FilterNode S)) (env : Env) :
    (FilterNode.and nodes).meaning engine db d reading env
      = Truth.all (nodes.map fun node => node.meaning engine db d reading env) := by
  rw [FilterNode.meaning]
  exact congrArg Truth.all (meanings_eq nodes env)

theorem meaning_or (nodes : List (FilterNode S)) (env : Env) :
    (FilterNode.or nodes).meaning engine db d reading env
      = Truth.any (nodes.map fun node => node.meaning engine db d reading env) := by
  rw [FilterNode.meaning]
  exact congrArg Truth.any (meanings_eq nodes env)

theorem meaning_raw (fragment : RawFragment) (env : Env) :
    (FilterNode.raw fragment : FilterNode S).meaning engine db d reading env
      = engine.truth db d env ((FilterNode.raw fragment : FilterNode S).words d reading) := by
  rw [FilterNode.meaning] <;> simp

end Meaning

section Law

open Conditions Nesting

variable {S : Type} {engine : Engine} {db : Database} {d : Dialect} {reading : S → List Word}
  {env : Env}

-- A text after a column, in which nothing connects and every bracket is closed.
theorem tight_column {table column : String} {tail : List Word} (h : Tight (language d) tail) :
    Tight (language d) (columnWords table column ++ tail) := by
  have hcolumn : Tight (language d) (columnWords table column) := rfl
  exact hcolumn.append h

theorem truth_column {table column : String} {tail : List Word} {t : Truth}
    (h : Tight (language d) tail)
    (htest : engine.columnTest d env (env table column) tail = some t) :
    engine.truth db d env (columnWords table column ++ tail) = t := by
  rw [Engine.truth_predicate (tight_column h) rfl]
  show (engine.columnTest d env (env table column) tail).getD _ = t
  rw [htest]
  rfl

theorem tight_values (values : List Value) : Tight (language d) (valueWords values) := by
  induction values with
  | nil => rfl
  | cons v rest ih =>
      cases rest with
      | nil => exact rfl
      | cons next rest => exact .cons rfl (.cons rfl ih)

theorem inList_values (values : List Value) :
    Engine.inList (valueWords values ++ [Word.close]) = some values := by
  induction values with
  | nil => rfl
  | cons v rest ih =>
      cases rest with
      | nil => rfl
      | cons next rest =>
          have hcons : Engine.inList (valueWords (v :: next :: rest) ++ [Word.close])
              = (Engine.inList (valueWords (next :: rest) ++ [Word.close])).map (v :: ·) := rfl
          rw [hcons, ih]
          rfl

theorem tight_in (values : List Value) (negated : Bool) :
    Tight (language d) (negatedWords negated
      (.keyword .in_ :: .open_ :: valueWords values ++ [Word.close])) := by
  have hwrapped : Tight (language d) (.open_ :: valueWords values ++ [Word.close]) :=
    tight_wrapped (L := language d) rfl rfl (tight_values values).whole
  cases negated
  · exact .cons rfl hwrapped
  · exact .cons rfl (.cons rfl hwrapped)

theorem truth_in {table column : String} {values : List Value} {negated : Bool}
    (h : values = [] → d = .sqlite) :
    engine.truth db d env ((FilterNode.in_ table column values negated : FilterNode S).words d reading)
      = Truth.negate negated (engine.isIn (env table column) values) := by
  have hlisted : engine.listed d (env table column) values
      = some (engine.isIn (env table column) values) := by
    refine if_neg fun hempty => hempty.2 (h ?_)
    exact List.isEmpty_iff.mp hempty.1
  rw [words_in]
  refine truth_column (tight_in values negated) ?_
  cases negated
  · show (Engine.inList (valueWords values ++ [Word.close])).bind _ = _
    rw [inList_values, Option.bind_some, hlisted]
    rfl
  · show ((Engine.inList (valueWords values ++ [Word.close])).bind _).map _ = _
    rw [inList_values, Option.bind_some, hlisted]
    rfl

theorem truth_compared {table column : String} {op : CmpOp} {value : Value}
    (hnull : ¬ (value.isNull ∧ (op = .eq ∨ op = .ne))) (hop : op = .ilike → d = .postgres) :
    engine.truth db d env ((FilterNode.cmp table column op value : FilterNode S).words d reading)
      = engine.compareTo op (env table column) value := by
  have heq : ¬ (value.isNull ∧ op = .eq) := fun h => hnull ⟨h.1, Or.inl h.2⟩
  have hne : ¬ (value.isNull ∧ op = .ne) := fun h => hnull ⟨h.1, Or.inr h.2⟩
  have hcompares : engine.compares d op (env table column) value
      = some (engine.compare op (env table column) value) :=
    if_neg fun h => h.2 (hop h.1)
  rw [words_cmp, comparedWords, if_neg heq, if_neg hne, Engine.compareTo, if_neg heq, if_neg hne]
  exact truth_column rfl hcompares

theorem truth_columns {leftTable leftCol rightTable rightCol : String} {op : CmpOp}
    (hop : op = .ilike → d = .postgres) :
    engine.truth db d env
        (columnWords leftTable leftCol ++ .op op :: columnWords rightTable rightCol)
      = engine.compare op (env leftTable leftCol) (env rightTable rightCol) :=
  truth_column rfl (if_neg fun h => h.2 (hop h.1))

theorem truth_constant (b : Bool) :
    engine.truth db d env [.keyword (if b then .true_ else .false_)] = Truth.ofBool b := by
  cases b
  · exact Engine.truth_predicate rfl rfl
  · exact Engine.truth_predicate rfl rfl

theorem joinedWords_many {constant connective : Word} {items : List (List Word)}
    (h : 1 < items.length) :
    joinedWords constant connective items
      = .open_ :: Nesting.joined connective items ++ [Word.close] := by
  match items, h with
  | _ :: _ :: _, _ => rfl

theorem truth_all {items : List (List Word)}
    (h : 1 < items.length → ∀ item ∈ items, Contained (language d) item) :
    engine.truth db d env (joinedWords (.keyword .true_) (.keyword .and_) items)
      = Truth.all (items.map (engine.truth db d env)) := by
  match items with
  | [] => exact truth_constant true
  | [item] => exact (Truth.and_yes _).symm
  | first :: second :: rest =>
      have hitems := h (by simp)
      have hstay : turn none (.keyword .and_) = some .stay := rfl
      have hwhole := Whole.joined hstay fun item hitem => (hitems item hitem).whole
      rw [joinedWords_many (by simp), Engine.truth_brackets hwhole,
        Engine.truth_conjunction (by simp) hitems]

theorem truth_any {items : List (List Word)} (h : ∀ item ∈ items, Whole turn item) :
    engine.truth db d env (joinedWords (.keyword .false_) (.keyword .or_) items)
      = Truth.any (items.map (engine.truth db d env)) := by
  match items with
  | [] => exact truth_constant false
  | [item] => exact (Truth.or_no _).symm
  | first :: second :: rest =>
      have hstay : turn none (.keyword .or_) = some .stay := rfl
      rw [joinedWords_many (by simp), Engine.truth_brackets (Whole.joined hstay h),
        Engine.truth_disjunction (by simp) h]

theorem truth_and {nodes : List (FilterNode S)}
    (h : 1 < nodes.length → ∀ node ∈ nodes, Contained (language d) (node.words d reading)) :
    engine.truth db d env ((FilterNode.and nodes).words d reading)
      = Truth.all (nodes.map fun node => engine.truth db d env (node.words d reading)) := by
  have hitems : 1 < (nodes.map (FilterNode.words d reading)).length →
      ∀ item ∈ nodes.map (FilterNode.words d reading), Contained (language d) item := by
    intro hmany item hitem
    obtain ⟨node, hnode, rfl⟩ := List.mem_map.mp hitem
    exact h (by simpa using hmany) node hnode
  rw [words_and, truth_all hitems, List.map_map]
  rfl

theorem truth_or {nodes : List (FilterNode S)}
    (h : ∀ node ∈ nodes, Whole turn (node.words d reading)) :
    engine.truth db d env ((FilterNode.or nodes).words d reading)
      = Truth.any (nodes.map fun node => engine.truth db d env (node.words d reading)) := by
  have hitems : ∀ item ∈ nodes.map (FilterNode.words d reading), Whole turn item := by
    intro item hitem
    obtain ⟨node, hnode, rfl⟩ := List.mem_map.mp hitem
    exact h node hnode
  rw [words_or, truth_any hitems, List.map_map]
  rfl

theorem truth_not {node : FilterNode S} (h : Whole turn (node.words d reading)) :
    engine.truth db d env ((FilterNode.not node).words d reading)
      = (engine.truth db d env (node.words d reading)).not := by
  rw [words_not, List.cons_append, Engine.truth_not (tight_wrapped (L := language d) rfl rfl h),
    Engine.truth_brackets h]

theorem tight_exists (childTable : String) {condition : List Word} (h : Whole turn condition) :
    Tight (language d) (existsWords childTable condition) := by
  have hinner : Whole turn ([Word.keyword .select, Word.number ['1'], Word.keyword .from_, Word.name childTable,
      Word.keyword .where_] ++ condition) := by
    refine Whole.append ?_ h
    exact rfl
  exact .cons rfl (tight_wrapped (L := language d) rfl rfl hinner)

theorem truth_exists {childTable : String} {condition : List Word} (h : Whole turn condition) :
    engine.truth db d env (existsWords childTable condition)
      = Truth.ofBool ((db childTable).any fun row =>
          engine.truth db d (env.bind childTable row) condition = .yes) := by
  rw [Engine.truth_predicate (tight_exists childTable h) rfl]
  show Truth.ofBool ((db childTable).any fun row =>
    engine.truth db d (env.bind childTable row) (condition ++ [Word.close]).dropLast = .yes) = _
  rw [List.dropLast_concat]

theorem whole_keyed (childTable childCol parentTable parentCol : String) {filter : FilterNode S}
    (h : Whole turn (filter.words d reading)) :
    Whole turn (keyWords childTable childCol parentTable parentCol ++
      if filter.isTrivial then [] else .keyword .and_ :: filter.words d reading) := by
  have hkey : Whole turn (keyWords childTable childCol parentTable parentCol) := rfl
  refine hkey.append ?_
  split
  · exact .nil
  · exact .cons rfl h

theorem truth_keyed {childTable childCol parentTable parentCol : String} {filter : FilterNode S}
    (h : Contained (language d) (filter.words d reading)) :
    engine.truth db d env (keyWords childTable childCol parentTable parentCol ++
        if filter.isTrivial then [] else .keyword .and_ :: filter.words d reading)
      = (engine.compare .eq (env childTable childCol) (env parentTable parentCol)).and
          (engine.truth db d env (filter.words d reading)) := by
  have hkey : engine.truth db d env (keyWords childTable childCol parentTable parentCol)
      = engine.compare .eq (env childTable childCol) (env parentTable parentCol) :=
    truth_columns (by simp)
  split
  · next htrivial =>
      have hfilter : engine.truth db d env (filter.words d reading) = .yes := by
        obtain rfl := FilterNode.eq_and_nil htrivial
        exact truth_and (by simp)
      rw [List.append_nil, hkey, hfilter, Truth.and_yes]
  · have hcontained : ∀ item ∈ [keyWords childTable childCol parentTable parentCol,
        filter.words d reading], Contained (language d) item := by
      simp only [List.mem_cons, List.not_mem_nil, or_false]
      rintro item (rfl | rfl)
      · exact rfl
      · exact h
    have hboth : engine.truth db d env (Nesting.joined (.keyword .and_) _) = _ :=
      Engine.truth_conjunction (by simp) hcontained
    rw [List.map_cons, List.map_cons, List.map_nil, hkey] at hboth
    simpa [Nesting.joined] using hboth

-- Every shape a filter of the builder has, spelled with care. A node may fall
-- apart beside others, so none does where AND stands beside it.
inductive FilterNode.Faithful (d : Dialect) (reading : S → List Word) : FilterNode S → Prop
  | cmp (table column : String) {op : CmpOp} {value : Value} :
      ¬ (value.isNull ∧ (op = .eq ∨ op = .ne)) → (op = .ilike → d = .postgres) →
      Faithful d reading (.cmp table column op value)
  | between (table column : String) (lo hi : Value) :
      Faithful d reading (.between table column lo hi)
  | null (table column : String) (negated : Bool) :
      Faithful d reading (.null table column negated)
  | in_ (table column : String) {values : List Value} (negated : Bool) :
      (values = [] → d = .sqlite) → Faithful d reading (.in_ table column values negated)
  | columnCmp (leftTable leftCol : String) {op : CmpOp} (rightTable rightCol : String) :
      (op = .ilike → d = .postgres) →
      Faithful d reading (.columnCmp leftTable leftCol op rightTable rightCol)
  | exists_ {childTable parentTable : String} (childCol parentCol : String) {filter : FilterNode S}
      (negated : Bool) : childTable ≠ parentTable → Faithful d reading filter →
      Contained (language d) (filter.words d reading) →
      Faithful d reading (.exists_ childTable childCol parentTable parentCol filter negated)
  | and {nodes : List (FilterNode S)} : (∀ node ∈ nodes, Faithful d reading node) →
      (1 < nodes.length → ∀ node ∈ nodes, Contained (language d) (node.words d reading)) →
      Faithful d reading (.and nodes)
  | or {nodes : List (FilterNode S)} : (∀ node ∈ nodes, Faithful d reading node) →
      Faithful d reading (.or nodes)
  | not {node : FilterNode S} : Faithful d reading node → Faithful d reading (.not node)
  | raw {fragment : RawFragment} : fragment.Closed d →
      Whole turn ((FilterNode.raw fragment : FilterNode S).words d reading) →
      Faithful d reading (.raw fragment)

theorem FilterNode.Faithful.closed {f : FilterNode S} {sub : S → Prop} (h : f.Faithful d reading) :
    f.Closed d sub := by
  induction h with
  | cmp => exact .cmp _ _ _ _
  | between => exact .between _ _ _ _
  | null => exact .null _ _ _
  | in_ => exact .in_ _ _ _ _
  | columnCmp => exact .columnCmp _ _ _ _ _
  | exists_ _ _ _ _ _ _ ih => exact .exists_ _ _ _ _ _ ih
  | and _ _ ih => exact .and ih
  | or _ ih => exact .or ih
  | not _ ih => exact .not ih
  | raw h _ => exact .raw h

theorem whole_joinedWords {constant w : Word} {items : List (List Word)}
    (hconstant : Whole turn [constant]) (hw : turn none w = some .stay)
    (h : ∀ item ∈ items, Whole turn item) : Whole turn (joinedWords constant w items) := by
  match items with
  | [] => exact hconstant
  | [item] => exact h item (by simp)
  | first :: second :: rest =>
      rw [joinedWords_many (by simp)]
      exact (tight_wrapped (L := language .sqlite) rfl rfl (Whole.joined hw h)).whole

theorem tight_compared (op : CmpOp) (value : Value) :
    Tight (language d) (.op op :: comparedWords op value) := by
  unfold comparedWords
  split
  · exact rfl
  split
  · exact rfl
  · exact rfl

theorem whole_words {f : FilterNode S} (h : f.Faithful d reading) :
    Whole turn (f.words d reading) := by
  have hmap : ∀ {nodes : List (FilterNode S)}, (∀ node ∈ nodes, Whole turn (node.words d reading)) →
      ∀ item ∈ nodes.map (FilterNode.words d reading), Whole turn item := by
    intro nodes hnodes item hitem
    obtain ⟨node, hnode, rfl⟩ := List.mem_map.mp hitem
    exact hnodes node hnode
  induction h with
  | cmp table column => 
      rw [words_cmp]
      exact (tight_column (d := d) (tight_compared _ _)).whole
  | between table column lo hi =>
      rw [words_between]
      exact rfl
  | null table column negated =>
      rw [words_null]
      cases negated <;> exact rfl
  | in_ table column negated =>
      rw [words_in]
      exact (tight_column (d := d) (tight_in _ negated)).whole
  | columnCmp =>
      rw [words_columnCmp]
      exact rfl
  | @exists_ childTable parentTable childCol parentCol _ negated _ _ _ ih =>
      rw [words_exists]
      have hwhole := whole_keyed childTable childCol parentTable parentCol ih
      have hexists := (tight_exists (d := d) childTable hwhole).whole
      cases negated
      · exact hexists
      · exact .cons rfl hexists
  | and _ _ ih =>
      rw [words_and]
      exact whole_joinedWords rfl rfl (hmap ih)
  | or _ ih =>
      rw [words_or]
      exact whole_joinedWords rfl rfl (hmap ih)
  | not _ ih =>
      rw [words_not]
      exact .cons rfl (tight_wrapped (L := language d) rfl rfl ih).whole
  | raw _ h => exact h

theorem truth_negated {ws : List Word} (negated : Bool) (h : Tight (language d) ws) :
    engine.truth db d env (negatedWords negated ws)
      = Truth.negate negated (engine.truth db d env ws) := by
  cases negated
  · rfl
  · exact Engine.truth_not h

-- The text of a filter says what its tree says.
theorem truth_words {f : FilterNode S} (h : f.Faithful d reading) (env : Env) :
    engine.truth db d env (f.words d reading) = f.meaning engine db d reading env := by
  induction h generalizing env with
  | cmp table column hnull hop =>
      rw [FilterNode.meaning]
      exact truth_compared hnull hop
  | between table column lo hi =>
      rw [words_between, FilterNode.meaning]
      exact truth_column rfl rfl
  | null table column negated =>
      rw [words_null, FilterNode.meaning]
      cases negated
      · exact truth_column rfl rfl
      · exact truth_column rfl rfl
  | in_ table column negated h =>
      rw [FilterNode.meaning]
      exact truth_in h
  | columnCmp leftTable leftCol rightTable rightCol hop =>
      rw [words_columnCmp, FilterNode.meaning]
      exact truth_columns hop
  | @exists_ childTable parentTable childCol parentCol filter negated hother hfilter hcontained ih =>
      have hwhole := whole_keyed childTable childCol parentTable parentCol (whole_words hfilter)
      rw [words_exists, truth_negated negated (tight_exists childTable hwhole), truth_exists hwhole,
        FilterNode.meaning]
      have hrow : ∀ row, (env.bind childTable row) childTable childCol = row childCol ∧
          (env.bind childTable row) parentTable parentCol = env parentTable parentCol := fun row =>
        ⟨congrFun (if_pos rfl) childCol, congrFun (if_neg hother.symm) parentCol⟩
      simp only [truth_keyed hcontained, hrow, ih]
  | and hnodes hcontained ih =>
      rw [truth_and hcontained, meaning_and]
      exact congrArg Truth.all (List.map_congr_left fun node hnode => ih node hnode env)
  | or hnodes ih =>
      rw [truth_or fun node hnode => whole_words (hnodes node hnode), meaning_or]
      exact congrArg Truth.any (List.map_congr_left fun node hnode => ih node hnode env)
  | not hnode ih =>
      rw [truth_not (whole_words hnode), FilterNode.meaning, ih]
  | raw _ _ => rw [meaning_raw]

end Law

end Ruprizzle.Runtime
