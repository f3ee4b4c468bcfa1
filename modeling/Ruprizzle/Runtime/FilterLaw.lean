import Ruprizzle.Runtime.Filters

namespace Ruprizzle.Runtime

-- A filter as it is built, before the builder flattens it.
inductive Built
  | cmp (table column : String) (op : CmpOp) (value : Value)
  | between (table column : String) (lo hi : Value)
  | null (table column : String) (negated : Bool)
  | in_ (table column : String) (values : List Value) (negated : Bool)
  | columnCmp (leftTable leftCol : String) (op : CmpOp) (rightTable rightCol : String)
  | exists_ (childTable childCol parentTable parentCol : String) (filter : Built) (negated : Bool)
  | raw (fragment : RawFragment)
  | and (f g : Built)
  | or (f g : Built)
  | not (f : Built)
  | all (fs : List Built)
  | any (fs : List Built)

namespace Built

mutual

def filter : Built → FilterNode Empty
  | cmp table column op value => .cmp table column op value
  | between table column lo hi => .between table column lo hi
  | null table column negated => .null table column negated
  | in_ table column values negated => .in_ table column values negated
  | columnCmp leftTable leftCol op rightTable rightCol =>
      .columnCmp leftTable leftCol op rightTable rightCol
  | exists_ childTable childCol parentTable parentCol inner negated =>
      .exists_ childTable childCol parentTable parentCol (filter inner) negated
  | raw fragment => .raw fragment
  | and f g => Filter.and (filter f) (filter g)
  | or f g => Filter.or (filter f) (filter g)
  | not f => Filter.not (filter f)
  | all fs => Filter.all (filters fs)
  | any fs => Filter.any (filters fs)

def filters : List Built → List (FilterNode Empty)
  | [] => []
  | f :: rest => filter f :: filters rest

end

-- The words of a fragment that stands by itself.
def rawWords (d : Dialect) (fragment : RawFragment) : List Word :=
  (FilterNode.raw fragment : FilterNode Empty).words d Empty.elim

variable (engine : Engine) (db : Database) (d : Dialect)

mutual

def meaning : Built → Env → Truth
  | cmp table column op value => fun env => engine.compareTo op (env table column) value
  | between table column lo hi => fun env => engine.isBetween (env table column) lo hi
  | null table column negated => fun env => isNullTest (env table column) negated
  | in_ table column values negated => fun env =>
      Truth.negate negated (engine.isIn (env table column) values)
  | columnCmp leftTable leftCol op rightTable rightCol => fun env =>
      engine.compare op (env leftTable leftCol) (env rightTable rightCol)
  | exists_ childTable childCol parentTable parentCol inner negated => fun env =>
      Truth.negate negated (Truth.ofBool ((db childTable).any fun row =>
        (engine.compare .eq (row childCol) (env parentTable parentCol)).and
          (meaning inner (env.bind childTable row)) = .yes))
  | raw fragment => fun env => engine.truth db d env (rawWords d fragment)
  | and f g => fun env => (meaning f env).and (meaning g env)
  | or f g => fun env => (meaning f env).or (meaning g env)
  | not f => fun env => (meaning f env).not
  | all fs => fun env => Truth.all (truths fs env)
  | any fs => fun env => Truth.any (truths fs env)

def truths : List Built → Env → List Truth
  | [], _ => []
  | f :: rest, env => meaning f env :: truths rest env

end

end Built

variable {engine : Engine} {db : Database} {d : Dialect}

-- Flattening leaves the meaning as it is.

theorem meaning_flattenAnd {S : Type} {reading : S → List Word} (nodes : List (FilterNode S))
    (env : Env) : (FilterNode.flattenAnd nodes).meaning engine db d reading env
      = Truth.all (nodes.map fun node => node.meaning engine db d reading env) := by
  rw [FilterNode.flattenAnd, meaning_and, List.map_flatMap, Truth.all_flatMap]
  refine congrArg Truth.all (List.map_congr_left fun node _ => ?_)
  cases node with
  | and children => exact (meaning_and children env).symm
  | _ => exact Truth.and_yes _

theorem meaning_flattenOr {S : Type} {reading : S → List Word} (nodes : List (FilterNode S))
    (env : Env) : (FilterNode.flattenOr nodes).meaning engine db d reading env
      = Truth.any (nodes.map fun node => node.meaning engine db d reading env) := by
  rw [FilterNode.flattenOr, meaning_or, List.map_flatMap, Truth.any_flatMap]
  refine congrArg Truth.any (List.map_congr_left fun node _ => ?_)
  cases node with
  | or children => exact (meaning_or children env).symm
  | _ => exact Truth.or_no _

namespace Built

mutual

theorem meaning_filter (b : Built) (env : Env) :
    b.filter.meaning engine db d Empty.elim env = b.meaning engine db d env := by
  cases b with
  | exists_ childTable childCol parentTable parentCol inner negated =>
      simp only [filter, FilterNode.meaning, meaning, meaning_filter inner]
  | raw fragment =>
      rw [filter, meaning_raw]
      rfl
  | and f g =>
      rw [filter, Filter.and, meaning_flattenAnd]
      simp [meaning, meaning_filter f, meaning_filter g]
  | or f g =>
      rw [filter, Filter.or, meaning_flattenOr]
      simp [meaning, meaning_filter f, meaning_filter g]
  | not f => simp only [filter, Filter.not, FilterNode.meaning, meaning, meaning_filter f]
  | all fs =>
      rw [filter, Filter.all, meaning_flattenAnd, meaning_filters fs]
      simp [meaning]
  | any fs =>
      rw [filter, Filter.any, meaning_flattenOr, meaning_filters fs]
      simp [meaning]
  | _ => simp only [filter, FilterNode.meaning, meaning]

theorem meaning_filters (fs : List Built) (env : Env) :
    (filters fs).map (fun node => node.meaning engine db d Empty.elim env)
      = truths engine db d fs env := by
  cases fs with
  | nil => rfl
  | cons f rest =>
      rw [filters, truths, List.map_cons, meaning_filter f env, meaning_filters rest env]

end

-- The filter compiled by itself, as it stands after WHERE.
def compile (d : Dialect) (b : Built) : CompiledSql :=
  Compiler.run d ((pushFilter d b.filter).map (Push.map Empty.elim))

theorem words_of_compiled {b : Built} (h : b.filter.Closed d fun _ => False) :
    ∃ pieces, fill d 0 (b.compile d).binds (tokens d (b.compile d).sql) = some pieces ∧
      pieces.map (Word.of d) = b.filter.words d Empty.elim := by
  have hspans : Spans d (fun _ => False) Edge.Gap (pushFilter d b.filter) Edge.Outside :=
    spans_pushFilter h
  obtain ⟨e, hflow, hout⟩ := hspans.flows (.at_ .gap) rfl
  have hsettled : ∀ p ∈ pushFilter d b.filter,
      p.Settled (Word.of d) d (Empty.elim : Empty → CompiledSql) Empty.elim := by
    intro p _
    cases p with
    | subquery s => exact s.elim
    | renumbered s => exact s.elim
    | _ => exact True.intro
  obtain ⟨pieces, -, hfill, hmap, -⟩ := Reads.of_flow hflow hsettled 0 .gap rfl
  refine ⟨pieces, ?_, hmap⟩
  rw [compile, Compiler.run_eq]
  exact hfill

theorem filter_means {b : Built} (h : b.filter.Faithful d Empty.elim) :
    ∃ pieces, fill d 0 (b.compile d).binds (tokens d (b.compile d).sql) = some pieces ∧
      ∀ engine db env, engine.truth db d env (pieces.map (Word.of d))
        = b.meaning engine db d env := by
  obtain ⟨pieces, hfill, hwords⟩ := words_of_compiled h.closed
  refine ⟨pieces, hfill, fun engine db env => ?_⟩
  rw [hwords, truth_words h env, meaning_filter]

def fragmentOf (text : String) : RawFragment := ⟨[text], [], rfl⟩

def firstAndEither : Built :=
  .and (.cmp "users" "id" .eq (.i64 1))
    (.any [.null "users" "name" false, .raw (fragmentOf "active OR admin")])

theorem filter_means_either :
    ∃ pieces, fill .sqlite 0 (firstAndEither.compile .sqlite).binds
        (tokens .sqlite (firstAndEither.compile .sqlite).sql) = some pieces ∧
      ∀ engine db env, engine.truth db .sqlite env (pieces.map (Word.of .sqlite))
        = firstAndEither.meaning engine db .sqlite env := by
  have hclosed : (fragmentOf "active OR admin").Closed .sqlite := ⟨_, rfl, trivial⟩
  refine filter_means (.and (fun node hnode => ?_) fun _ node hnode => ?_)
  · simp only [filter, filters, List.flatMap_cons, List.flatMap_nil, Filter.any, List.append_nil,
      FilterNode.flattenOr, List.mem_append, List.mem_singleton] at hnode
    rcases hnode with rfl | rfl
    · exact .cmp _ _ (by simp [Value.isNull]) (by simp)
    · refine .or fun inner hinner => ?_
      simp only [List.mem_append, List.mem_singleton] at hinner
      rcases hinner with rfl | rfl
      · exact .null _ _ _
      · exact .raw hclosed rfl
  · simp only [filter, filters, List.flatMap_cons, List.flatMap_nil, Filter.any, List.append_nil,
      FilterNode.flattenOr, List.mem_append, List.mem_singleton] at hnode
    rcases hnode with rfl | rfl
    · exact rfl
    · exact rfl

-- A fragment with OR escapes the AND it stands in, and a comparison with None
-- leaves an operator beside IS NULL, which is no predicate.
theorem filter_misread :
    (∃ (b : Built) (pieces : List Piece), fill .sqlite 0 (b.compile .sqlite).binds
        (tokens .sqlite (b.compile .sqlite).sql) = some pieces ∧
      ∀ engine db env, engine.truth db .sqlite env (pieces.map (Word.of .sqlite)) = .yes ∧
        b.meaning engine db .sqlite env = .no) ∧
    ∃ (b : Built) (pieces : List Piece), fill .sqlite 0 (b.compile .sqlite).binds
        (tokens .sqlite (b.compile .sqlite).sql) = some pieces ∧
      ∀ (engine : Engine) db env,
        engine.truth db .sqlite env (pieces.map (Word.of .sqlite))
          = engine.other env (pieces.map (Word.of .sqlite)) := by
  refine ⟨⟨.and (.raw (fragmentOf "TRUE OR FALSE")) (.any []), _, rfl, fun engine db env => ⟨rfl, rfl⟩⟩,
    .cmp "users" "id" .eq .null, _, rfl, fun engine db env => rfl⟩

end Built

end Ruprizzle.Runtime
