import Ruprizzle.Runtime.Cascades

namespace Ruprizzle.Runtime

section Rules

variable {S : Type} (d : Dialect)

namespace FilterNode

-- The lists without values that a text without a column stands for, or a test that
-- no value passes.
def listRule : FilterNode S → Option Bool
  | .in_ _ _ values negated => if values.isEmpty ∧ d = .sqlite then some negated else none
  | .array _ _ op values =>
      if values.isEmpty ∧ d = .sqlite then
        match op with
        | .contains => some true
        | .overlaps => some false
        | _ => none
      else none
  | _ => none

mutual

-- What a condition comes to at a row, which says itself what its predicates come to.
-- No row is found by a condition that is false whatever the rows are.
def value (row : FilterNode S → Truth) : FilterNode S → Truth
  | .and nodes => Truth.all (values row nodes)
  | .or nodes => Truth.any (values row nodes)
  | .not node => (value row node).not
  | .exists_ childTable childCol parentTable parentCol filter negated =>
      if value (fun _ => .unknown) filter = .no then Truth.ofBool negated
      else row (.exists_ childTable childCol parentTable parentCol filter negated)
  | predicate => ((predicate.listRule d).map Truth.ofBool).getD (row predicate)

def values (row : FilterNode S → Truth) : List (FilterNode S) → List Truth
  | [] => []
  | node :: rest => value row node :: values row rest

end

-- Conditions that the empty connectives and lists in them settle.
inductive Settled : Bool → FilterNode S → Prop
  | rule {b : Bool} {node : FilterNode S} : node.listRule d = some b → Settled b node
  | and_true {nodes : List (FilterNode S)} :
      (∀ node ∈ nodes, Settled true node) → Settled true (.and nodes)
  | and_false {nodes : List (FilterNode S)} {node : FilterNode S} :
      node ∈ nodes → Settled false node → Settled false (.and nodes)
  | or_true {nodes : List (FilterNode S)} {node : FilterNode S} :
      node ∈ nodes → Settled true node → Settled true (.or nodes)
  | or_false {nodes : List (FilterNode S)} :
      (∀ node ∈ nodes, Settled false node) → Settled false (.or nodes)
  | not {b : Bool} {node : FilterNode S} : Settled b node → Settled (!b) (.not node)
  | exists_ {childTable childCol parentTable parentCol : String} {filter : FilterNode S}
      {negated : Bool} : Settled false filter →
      Settled negated (.exists_ childTable childCol parentTable parentCol filter negated)

variable {d} {row : FilterNode S → Truth}

theorem values_eq (nodes : List (FilterNode S)) : values d row nodes = nodes.map (value d row) := by
  induction nodes with
  | nil => rfl
  | cons node rest ih => rw [values, ih, List.map_cons]

theorem value_rule {node : FilterNode S} {b : Bool} (h : node.listRule d = some b) :
    node.value d row = Truth.ofBool b := by
  cases node with
  | in_ table column values negated => simp only [value, h, Option.map_some, Option.getD_some]
  | array table column op values => simp only [value, h, Option.map_some, Option.getD_some]
  | _ => exact absurd h (by simp [listRule])

theorem value_of_settled {b : Bool} {f : FilterNode S} (h : f.Settled d b) :
    ∀ row, f.value d row = Truth.ofBool b := by
  induction h with
  | rule h => exact fun row => value_rule h
  | and_true _ ih =>
      intro row
      rw [value, values_eq]
      refine Truth.all_eq_yes.mpr fun t ht => ?_
      obtain ⟨node, hnode, rfl⟩ := List.mem_map.mp ht
      exact ih node hnode row
  | and_false hmem _ ih =>
      intro row
      rw [value, values_eq]
      exact Truth.all_eq_no.mpr ⟨_, List.mem_map_of_mem hmem, ih row⟩
  | or_true hmem _ ih =>
      intro row
      rw [value, values_eq]
      exact Truth.any_eq_yes.mpr ⟨_, List.mem_map_of_mem hmem, ih row⟩
  | or_false _ ih =>
      intro row
      rw [value, values_eq]
      refine Truth.any_eq_no.mpr fun t ht => ?_
      obtain ⟨node, hnode, rfl⟩ := List.mem_map.mp ht
      exact ih node hnode row
  | @not b _ _ ih =>
      intro row
      rw [value, ih row]
      cases b <;> rfl
  | exists_ _ ih =>
      intro row
      have hno : _ = Truth.no := ih fun _ => .unknown
      rw [value, if_pos hno]

theorem ofBool_ne_unknown (b : Bool) : Truth.ofBool b ≠ .unknown := by
  cases b <;> exact nofun

theorem rule_of_value {node : FilterNode S} {b : Bool}
    (h : ((node.listRule d).map Truth.ofBool).getD .unknown = Truth.ofBool b) :
    node.listRule d = some b := by
  cases hrule : node.listRule d with
  | none =>
      rw [hrule] at h
      exact absurd h.symm (ofBool_ne_unknown b)
  | some b' =>
      rw [hrule] at h
      cases b <;> cases b' <;> first | rfl | cases h

mutual

-- Where nothing is known of the row, only what is settled has a value.
theorem settled_of_value (f : FilterNode S) : ∀ b : Bool,
    f.value d (fun _ => .unknown) = Truth.ofBool b → f.Settled d b := by
  intro b h
  cases f with
  | and nodes =>
      have hnodes := settled_of_values nodes
      rw [value, values_eq] at h
      cases b with
      | true =>
          refine .and_true fun node hnode => hnodes node hnode true ?_
          exact Truth.all_eq_yes.mp h _ (List.mem_map_of_mem hnode)
      | false =>
          obtain ⟨t, ht, hno⟩ := Truth.all_eq_no.mp h
          obtain ⟨node, hnode, rfl⟩ := List.mem_map.mp ht
          exact .and_false hnode (hnodes node hnode false hno)
  | or nodes =>
      have hnodes := settled_of_values nodes
      rw [value, values_eq] at h
      cases b with
      | true =>
          obtain ⟨t, ht, hyes⟩ := Truth.any_eq_yes.mp h
          obtain ⟨node, hnode, rfl⟩ := List.mem_map.mp ht
          exact .or_true hnode (hnodes node hnode true hyes)
      | false =>
          refine .or_false fun node hnode => hnodes node hnode false ?_
          exact Truth.any_eq_no.mp h _ (List.mem_map_of_mem hnode)
  | not node =>
      have hnode : node.value d (fun _ => .unknown) = Truth.ofBool (!b) := by
        rw [value] at h
        cases hvalue : node.value d (fun _ => .unknown) <;> rw [hvalue] at h <;>
          cases b <;> first | rfl | cases h
      have hsettled := Settled.not (settled_of_value node (!b) hnode)
      rwa [Bool.not_not] at hsettled
  | exists_ childTable childCol parentTable parentCol filter negated =>
      rw [value] at h
      split at h
      · next hno =>
          have hfilter := settled_of_value filter false hno
          cases negated <;> cases b <;> first | exact .exists_ hfilter | cases h
      · exact absurd h.symm (ofBool_ne_unknown b)
  | _ =>
      simp only [value] at h
      exact .rule (rule_of_value h)

theorem settled_of_values (nodes : List (FilterNode S)) : ∀ node ∈ nodes, ∀ b,
    node.value d (fun _ => .unknown) = Truth.ofBool b → node.Settled d b := by
  cases nodes with
  | nil => exact fun node hnode => absurd hnode List.not_mem_nil
  | cons first rest =>
      intro node hnode b h
      rcases List.mem_cons.mp hnode with heq | hrest
      · rw [heq] at h ⊢
        exact settled_of_value first b h
      · exact settled_of_values rest node hrest b h

end

-- What is true whatever the row says is settled by rules that do not look at it.
theorem settled_iff {f : FilterNode S} {b : Bool} :
    (∀ row, f.value d row = Truth.ofBool b) ↔ f.Settled d b :=
  ⟨fun h => settled_of_value f b (h _), value_of_settled⟩

end FilterNode

end Rules

section Text

variable {S : Type} {engine : Engine} {db : Database} {d : Dialect} {reading : S → List Word}

theorem negate_ofBool (negated : Bool) : Truth.negate negated .no = Truth.ofBool negated := by
  cases negated <;> rfl

-- The value is what the tree says where its predicates come to what they say.
theorem FilterNode.Faithful.meaning_value {f : FilterNode S} (h : f.Faithful d reading)
    (env : Env) : f.meaning engine db d reading env
      = f.value d (fun predicate => predicate.meaning engine db d reading env) := by
  induction h generalizing env with
  | @in_ table column values negated hsqlite =>
      simp only [FilterNode.value, FilterNode.listRule]
      split
      · next hempty =>
          have hin : engine.isIn (env table column) values = .no := by
            rw [List.isEmpty_iff.mp hempty.1]
            rfl
          show Truth.negate negated (engine.isIn (env table column) values) = Truth.ofBool negated
          rw [hin, negate_ofBool]
      · rfl
  | @exists_ childTable parentTable childCol parentCol filter negated _ _ _ ih =>
      rw [FilterNode.value]
      split
      · next hno =>
          have hsettled : filter.Settled d false := FilterNode.settled_of_value filter false hno
          have hnone : ∀ row : Row,
              ((engine.compare .eq (row childCol) (env parentTable parentCol)).and
              (filter.meaning engine db d reading (env.bind childTable row)) = .yes) = False := by
            intro row
            have hfilter : filter.meaning engine db d reading (env.bind childTable row) = .no :=
              (ih _).trans (FilterNode.value_of_settled hsettled _)
            rw [hfilter]
            cases engine.compare .eq (row childCol) (env parentTable parentCol) <;>
              exact eq_false nofun
          have hany : (db childTable).any (fun _ => false) = false := by
            rw [List.any_eq_false]
            exact fun _ _ => nofun
          rw [FilterNode.meaning]
          simp only [hnone, decide_false, hany]
          exact negate_ofBool negated
      · rfl
  | @and nodes _ _ ih =>
      rw [meaning_and, FilterNode.value, FilterNode.values_eq]
      exact congrArg Truth.all (List.map_congr_left fun node hnode => ih node hnode env)
  | @or nodes _ ih =>
      rw [meaning_or, FilterNode.value, FilterNode.values_eq]
      exact congrArg Truth.any (List.map_congr_left fun node hnode => ih node hnode env)
  | @not node _ ih =>
      show (node.meaning engine db d reading env).not = _
      rw [FilterNode.value, ih]
  | _ =>
      simp only [FilterNode.value]
      rfl

-- So what is settled is what a database reads in the text.
theorem truth_of_settled {f : FilterNode S} {b : Bool} (h : f.Faithful d reading)
    (hsettled : f.Settled d b) (env : Env) :
    engine.truth db d env (f.words d reading) = Truth.ofBool b := by
  rw [truth_words h, h.meaning_value]
  exact FilterNode.value_of_settled hsettled _

end Text

section Builders

variable {S : Type}

-- The calls that set a column, and those that do so if there is a value.
inductive UpdateCall (S : Type)
  | filter (f : FilterNode S)
  | filterIf (f : Option (FilterNode S))
  | set (set : SetExpr)
  | allRows

namespace UpdateQuery

def new (m : Model) : UpdateQuery S := ⟨m, [], .and [], false⟩

def call (q : UpdateQuery S) : UpdateCall S → UpdateQuery S
  | .filter f => { q with filter := Filter.and q.filter f }
  | .filterIf (some f) => { q with filter := Filter.and q.filter f }
  | .filterIf none => { q with allRows := true }
  | .set set => { q with sets := q.sets ++ [set] }
  | .allRows => { q with allRows := true }

def toSql (d : Dialect) (q : UpdateQuery S) : Except String (List (Push S)) :=
  if !q.allRows && q.filter.isTrivial then
    .error "update has no filter; call .all_rows() to update every row"
  else if q.sets.isEmpty then .error "update has no columns to set"
  else .ok (updateWithSets d q.model.table q.sets q.filter [])

end UpdateQuery

-- The first call decides whether a delete can be carried out.
inductive FirstDeleteCall (S : Type)
  | filter (f : FilterNode S)
  | filterIf (f : Option (FilterNode S))
  | allRows

inductive DeleteCall (S : Type)
  | filter (f : FilterNode S)
  | filterIf (f : Option (FilterNode S))
  | cascade (c : DeleteCascade)

namespace DeleteQuery

def new (m : Model) (cascade : List DeleteCascade) : DeleteQuery S := ⟨m, .and [], false, cascade⟩

def first (q : DeleteQuery S) : FirstDeleteCall S → DeleteQuery S
  | .filter f => { q with filter := Filter.and q.filter f, allRows := false }
  | .filterIf (some f) => { q with filter := Filter.and q.filter f, allRows := false }
  | .filterIf none => { q with allRows := true }
  | .allRows => { q with allRows := true }

def call (q : DeleteQuery S) : DeleteCall S → DeleteQuery S
  | .filter f => { q with filter := Filter.and q.filter f }
  | .filterIf (some f) => { q with filter := Filter.and q.filter f }
  | .filterIf none => q
  | .cascade c => { q with cascade := q.cascade ++ [c] }

def toSql (d : Dialect) (q : DeleteQuery S) : Except String (List (Push S)) :=
  if !q.allRows && q.filter.isTrivial then
    .error "delete has no filter; call .all_rows() to delete every row"
  else .ok (delete d q.model.table q.filter [])

end DeleteQuery

-- An update or a delete by the calls it is built with.
inductive WriteCalls (S : Type)
  | update (m : Model) (calls : List (UpdateCall S))
  | delete (m : Model) (cascade : List DeleteCascade) (first : FirstDeleteCall S)
      (calls : List (DeleteCall S))

namespace WriteCalls

def updated (m : Model) (calls : List (UpdateCall S)) : UpdateQuery S :=
  calls.foldl UpdateQuery.call (UpdateQuery.new m)

def deleted (m : Model) (cascade : List DeleteCascade) (first : FirstDeleteCall S)
    (calls : List (DeleteCall S)) : DeleteQuery S :=
  calls.foldl DeleteQuery.call ((DeleteQuery.new m cascade).first first)

def filter : WriteCalls S → FilterNode S
  | update m calls => (updated m calls).filter
  | delete m cascade first calls => (deleted m cascade first calls).filter

def toSql (d : Dialect) : WriteCalls S → Except String (List (Push S))
  | update m calls => (updated m calls).toSql d
  | delete m cascade first calls => (deleted m cascade first calls).toSql d

-- Every row is asked for.
def OptsOut : WriteCalls S → Prop
  | update _ calls => ∃ call ∈ calls, call = .allRows ∨ call = .filterIf none
  | delete _ _ first _ => first = .allRows ∨ first = .filterIf none

-- There is an error or a condition that some row may not meet.
def Guarded (d : Dialect) (w : WriteCalls S) : Prop :=
  (∃ e, w.toSql d = .error e) ∨
    ∃ head, w.toSql d = .ok (head ++ Push.str " WHERE " :: pushFilter d w.filter) ∧
      ∃ row, w.filter.value d row ≠ .yes

end WriteCalls

variable {d : Dialect} {w : WriteCalls S}

theorem allRows_updated {m : Model} {calls : List (UpdateCall S)}
    (h : ∀ call ∈ calls, ¬ (call = .allRows ∨ call = .filterIf none)) :
    (WriteCalls.updated m calls).allRows = false := by
  have hrun : ∀ (calls : List (UpdateCall S)) (q : UpdateQuery S), q.allRows = false →
      (∀ call ∈ calls, ¬ (call = .allRows ∨ call = .filterIf none)) →
      (calls.foldl UpdateQuery.call q).allRows = false := by
    intro calls
    induction calls with
    | nil => exact fun q hq _ => hq
    | cons call rest ih =>
        intro q hq hcalls
        obtain ⟨hcall, hrest⟩ := List.forall_mem_cons.mp hcalls
        refine ih _ ?_ hrest
        cases call with
        | filterIf f =>
            cases f with
            | none => exact absurd (Or.inr rfl) hcall
            | some f => exact hq
        | allRows => exact absurd (Or.inl rfl) hcall
        | _ => exact hq
  exact hrun calls _ rfl h

theorem allRows_deleted {m : Model} {cascade : List DeleteCascade} {first : FirstDeleteCall S}
    {calls : List (DeleteCall S)} (h : ¬ (first = .allRows ∨ first = .filterIf none)) :
    (WriteCalls.deleted m cascade first calls).allRows = false := by
  have hrun : ∀ (calls : List (DeleteCall S)) (q : DeleteQuery S), q.allRows = false →
      (calls.foldl DeleteQuery.call q).allRows = false := by
    intro calls
    induction calls with
    | nil => exact fun q hq => hq
    | cons call rest ih =>
        intro q hq
        refine ih _ ?_
        cases call with
        | filterIf f => cases f <;> exact hq
        | _ => exact hq
  refine hrun calls _ ?_
  cases first with
  | filterIf f =>
      cases f with
      | none => exact absurd (Or.inr rfl) h
      | some f => rfl
  | allRows => exact absurd (Or.inl rfl) h
  | filter f => rfl

theorem exists_row {f : FilterNode S} (h : ¬ f.Settled d true) : ∃ row, f.value d row ≠ .yes := by
  by_contra hall
  push Not at hall
  exact h (FilterNode.settled_of_value f true (hall _))

end Builders

section Example

def members : Model := ⟨"members", ["id", "active"], "id", none⟩

def deactivate (calls : List (UpdateCall Empty)) : WriteCalls Empty :=
  .update members (.set (.column "active" (.bool false)) :: calls)

def everyone : FilterNode Empty := Filter.not (Filter.any [])

end Example

end Ruprizzle.Runtime
