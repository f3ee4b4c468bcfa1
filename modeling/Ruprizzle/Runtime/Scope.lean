import Ruprizzle.Runtime.LiveJoins
import Ruprizzle.Runtime.Steady

namespace Ruprizzle.Runtime

open Conditions

variable {S : Type}

-- What a call brings along leaves the scope where it is: no filter falls apart
-- beside it, and a joined table goes by a name of its own.
def SelectCall.Sound (d : Dialect) (reading : S → List Word) (table : String) :
    SelectCall S → Prop
  | .filter f => f.Steady d reading
  | .orFilter f => f.Steady d reading
  | .join _ right alias_ on => alias_.getD right.table ≠ table ∧
      (right.deletedAtColumn.isSome → Contained (language d) (on.words d reading))
  | _ => True

def AggregateCall.Sound (d : Dialect) (reading : S → List Word) : AggregateCall S → Prop
  | .filter f => f.Steady d reading
  | .orFilter f => f.Steady d reading
  | _ => True

def Terminal.Sound (d : Dialect) (reading : S → List Word) : Terminal S → Prop
  | .aggregate _ calls => ∀ call ∈ calls, call.Sound d reading
  | .grouped _ _ _ calls => ∀ call ∈ calls, call.Sound d reading
  | _ => True

-- Whether a condition is left after more filters were called for.
def AggregateCall.lets (holds : FilterNode S → Bool) (b : Bool) : AggregateCall S → Bool
  | .filter f => b && holds f
  | .orFilter f => b || holds f
  | _ => b

-- A row of the model that the scope of the query lets through.
def SelectQuery.inScope (q : SelectQuery S) (row : Row) : Bool :=
  q.model.deletedAtColumn.all fun column => (row column).isNull != q.onlyDeleted

-- Rows of the model are in scope, and joined ones are not soft-deleted.
def SelectQuery.Shows (q : SelectQuery S) (c : Combination) : Prop :=
  (∀ row, c.1 = some row → q.inScope row = true) ∧
    ∀ row join, c.2 = some row → q.join = some join → row.live join.rightDeletedAt = true

def alone (rows : List Row) : List Combination := rows.map fun row => (some row, none)

section

variable (engine : Engine) (db : Database) (d : Dialect) (reading : S → List Word)

-- What FROM and WHERE let through, of which grouping, HAVING and limits leave some.
def AggregateQuery.rows (a : AggregateQuery S) : List Row :=
  tableRows engine db d reading a.model a.filter

def Terminal.rows (q : SelectQuery S) : Terminal S → List Combination
  | .fetch => q.rows engine db d reading
  | .count => alone (tableRows engine db d reading q.model q.effectiveFilter)
  | .exists_ => alone (tableRows engine db d reading q.model q.effectiveFilter)
  | .page size => (q.page size).rows engine db d reading
  | .leftOf _ _ => q.rows engine db d reading
  | .rightOf _ _ => q.rows engine db d reading
  | .aggregate entries calls =>
      alone (((q.aggregate entries).calls calls).rows engine db d reading)
  | .grouped columns having entries calls =>
      alone ((((q.groupBy columns having).aggregate entries).calls calls).rows engine db d reading)

-- No soft-deleted row of the other side is kept by the join and passes the
-- filters without a partner.
def SelectQuery.NoneKept (q : SelectQuery S) : Prop :=
  ∀ join, q.join = some join → join.kind.keepsRight = true → q.onlyDeleted = false →
    ∀ b ∈ db join.rightTable, b.live join.rightDeletedAt = false →
      engine.holds db d reading (q.env (none, some b)) q.filter = false

-- No row out of scope passes the filters, from where they count.
def AggregateQuery.NoneLet (q : SelectQuery S) (start : Row → Bool)
    (calls : List (AggregateCall S)) : Prop :=
  ∀ row ∈ db q.model.table, q.inScope row = false →
    calls.foldl (AggregateCall.lets fun f => engine.holds db d reading (q.model.env row) f)
      (start row) = false

-- Where the scope is baked in, only what comes after it counts, and where it is
-- left out, all of the filters do.
def Terminal.Scoped (q : SelectQuery S) : Terminal S → Prop
  | .count => True
  | .exists_ => True
  | .aggregate _ calls => AggregateQuery.NoneLet engine db d reading q (fun _ => false) calls
  | .grouped _ _ _ calls =>
      AggregateQuery.NoneLet engine db d reading q
        (fun row => engine.holds db d reading (q.model.env row) q.filter) calls
  | _ => q.NoneKept engine db d reading

end

-- The queries that a chain of calls can lead to.
structure SelectQuery.Sound (d : Dialect) (reading : S → List Word) (q : SelectQuery S) : Prop where
  filter : q.filter.Steady d reading
  join : ∀ join, q.join = some join → join.qualifier ≠ q.model.table ∧
    (join.rightDeletedAt.isSome → Contained (language d) (join.on.words d reading))

variable {engine : Engine} {db : Database} {d : Dialect} {reading : S → List Word}
  {q : SelectQuery S} {m : Model}

namespace SelectQuery

theorem call_model (call : SelectCall S) : (q.call call).model = q.model := by
  cases call <;> rfl

theorem Sound.call {call : SelectCall S} (h : q.Sound d reading)
    (hcall : call.Sound d reading q.model.table) : (q.call call).Sound d reading := by
  cases call with
  | filter f => exact ⟨h.filter.and hcall, h.join⟩
  | orFilter f => exact ⟨h.filter.or hcall, h.join⟩
  | join kind right alias_ on =>
      refine ⟨h.filter, fun join hjoin => ?_⟩
      obtain rfl := Option.some.inj hjoin
      exact hcall
  | columns names =>
      refine ⟨h.filter, fun join hjoin => ?_⟩
      simp [SelectQuery.call] at hjoin
  | _ => exact ⟨h.filter, h.join⟩

theorem foldl_model (calls : List (SelectCall S)) : (calls.foldl call q).model = q.model := by
  induction calls generalizing q with
  | nil => rfl
  | cons first rest ih => exact ih.trans (call_model first)

theorem model_built (calls : List (SelectCall S)) : (built m calls).model = m := foldl_model calls

theorem Sound.foldl {calls : List (SelectCall S)} (h : q.Sound d reading)
    (hcalls : ∀ call ∈ calls, call.Sound d reading q.model.table) :
    (calls.foldl SelectQuery.call q).Sound d reading := by
  induction calls generalizing q with
  | nil => exact h
  | cons first rest ih =>
      obtain ⟨hfirst, hrest⟩ := List.forall_mem_cons.mp hcalls
      refine ih (h.call hfirst) ?_
      rw [call_model]
      exact hrest

theorem sound_built {calls : List (SelectCall S)}
    (h : ∀ call ∈ calls, call.Sound d reading m.table) : (built m calls).Sound d reading := by
  have hnew : (new m : SelectQuery S).Sound d reading :=
    ⟨FilterNode.steady_nil, fun join hjoin => by simp [new] at hjoin⟩
  exact hnew.foldl h

-- The last call about the scope is the one that counts.
theorem withDeleted_built {calls : List (SelectCall S)} (h : SelectCall.withDeleted ∉ calls) :
    (built m calls).withDeleted = false := by
  refine List.foldlRecOn (motive := fun q : SelectQuery S => q.withDeleted = false) calls
    SelectQuery.call rfl fun q hq call hcall => ?_
  cases call with
  | withDeleted => exact absurd hcall h
  | onlyDeleted => rfl
  | _ => exact hq

theorem onlyDeleted_built {calls : List (SelectCall S)} (h : SelectCall.withDeleted ∉ calls) :
    (built m calls).onlyDeleted = true ↔ SelectCall.onlyDeleted ∈ calls := by
  have hfold : ∀ (calls : List (SelectCall S)) (q : SelectQuery S), SelectCall.withDeleted ∉ calls →
      ((calls.foldl call q).onlyDeleted = true ↔
        q.onlyDeleted = true ∨ SelectCall.onlyDeleted ∈ calls) := by
    intro calls
    induction calls with
    | nil => simp
    | cons first rest ih =>
        intro q hnot
        rw [List.mem_cons, not_or] at hnot
        rw [List.foldl_cons, ih _ hnot.2, List.mem_cons]
        cases first with
        | withDeleted => exact absurd rfl hnot.1
        | onlyDeleted => simp [SelectQuery.call]
        | _ => simp [SelectQuery.call]
  rw [built, hfold calls _ h]
  simp [new]

theorem Sound.env_model (h : q.Sound d reading) (c : Combination) (column : String) :
    q.env c q.model.table column = (c.1.getD Row.absent) column := by
  cases hjoin : q.join with
  | none => simp [env, hjoin, Env.bind]
  | some join => exact env_left hjoin (h.join join hjoin).1 c column

theorem effectiveFilter_eq {col : String} (hcol : q.model.deletedAtColumn = some col)
    (hdeleted : q.withDeleted = false) :
    q.effectiveFilter = Filter.and q.filter (.null q.model.table col q.onlyDeleted) := by
  simp [effectiveFilter, hcol, hdeleted]

theorem Sound.steady_effective (h : q.Sound d reading) {col : String}
    (hcol : q.model.deletedAtColumn = some col) (hdeleted : q.withDeleted = false) :
    q.effectiveFilter.Steady d reading := by
  rw [effectiveFilter_eq hcol hdeleted]
  exact h.filter.and (FilterNode.steady_null _ _ _)

-- The scope is one more condition on the row of the model.
theorem Sound.holds_effective (h : q.Sound d reading) {col : String}
    (hcol : q.model.deletedAtColumn = some col) (hdeleted : q.withDeleted = false) (env : Env) :
    engine.holds db d reading env q.effectiveFilter
      = (engine.holds db d reading env q.filter &&
          ((env q.model.table col).isNull != q.onlyDeleted)) := by
  rw [effectiveFilter_eq hcol hdeleted, h.filter.holds_and (FilterNode.steady_null _ _ _), holds_null]

theorem Sound.mem_rows (h : q.Sound d reading) {col : String}
    (hcol : q.model.deletedAtColumn = some col) (hdeleted : q.withDeleted = false)
    {c : Combination} : c ∈ q.rows engine db d reading ↔
      c ∈ q.joined engine db d reading ∧ engine.holds db d reading (q.env c) q.filter = true ∧
        ((c.1.getD Row.absent col).isNull != q.onlyDeleted) = true := by
  rw [rows, List.mem_filter, (h.steady_effective hcol hdeleted).keeps,
    h.holds_effective hcol hdeleted, h.env_model, Bool.and_eq_true]

theorem mem_joined_alone (hjoin : q.join = none) {c : Combination} :
    c ∈ q.joined engine db d reading ↔ ∃ row ∈ db q.model.table, c = (some row, none) := by
  rw [joined, hjoin]
  simp [eq_comm]

theorem rows_shown_iff (h : q.Sound d reading) {col : String}
    (hcol : q.model.deletedAtColumn = some col) (hdeleted : q.withDeleted = false) :
    (∀ c ∈ q.rows engine db d reading, q.Shows c) ↔ q.NoneKept engine db d reading := by
  have hscope : ∀ row : Row, q.inScope row = ((row col).isNull != q.onlyDeleted) := fun row => by
    simp [inScope, hcol]
  constructor
  · intro hshows join hjoin hright honly b hb hdead
    obtain ⟨hother, hon⟩ := h.join join hjoin
    by_contra hpasses
    have hunmatched : ∀ a ∈ db q.model.table,
        engine.holds db d reading (q.env (some a, some b)) (q.joinOn join) = false := by
      intro a ha
      rw [holds_joinOn hjoin hdeleted hon, hdead, Bool.and_false]
    have hmem : ((none, some b) : Combination) ∈ q.rows engine db d reading := by
      rw [h.mem_rows hcol hdeleted]
      refine ⟨?_, Bool.not_eq_false _ ▸ hpasses, by simp [Row.absent, Value.isNull, honly]⟩
      rw [joined, hjoin]
      exact Joins.mem_join.mpr (Or.inr (Or.inr ⟨hright, b, hb, hunmatched, rfl⟩))
    have hlive := (hshows _ hmem).2 b join rfl hjoin
    simp [hdead] at hlive
  · intro hkept c hc
    obtain ⟨hmem, hfilter, hnull⟩ := (h.mem_rows hcol hdeleted).mp hc
    refine ⟨fun row hrow => ?_, fun b join hb hjoin => ?_⟩
    · rw [hscope, ← hnull, hrow]
      rfl
    · obtain ⟨hother, hon⟩ := h.join join hjoin
      rw [joined, hjoin] at hmem
      rcases Joins.mem_join.mp hmem with ⟨a, -, b', -, hmatch, rfl⟩ | ⟨-, a, -, -, rfl⟩ |
        ⟨hright, b', hb', -, rfl⟩
      · obtain rfl := Option.some.inj hb
        rw [holds_joinOn hjoin hdeleted hon, Bool.and_eq_true] at hmatch
        exact hmatch.2
      · simp at hb
      · obtain rfl := Option.some.inj hb
        have honly : q.onlyDeleted = false := by
          simpa [Row.absent, Value.isNull] using hnull
        by_contra hdead
        rw [hkept join hjoin hright honly b' hb' (Bool.not_eq_true _ ▸ hdead)] at hfilter
        simp at hfilter

theorem shows_alone_iff {rows : List Row} :
    (∀ c ∈ alone rows, q.Shows c) ↔ ∀ row ∈ rows, q.inScope row = true := by
  simp [alone, Shows]

theorem Sound.count_shown (h : q.Sound d reading) {col : String}
    (hcol : q.model.deletedAtColumn = some col) (hdeleted : q.withDeleted = false) :
    ∀ c ∈ alone (tableRows engine db d reading q.model q.effectiveFilter), q.Shows c := by
  refine shows_alone_iff.mpr fun row hrow => ?_
  rw [tableRows, List.mem_filter, (h.steady_effective hcol hdeleted).keeps,
    h.holds_effective hcol hdeleted, Bool.and_eq_true] at hrow
  simpa [inScope, hcol, Model.env, Env.bind] using hrow.2.2

end SelectQuery

namespace AggregateQuery

variable {a : AggregateQuery S} {calls : List (AggregateCall S)}

theorem call_model (call : AggregateCall S) : (a.call call).model = a.model := by
  cases call <;> rfl

theorem steady_call {call : AggregateCall S} (h : a.filter.Steady d reading)
    (hcall : call.Sound d reading) : (a.call call).filter.Steady d reading := by
  cases call with
  | filter f => exact h.and hcall
  | orFilter f => exact h.or hcall
  | _ => exact h

theorem holds_call {call : AggregateCall S} (h : a.filter.Steady d reading)
    (hcall : call.Sound d reading) (env : Env) :
    engine.holds db d reading env (a.call call).filter
      = AggregateCall.lets (engine.holds db d reading env)
          (engine.holds db d reading env a.filter) call := by
  cases call with
  | filter f => exact h.holds_and hcall
  | orFilter f => exact h.holds_or hcall
  | _ => rfl

theorem calls_model (calls : List (AggregateCall S)) : (a.calls calls).model = a.model := by
  induction calls generalizing a with
  | nil => rfl
  | cons first rest ih => exact ih.trans (call_model first)

theorem steady_calls (h : a.filter.Steady d reading) (hcalls : ∀ call ∈ calls, call.Sound d reading) :
    (a.calls calls).filter.Steady d reading := by
  induction calls generalizing a with
  | nil => exact h
  | cons first rest ih =>
      obtain ⟨hfirst, hrest⟩ := List.forall_mem_cons.mp hcalls
      exact ih (steady_call h hfirst) hrest

theorem holds_calls (h : a.filter.Steady d reading) (hcalls : ∀ call ∈ calls, call.Sound d reading)
    (env : Env) :
    engine.holds db d reading env (a.calls calls).filter
      = calls.foldl (AggregateCall.lets (engine.holds db d reading env))
          (engine.holds db d reading env a.filter) := by
  induction calls generalizing a with
  | nil => rfl
  | cons first rest ih =>
      obtain ⟨hfirst, hrest⟩ := List.forall_mem_cons.mp hcalls
      rw [List.foldl_cons, ← holds_call h hfirst]
      exact ih (steady_call h hfirst) hrest

theorem rows_inScope_iff {start : Row → Bool} (hmodel : a.model = q.model)
    (h : a.filter.Steady d reading) (hcalls : ∀ call ∈ calls, call.Sound d reading)
    (hstart : ∀ row, q.inScope row = false →
      engine.holds db d reading (q.model.env row) a.filter = start row) :
    (∀ row ∈ (a.calls calls).rows engine db d reading, q.inScope row = true) ↔
      NoneLet engine db d reading q start calls := by
  have hmem : ∀ row, row ∈ (a.calls calls).rows engine db d reading ↔ row ∈ db q.model.table ∧
      calls.foldl (AggregateCall.lets (engine.holds db d reading (q.model.env row)))
        (engine.holds db d reading (q.model.env row) a.filter) = true := fun row => by
    rw [rows, calls_model, hmodel, tableRows, List.mem_filter, (steady_calls h hcalls).keeps,
      holds_calls h hcalls]
  constructor
  · intro hall row hrow hout
    by_contra hlet
    rw [← hstart row hout] at hlet
    have hshown := hall row ((hmem row).mpr ⟨hrow, Bool.not_eq_false _ ▸ hlet⟩)
    simp [hout] at hshown
  · intro hnone row hrow
    obtain ⟨hin, hlet⟩ := (hmem row).mp hrow
    by_contra hout
    have hout' : q.inScope row = false := Bool.not_eq_true _ ▸ hout
    rw [hstart row hout', hnone row hin hout'] at hlet
    simp at hlet

end AggregateQuery

-- Which soft-deleted rows a statement shows, whatever calls built it.
theorem SelectQuery.shows_iff (h : q.Sound d reading) {col : String}
    (hcol : q.model.deletedAtColumn = some col) (hdeleted : q.withDeleted = false)
    {t : Terminal S} (ht : t.Sound d reading) :
    (∀ c ∈ t.rows engine db d reading q, q.Shows c) ↔ t.Scoped engine db d reading q := by
  cases t with
  | count => exact ⟨fun _ => trivial, fun _ => h.count_shown hcol hdeleted⟩
  | exists_ => exact ⟨fun _ => trivial, fun _ => h.count_shown hcol hdeleted⟩
  | aggregate entries calls =>
      refine shows_alone_iff.trans (AggregateQuery.rows_inScope_iff rfl
        (h.steady_effective hcol hdeleted) ht ?_)
      intro row hout
      rw [SelectQuery.aggregate, h.holds_effective hcol hdeleted]
      simp only [inScope, hcol, Option.all_some] at hout
      simp [Model.env, Env.bind, hout]
  | grouped columns having entries calls =>
      exact shows_alone_iff.trans (AggregateQuery.rows_inScope_iff rfl h.filter ht fun _ _ => rfl)
  | page size =>
      -- Neither the order nor the limit is read.
      have hrows : (∀ c ∈ q.rows engine db d reading, q.Shows c) ↔ q.NoneKept engine db d reading :=
        rows_shown_iff h hcol hdeleted
      exact hrows
  | _ => exact rows_shown_iff h hcol hdeleted

theorem SelectQuery.shows_built {calls : List (SelectCall S)} {col : String}
    (hcol : m.deletedAtColumn = some col) (hscope : SelectCall.withDeleted ∉ calls)
    (c : Combination) :
    (built m calls).Shows c ↔
      (∀ row, c.1 = some row →
        ((row col).isNull = true ↔ SelectCall.onlyDeleted ∉ calls)) ∧
      ∀ row join, c.2 = some row → (built m calls).join = some join →
        row.live join.rightDeletedAt = true := by
  have hrow : ∀ row : Row, (built m calls).inScope row = true ↔
      ((row col).isNull = true ↔ SelectCall.onlyDeleted ∉ calls) := by
    intro row
    rw [← onlyDeleted_built (m := m) hscope]
    simp only [inScope, model_built, hcol, Option.all_some]
    cases (row col).isNull <;> cases (built m calls).onlyDeleted <;> simp
  simp only [Shows, hrow]

-- Filters alone keep an aggregate in scope.
theorem scoped_aggregate {entries : List AggregateEntry} {calls : List (AggregateCall S)}
    (h : ∀ f, AggregateCall.orFilter f ∉ calls) :
    (Terminal.aggregate entries calls).Scoped engine db d reading q := by
  intro row _ _
  refine List.foldlRecOn (motive := fun b : Bool => b = false) calls _ rfl fun b hb call hcall => ?_
  cases call with
  | orFilter f => exact absurd hcall (h f)
  | filter f => simp [AggregateCall.lets, hb]
  | _ => exact hb

-- The parents of a delete that cascades are live ones.
theorem parents_shown {f : FilterNode S} {col : String} (hcol : m.deletedAtColumn = some col)
    (hf : f.Steady d reading) :
    ∀ c ∈ (SelectQuery.built m (parentCalls m f)).rows engine db d reading,
      ∀ row, c.1 = some row → (row col).isNull = true := by
  have hcalls : ∀ call ∈ parentCalls m f, call.Sound d reading m.table := by
    simp only [parentCalls, List.mem_cons, List.not_mem_nil, or_false]
    rintro call (rfl | rfl)
    · exact hf
    · exact trivial
  have hscoped : (Terminal.fetch : Terminal S).Scoped engine db d reading
      (SelectQuery.built m (parentCalls m f)) := fun join hjoin => by
    simp [SelectQuery.built, parentCalls, SelectQuery.call] at hjoin
  have hshown := (SelectQuery.shows_iff (t := .fetch) (SelectQuery.sound_built hcalls) hcol
    (by rfl) trivial).mpr hscoped
  intro c hc row hrow
  have hin := (hshown c hc).1 row hrow
  simpa [SelectQuery.inScope, SelectQuery.built, parentCalls, SelectQuery.call, SelectQuery.new,
    hcol] using hin

-- An account that is soft-deleted, and a filter that speaks of all of them.
def deletedAccount : Database :=
  tablesOf [("accounts", [rowOf [("id", .i64 1), ("deleted_at", .i64 0)]])]

def firstAccount : FilterNode Empty := .cmp "accounts" "id" .eq (.i64 1)

end Ruprizzle.Runtime
