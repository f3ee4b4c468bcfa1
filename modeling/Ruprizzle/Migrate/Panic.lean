import Ruprizzle.Migrate.Phases
import Ruprizzle.Parser.Accepted
import Ruprizzle.Parser.Build

namespace Ruprizzle

-- When the planner comes to an end: every name a change gives it to look up is
-- there, and no sort stops.

namespace Diff

-- That the planner finds what it looks up for a change.
def LookedUp (s : Schema) (c : Change) : Prop :=
  (∀ name, c.model? = some name → name ∈ s.models.keys) ∧
    ∀ enum v, c = .addEnumVariant enum v → enum ∈ s.enums.keys

-- A relation that changes under its name leaves the model that owned it behind
-- in the next schema.
def OwnersKept (prev next : Schema) : Prop :=
  ∀ name p r, (name, p) ∈ (relationMap prev).entries → (name, r) ∈ (relationMap next).entries →
    relationChanged p r = true → p.owner ∈ next.models.keys

theorem lookedUp_of_model {s : Schema} {c : Change} {name : ModelName}
    (hc : c.model? = some name) (hname : name ∈ s.models.keys) : LookedUp s c := by
  refine ⟨?_, ?_⟩
  · intro n hn
    rw [hc] at hn
    rwa [← Option.some.inj hn]
  · rintro enum v rfl
    cases hc

theorem lookedUp_diffModels {prev next : Schema} {c : Change} (h : c ∈ diffModels prev next) :
    LookedUp next c := by
  rcases mem_diffModels.mp h with ⟨_, _, rfl, _⟩ | ⟨_, _, rfl, _⟩ | ⟨name, m, m', _, hm', h⟩
  · exact ⟨by simp [Change.model?], by simp⟩
  · exact ⟨by simp [Change.model?], by simp⟩
  · have hname : name ∈ next.models.keys := IndexMap.mem_keys.mpr ⟨m', hm'⟩
    rcases h with h | h | h
    · exact lookedUp_of_model (kind_of_mem_diffColumns h).2 hname
    · exact lookedUp_of_model (kind_of_mem_diffIndexes h).2 hname
    · exact lookedUp_of_model (kind_of_mem_diffUniques h).2 hname

theorem owner_mem {s : Schema} (h : s.WellFormed) {name : String} {r : ResolvedRelation}
    (hr : (name, r) ∈ (relationMap s).entries) : r.owner ∈ s.models.keys :=
  h.owners r (List.mem_filter.mp (relationMap_entries hr).1).1

theorem lookedUp_iff {host : Host} {prev next : Schema} (hp : prev.WellFormed)
    (hn : next.WellFormed) :
    (∀ c ∈ diff host prev next, LookedUp next c) ↔ OwnersKept prev next := by
  unfold diff
  constructor
  · intro h name p r hpe hr hch
    exact (h (.dropForeignKey p.owner p) (List.mem_append_right _
      (mem_diffRelations.mpr (Or.inr ⟨name, p, rfl, hpe, Or.inl ⟨r, hr, hch⟩⟩)))).1 _ rfl
  · intro h c hc
    rw [List.mem_append, List.mem_append] at hc
    rcases hc with (hc | hc) | hc
    · obtain ⟨_, hmodel, henum⟩ := mem_diffEnums hc
      exact ⟨by simp [hmodel], henum⟩
    · exact lookedUp_diffModels hc
    · rcases mem_diffRelations.mp hc with ⟨name, r, rfl, hr, _⟩ | ⟨name, p, rfl, hpe, hcase⟩
      · exact lookedUp_of_model rfl (owner_mem hn hr)
      · rcases hcase with ⟨r, hr, hch⟩ | ⟨_, hkept⟩
        · exact lookedUp_of_model rfl (h name p r hpe hr hch)
        · exact lookedUp_of_model rfl (hkept (owner_mem hp hpe))

-- The models only the next schema has, the tables of those only the previous has.
def newModels (prev next : Schema) : List Model :=
  (next.models.entries.filter (fun (name, _) => !prev.models.contains name)).map Prod.snd

def goneTables (prev next : Schema) : List String :=
  (prev.models.entries.filter (fun (name, _) => !next.models.contains name)).map (fun e => e.2.table)

end Diff

namespace Planner

open Diff

theorem model_isSome {p : Planner} {name : ModelName} (h : name ∈ p.next.models.keys) :
    ∃ m, p.model name = some m :=
  IndexMap.mem_keys_iff_get?.mp h

theorem needsDefer_total (p : Planner) : ∃ defer, p.needsDefer = some defer := by
  unfold needsDefer
  split
  · exact ⟨false, rfl⟩
  · split
    · exact ⟨false, rfl⟩
    · obtain ⟨info, hi⟩ := Cycle.detectCycles_total p.host.fkGraph (if p.down then p.prev else p.next)
      exact ⟨_, by rw [hi]; rfl⟩

theorem addAll_total {p : Planner} (current : Current) (cs : List Change)
    (h : ∀ c ∈ cs, LookedUp p.next c) : ∃ out, p.addAll current cs = some out := by
  induction cs generalizing current with
  | nil => exact ⟨[], rfl⟩
  | cons c rest ih =>
      have hrest := fun current => ih current (fun c hc => h c (List.mem_cons_of_mem _ hc))
      cases c with
      | addColumn model field =>
          obtain ⟨target, ht⟩ := model_isSome ((h (.addColumn model field) (by simp)).1 _ rfl)
          have hstep : ∃ s, p.addStep current model field = some s := by
            unfold addStep
            rw [ht]
            exact ⟨_, rfl⟩
          obtain ⟨⟨stmts, current'⟩, hs⟩ := hstep
          obtain ⟨others, ho⟩ := hrest current'
          exact ⟨stmts ++ others, by simp [addAll, hs, ho]⟩
      | _ => exact hrest current

-- A phase over one kind of change ends if each of its lookups succeeds.
theorem lookup_total {p : Planner} {model : ModelName} {f : Model → List Stmt}
    (h : model ∈ p.next.models.keys) :
    ∃ stmts, (do return f (← p.model model)) = some stmts := by
  obtain ⟨m, hm⟩ := model_isSome h
  exact ⟨f m, by rw [hm]; rfl⟩

theorem plan_total {p : Planner} (hlook : ∀ c ∈ p.changes, LookedUp p.next c)
    (hcreate : ∃ ms, p.host.sortBy.sort (modelDependencyOrder p.next) p.createdModels = some ms)
    (hdrop : ∃ ts, p.host.sortBy.sort (tableDependencyOrder p.prev) p.droppedTables = some ts) :
    ∃ out, p.plan = some out := by
  obtain ⟨defer, hdefer⟩ := p.needsDefer_total
  have hvariants : ∃ out, p.enumVariantsToAdd = some out := by
    refine collect_total fun c hc => ?_
    cases c with
    | addEnumVariant enum v =>
        obtain ⟨e, he⟩ := IndexMap.mem_keys_iff_get?.mp ((hlook _ hc).2 enum v rfl)
        exact ⟨_, by simp only [he]; rfl⟩
    | _ => exact ⟨[], rfl⟩
  have hcreates : ∃ out, p.modelsToCreate = some out := by
    obtain ⟨ms, hms⟩ := hcreate
    unfold modelsToCreate
    rw [hms]
    exact ⟨_, rfl⟩
  have hadds : ∃ out, p.columnsToAdd = some out := addAll_total _ _ hlook
  have hshadowed : ∃ out, p.shadowedColumnsToDrop = some out := by
    refine collect_total fun c hc => ?_
    cases c with
    | dropColumn model column =>
        dsimp only
        split
        · exact lookup_total ((hlook _ hc).1 _ rfl)
        · exact ⟨[], rfl⟩
    | _ => exact ⟨[], rfl⟩
  have hdrops : ∃ out, p.columnsToDrop = some out := by
    refine collect_total fun c hc => ?_
    cases c with
    | dropColumn model column =>
        dsimp only
        split
        · exact ⟨[], rfl⟩
        · exact lookup_total ((hlook _ hc).1 _ rfl)
    | _ => exact ⟨[], rfl⟩
  have hrenames : ∃ out, p.columnsToRename = some out := by
    refine collect_total fun c hc => ?_
    cases c with
    | renameColumn model a b ca cb => exact lookup_total ((hlook _ hc).1 _ rfl)
    | _ => exact ⟨[], rfl⟩
  have halters : ∃ out, p.columnsToAlter = some out := by
    refine collect_total fun c hc => ?_
    cases c with
    | alterColumn model f g aspects => exact lookup_total ((hlook _ hc).1 _ rfl)
    | _ => exact ⟨[], rfl⟩
  have hfkDrops : ∃ out, p.foreignKeysToDrop = some out := by
    refine collect_total fun c hc => ?_
    cases c with
    | dropForeignKey model r => exact lookup_total ((hlook _ hc).1 _ rfl)
    | _ => exact ⟨[], rfl⟩
  have hixDrops : ∃ out, p.indexesToDrop = some out := by
    refine collect_total fun c hc => ?_
    cases c with
    | dropIndex model name => exact lookup_total ((hlook _ hc).1 _ rfl)
    | _ => exact ⟨[], rfl⟩
  have huqDrops : ∃ out, p.uniquesToDrop = some out := by
    refine collect_total fun c hc => ?_
    cases c with
    | dropUnique model name => exact lookup_total ((hlook _ hc).1 _ rfl)
    | _ => exact ⟨[], rfl⟩
  have huqAdds : ∃ out, p.uniquesToAdd = some out := by
    refine collect_total fun c hc => ?_
    cases c with
    | addUnique model uq => exact lookup_total ((hlook _ hc).1 _ rfl)
    | _ => exact ⟨[], rfl⟩
  have hixAdds : ∃ out, p.indexesToCreate = some out := by
    refine collect_total fun c hc => ?_
    cases c with
    | createIndex model ix => exact lookup_total ((hlook _ hc).1 _ rfl)
    | _ => exact ⟨[], rfl⟩
  have hfkAdds : ∃ out, p.foreignKeysToAdd = some out := by
    unfold foreignKeysToAdd
    split
    · exact ⟨[], rfl⟩
    · refine collect_total fun c hc => ?_
      cases c with
      | addForeignKey model r => exact lookup_total ((hlook _ hc).1 _ rfl)
      | _ => exact ⟨[], rfl⟩
  have htables : ∃ out, p.modelsToDrop = some out := by
    obtain ⟨ts, hts⟩ := hdrop
    have hcycle : ∃ tables, p.cycleTables = some tables := by
      unfold cycleTables
      split
      · exact Cycle.cycleTableNames_total p.host.fkGraph p.prev
      · exact ⟨[], rfl⟩
    obtain ⟨tables, htables⟩ := hcycle
    unfold modelsToDrop
    rw [hts, htables]
    exact ⟨_, rfl⟩
  obtain ⟨_, hvariants⟩ := hvariants
  obtain ⟨_, hcreates⟩ := hcreates
  obtain ⟨_, hadds⟩ := hadds
  obtain ⟨_, hshadowed⟩ := hshadowed
  obtain ⟨_, hrenames⟩ := hrenames
  obtain ⟨_, halters⟩ := halters
  obtain ⟨_, hfkDrops⟩ := hfkDrops
  obtain ⟨_, hixDrops⟩ := hixDrops
  obtain ⟨_, huqDrops⟩ := huqDrops
  obtain ⟨_, huqAdds⟩ := huqAdds
  obtain ⟨_, hixAdds⟩ := hixAdds
  obtain ⟨_, hfkAdds⟩ := hfkAdds
  obtain ⟨_, hdrops⟩ := hdrops
  obtain ⟨_, htables⟩ := htables
  exact ⟨_, plan_eq_some.mpr ⟨⟨_, _, _, _, _, _, _, _, _, _, _, _, _, _, _⟩,
    ⟨hdefer, hvariants, hcreates, hadds, hshadowed, hrenames, halters, hfkDrops, hixDrops,
      huqDrops, huqAdds, hixAdds, hfkAdds, hdrops, htables⟩, rfl⟩⟩

-- What an answer of the planner says back about its lookups and sorts.
theorem of_plan_eq_some {p : Planner} {out : List Stmt} (h : p.plan = some out) :
    (∀ model r, .dropForeignKey model r ∈ p.changes → model ∈ p.next.models.keys) ∧
      (∃ ms, p.host.sortBy.sort (modelDependencyOrder p.next) p.createdModels = some ms) ∧
      ∃ ts, p.host.sortBy.sort (tableDependencyOrder p.prev) p.droppedTables = some ts := by
  obtain ⟨ph, hph, _⟩ := plan_eq_some.mp h
  refine ⟨?_, ?_, ?_⟩
  · intro model r hc
    obtain ⟨stmts, hs⟩ := (collect_eq_some.mp hph.fkDrops).1 _ hc
    obtain ⟨m, hm, _⟩ := Option.bind_eq_some_iff.mp hs
    exact IndexMap.mem_keys_iff_get?.mpr ⟨m, hm⟩
  · obtain ⟨ms, hms, _⟩ := Option.bind_eq_some_iff.mp hph.creates
    exact ⟨ms, hms⟩
  · obtain ⟨ts, hts, _⟩ := Option.bind_eq_some_iff.mp hph.tables
    exact ⟨ts, hts⟩

end Planner

namespace Diff

theorem filterMap_eq_nil_of_kind {α : Type} {f : Change → Option α} {l : List Change}
    (h : ∀ c ∈ l, c.kind ≠ .table) (hf : ∀ c, c.kind ≠ .table → f c = none) : l.filterMap f = [] :=
  List.filterMap_eq_nil_iff.mpr fun c hc => hf c (h c hc)

-- A function of changes that only speaks of tables sees two parts of a diff.
theorem filterMap_diff {α : Type} {host : Host} {prev next : Schema} {f : Change → Option α}
    (hf : ∀ c, c.kind ≠ .table → f c = none) :
    (diff host prev next).filterMap f =
      (newModels prev next).filterMap (fun m => f (.createModel m)) ++
        (prev.models.entries.filter (fun (name, _) => !next.models.contains name)).filterMap
          (fun e => f (.dropModel e.1 e.2.table)) := by
  have henums : (diffEnums prev next).filterMap f = [] :=
    filterMap_eq_nil_of_kind (fun c hc => by simp [(mem_diffEnums hc).1]) hf
  have hrelations : (diffRelations host prev next).filterMap f = [] :=
    filterMap_eq_nil_of_kind (fun c hc => by simp [kind_of_mem_diffRelations hc]) hf
  have hkept : (next.models.entries.flatMap fun e => diffModel prev e.1 e.2).filterMap f = [] := by
    refine filterMap_eq_nil_of_kind (fun c hc => ?_) hf
    obtain ⟨⟨name, m'⟩, _, hc⟩ := List.mem_flatMap.mp hc
    rcases mem_diffModel.mp hc with ⟨m, _, hc | hc | hc⟩
    · simp [(kind_of_mem_diffColumns hc).1]
    · simp [(kind_of_mem_diffIndexes hc).1]
    · simp [(kind_of_mem_diffUniques hc).1]
  unfold diff diffModels newModels
  rw [List.filterMap_append, List.filterMap_append, henums, hrelations, List.filterMap_append,
    List.filterMap_append, hkept]
  simp only [List.nil_append, List.append_nil, List.filterMap_map]
  rfl

theorem createdModels_diff {p : Planner} (h : p.changes = diff p.host p.prev p.next) :
    p.createdModels = newModels p.prev p.next := by
  unfold Planner.createdModels
  rw [h, filterMap_diff (by intro c hc; cases c <;> first | rfl | exact absurd rfl hc)]
  simp

theorem droppedTables_diff {p : Planner} (h : p.changes = diff p.host p.prev p.next) :
    p.droppedTables = goneTables p.prev p.next := by
  unfold Planner.droppedTables
  rw [h, filterMap_diff (by intro c hc; cases c <;> first | rfl | exact absurd rfl hc)]
  simp [goneTables]

end Diff

open Diff Planner

-- What a plan from one schema to the other asks of the two.
structure Plannable (prev next : Schema) : Prop where
  owners : OwnersKept prev next
  created : TotalOn (modelDependencyOrder next) (newModels prev next)
  gone : TotalOn (tableDependencyOrder prev) (goneTables prev next)

theorem plan_isSome_of_plannable {p : Planner} (hc : p.changes = diff p.host p.prev p.next)
    (hp : p.prev.WellFormed) (hn : p.next.WellFormed) (h : Plannable p.prev p.next) :
    ∃ out, p.plan = some out := by
  obtain ⟨ms, hms, _⟩ := p.host.sortBy.sorted _ _ h.created
  obtain ⟨ts, hts, _⟩ := p.host.sortBy.sorted _ _ h.gone
  refine plan_total ?_ ⟨ms, ?_⟩ ⟨ts, ?_⟩
  · rw [hc]
    exact (lookedUp_iff hp hn).mpr h.owners
  · rwa [createdModels_diff hc]
  · rwa [droppedTables_diff hc]

-- On a host whose sort stops at every comparator that is no order, the plan
-- exists only where the two comparators are orders.
theorem plannable_of_plan {p : Planner} {out : List Stmt} (hsort : p.host.sortBy = SortBy.strict)
    (hc : p.changes = diff p.host p.prev p.next) (h : p.plan = some out) :
    Plannable p.prev p.next := by
  obtain ⟨howner, hcreate, hdrop⟩ := of_plan_eq_some h
  rw [hsort, createdModels_diff hc] at hcreate
  rw [hsort, droppedTables_diff hc] at hdrop
  refine ⟨?_, (SortBy.strict_sort _ _).mp hcreate, (SortBy.strict_sort _ _).mp hdrop⟩
  intro name q r hq hr hch
  refine howner q.owner q ?_
  rw [hc]
  exact List.mem_append_right _
    (mem_diffRelations.mpr (Or.inr ⟨name, q, rfl, hq, Or.inl ⟨r, hr, hch⟩⟩))

theorem upSql_isSome {host : Host} {d : Dialect} {prev next : Schema} :
    (upSql host d prev next).isSome = true ↔ ∃ out, (upPlanner host d prev next).plan = some out := by
  unfold upSql
  rw [Option.isSome_map, Option.isSome_iff_exists]

theorem downSql_isSome {host : Host} {d : Dialect} {prev next : Schema} :
    (downSql host d prev next).isSome = true ↔
      ∃ out, (downPlanner host d prev next).plan = some out := by
  unfold downSql
  rw [Option.isSome_map, Option.isSome_iff_exists]

noncomputable def Host.strict : Host := ⟨.asInserted, .asInserted, .asInserted, .strict⟩

-- Users written by one model, named as the relation is.
def wroteBy (author : String) (list : String) : Ast :=
  Build.schema "postgres"
    [Build.model "User" [Build.idField,
        Build.field list author .list [Build.attr "relation" [Build.str "Wrote"]]] [],
      Build.model author [Build.idField, Build.field "authorId" "Int" .required [],
        Build.field "author" "User" .required
          [Build.relation ["authorId"] ["id"] [Build.str "Wrote"]]] []]

end Ruprizzle
