import Ruprizzle.Data.NameTable
import Ruprizzle.Migrate.Columns
import Ruprizzle.Migrate.Shapes

namespace Ruprizzle

-- The columns of a table while a PostgreSQL plan runs. A column holds what the
-- field it was made for put into it; an added one holds nothing yet.
abbrev ColumnOp := NameOp (Option FieldName)

def Sql.columnOp? (table : String) : Sql → Option ColumnOp
  | addColumn t c => if t = table then some (.add c.name none) else none
  | dropColumn t c => if t = table then some (.drop c) else none
  | renameColumn t a b => if t = table then some (.rename a b) else none
  | alterType t c _ | setDefault t c _ | dropDefault t c | setNotNull t c | dropNotNull t c =>
      if t = table then some (.touch c) else none
  | modifyColumn t c => if t = table then some (.touch c.name) else none
  | changeColumn t a c => if t = table then some (.rename a c.name) else none
  | _ => none

-- The column operations of a list of statements on one table.
def columnOps (table : String) (stmts : List Stmt) : List ColumnOp :=
  stmts.filterMap (fun s => s.sql.columnOp? table)

@[simp] theorem columnOps_nil (table : String) : columnOps table [] = [] := rfl

@[simp] theorem columnOps_append (table : String) (a b : List Stmt) :
    columnOps table (a ++ b) = columnOps table a ++ columnOps table b :=
  List.filterMap_append

theorem columnOps_flatMap {α : Type} (table : String) (l : List α) (f : α → List Stmt) :
    columnOps table (l.flatMap f) = l.flatMap (fun a => columnOps table (f a)) := by
  unfold columnOps
  rw [List.filterMap_flatMap]

theorem columnOps_of_shaped {table : String} {shapes : List Sql.Shape} {stmts : List Stmt}
    (h : Shaped shapes stmts) (hs : Sql.Shape.column ∉ shapes) : columnOps table stmts = [] := by
  refine List.filterMap_eq_nil_iff.mpr fun s hmem => ?_
  have hshape := h s hmem
  cases hsql : s.sql <;> simp_all [Stmt.shape, Sql.shape, Sql.columnOp?]

theorem columnOps_ite {c : Prop} [Decidable c] (table : String) (a b : List Stmt) :
    columnOps table (if c then a else b) = if c then columnOps table a else columnOps table b :=
  apply_ite (columnOps table) c a b

@[simp] theorem columnOps_single (table : String) (sql : Sql) :
    columnOps table [Stmt.new sql] = (sql.columnOp? table).toList := by
  unfold columnOps
  cases h : sql.columnOp? table <;> simp [h]

namespace Postgres

-- A column as often as its definition is altered.
def touches (f g : Field) : List String :=
  (if f.kind ≠ g.kind ∧ (Dialect.columnType .postgres g).isOk then [g.column] else []) ++
  (if Dialect.defaultSql .postgres f ≠ Dialect.defaultSql .postgres g then [g.column] else []) ++
  (if f.optional ≠ g.optional then [g.column] else [])

theorem mem_touches {f g : Field} {n : String} (h : n ∈ touches f g) : n = g.column := by
  unfold touches at h
  simp only [List.mem_append] at h
  rcases h with (h | h) | h <;>
    · split at h
      · exact List.mem_singleton.mp h
      · cases h

def renameOps (a b : String) : List ColumnOp := if a ≠ b then [.rename a b] else []

theorem columnOps_alterColumn (table : String) (m : Model) (f g : Field) :
    columnOps table (alterColumn m f g) = if m.table = table then
      renameOps f.column g.column ++ (touches f g).map .touch else [] := by
  have hdefault : columnOps table (if Dialect.defaultSql .postgres f ≠ Dialect.defaultSql .postgres g
      then if Dialect.defaultSql .postgres g = "" then [Stmt.new (.dropDefault m.table g.column)]
        else [Stmt.new (.setDefault m.table g.column (Dialect.defaultSql .postgres g))] else []) =
      if m.table = table then (if Dialect.defaultSql .postgres f ≠ Dialect.defaultSql .postgres g
        then [g.column] else []).map .touch else [] := by
    by_cases ht : m.table = table <;> split <;> simp [columnOps_ite, ht, Sql.columnOp?]
  have hnull : columnOps table (if f.optional ≠ g.optional then
      if g.optional then [Stmt.new (.dropNotNull m.table g.column)]
      else [Stmt.new (.setNotNull m.table g.column)] else []) = if m.table = table then
        (if f.optional ≠ g.optional then [g.column] else []).map .touch else [] := by
    by_cases ht : m.table = table <;> split <;> simp [columnOps_ite, ht, Sql.columnOp?]
  have hrename : columnOps table (if f.column ≠ g.column then
      [Stmt.new (.renameColumn m.table f.column g.column)] else []) =
      if m.table = table then renameOps f.column g.column else [] := by
    unfold renameOps
    by_cases ht : m.table = table <;> split <;> simp [ht, Sql.columnOp?]
  unfold alterColumn touches
  dsimp only
  rw [columnOps_append, columnOps_append, columnOps_append, hrename, hdefault, hnull]
  by_cases hk : f.kind = g.kind
  · by_cases ht : m.table = table <;> simp [hk, ht]
  · cases Dialect.columnType .postgres g <;> by_cases ht : m.table = table <;>
      simp [hk, ht, Except.isOk, Except.toBool, Sql.columnOp?, Dialect.errorStmt]

def Typed (f : Field) : Prop := (Dialect.columnType .postgres f).isOk = true

instance (f : Field) : Decidable (Typed f) := inferInstanceAs (Decidable (_ = _))

theorem columnOps_addColumn (table : String) (m : Model) (f : Field) :
    columnOps table (addColumn m f) = if m.table = table then
      (if Typed f then [.add f.column none] else []) else [] := by
  unfold addColumn
  split
  · rename_i sqlType htype
    have hf : Typed f := by simp [Typed, htype, Except.isOk, Except.toBool]
    simp [hf, Sql.columnOp?, apply_ite Option.toList]
  · rename_i e htype
    have hf : ¬ Typed f := by simp [Typed, htype, Except.isOk, Except.toBool]
    simp [hf, Sql.columnOp?]

-- An added column with nothing to fill it is made NOT NULL in a second step.
def addOps (f : Field) : List ColumnOp :=
  (if Typed f then [.add f.column none] else []) ++
    (if Planner.needsBackfill f then [.touch f.column] else [])

theorem columnOps_addColumnWithBackfill (p : Planner) (hd : p.dialect = .postgres) (table : String)
    (target source : Model) (f : Field) : columnOps table (p.addColumnWithBackfill target source f) =
      if target.table = table then addOps f else [] := by
  unfold Planner.addColumnWithBackfill addOps
  by_cases hb : Planner.needsBackfill f = true
  · have hreq : f.optional = false := by
      unfold Planner.needsBackfill at hb
      simp only [Bool.and_eq_true, Bool.not_eq_true'] at hb
      exact hb.1
    have htyped : Typed { f with optional := true } ↔ Typed f := Iff.rfl
    have htouch : touches { f with optional := true } f = [f.column] := by
      simp [touches, hreq, Dialect.defaultSql]
    simp only [hb, ite_true, hd, Dialect.addColumn, Dialect.fullAlterColumnWithSource,
      Dialect.capabilities, Dialect.alterColumn, columnOps_append, columnOps_addColumn,
      columnOps_alterColumn, htyped, htouch, columnOps_single, Planner.backfillComment,
      Sql.columnOp?, renameOps]
    split <;> simp
  · simp only [Bool.not_eq_true] at hb
    simp only [hb, Bool.false_eq_true, ite_false, hd, Dialect.addColumn, columnOps_addColumn,
      List.append_nil]

end Postgres

namespace Planner

open Diff

variable {p : Planner} {name : ModelName} {m m' : Model}

-- A function of changes that only speaks of the columns of one model sees the
-- comparison of its columns.
theorem flatMap_diff_columns {β : Type} {host : Host} {prev next : Schema} {f : Change → List β}
    (hm : (name, m) ∈ prev.models.entries) (hm' : (name, m') ∈ next.models.entries)
    (hf : ∀ c, c.kind ≠ .column ∨ c.model? ≠ some name → f c = []) :
    (diff host prev next).flatMap f = (diffColumns name m m').flatMap f := by
  have hnil : ∀ l : List Change, (∀ c ∈ l, c.kind ≠ .column ∨ c.model? ≠ some name) →
      l.flatMap f = [] := fun l hl => List.flatMap_eq_nil_iff.mpr fun c hc => hf c (hl c hc)
  unfold diff diffModels
  simp only [List.flatMap_append]
  rw [hnil (diffEnums prev next) (fun c hc => Or.inl (by simp [(mem_diffEnums hc).1])),
    hnil (diffRelations host prev next)
      (fun c hc => Or.inl (by simp [kind_of_mem_diffRelations hc])),
    hnil (List.map _ _) (by
      intro c hc
      obtain ⟨e, _, rfl⟩ := List.mem_map.mp hc
      exact Or.inl (by simp [Change.kind])),
    hnil (List.map _ _) (by
      intro c hc
      obtain ⟨e, _, rfl⟩ := List.mem_map.mp hc
      exact Or.inl (by simp [Change.kind]))]
  simp only [List.nil_append, List.append_nil]
  rw [List.flatMap_assoc]
  have hone : (diffModel prev name m').flatMap f = (diffColumns name m m').flatMap f := by
    unfold diffModel
    rw [IndexMap.get?_eq_some.mpr hm]
    dsimp only
    rw [List.flatMap_append, List.flatMap_append,
      hnil (diffIndexes name m m') (fun c hc => Or.inl (by simp [(kind_of_mem_diffIndexes hc).1])),
      hnil (diffUniques name m m') (fun c hc => Or.inl (by simp [(kind_of_mem_diffUniques hc).1])),
      List.append_nil, List.append_nil]
  rw [← hone]
  have hothers : ∀ e ∈ next.models.entries, e ≠ (name, m') →
      (diffModel prev e.1 e.2).flatMap f = [] := by
    rintro ⟨n, m₂⟩ he hne
    refine hnil _ fun c hc => Or.inr ?_
    have hn : n ≠ name := by
      rintro rfl
      exact hne (by rw [IndexMap.entry_unique he hm'])
    obtain ⟨m₁, _, hc⟩ := mem_diffModel.mp hc
    have hmodel : c.model? = some n := by
      rcases hc with hc | hc | hc
      · exact (kind_of_mem_diffColumns hc).2
      · exact (kind_of_mem_diffIndexes hc).2
      · exact (kind_of_mem_diffUniques hc).2
    rw [hmodel]
    simpa using hn
  exact IndexMap.flatMap_entries_eq hm' hothers

-- The alterations of a table, the hinted fields under their new column.
def altered (m m' : Model) : List (Field × Field) :=
  ((hints m m').map (fun (h : Hint) => ({ h.prevField with name := h.newName, column := h.field.column },
    h.field)) ++ (keptColumns m m').map Prod.snd).filter (fun e => columnAspects e.1 e.2 ≠ [])

def shadowed (m m' : Model) : List String :=
  ((droppedColumns m m').map Field.column).filter (fun c => c ∈ (renames m m').map Prod.snd)

def unshadowed (m m' : Model) : List String :=
  ((droppedColumns m m').map Field.column).filter (fun c => c ∉ (renames m m').map Prod.snd)

-- What the column phases do to one table, one after the other.
def namePlan (m m' : Model) : List ColumnOp :=
  (addedColumns m m').flatMap Postgres.addOps ++ (shadowed m m').map .drop ++
    (renames m m').map (fun r => .rename r.1 r.2) ++
    (altered m m').flatMap (fun e => Postgres.renameOps e.1.column e.2.column ++
      (Postgres.touches e.1 e.2).map .touch) ++
    (unshadowed m m').map .drop

theorem flatMap_nil {α β : Type} (l : List α) : l.flatMap (fun _ => ([] : List β)) = [] :=
  List.flatMap_eq_nil_iff.mpr fun _ _ => rfl

theorem flatMap_ite {α β : Type} (l : List α) (q : α → Prop) [DecidablePred q] (g : α → β) :
    l.flatMap (fun a => if q a then [g a] else []) = (l.filter (fun a => q a)).map g := by
  induction l with
  | nil => rfl
  | cons a rest ih =>
      rw [List.flatMap_cons, ih]
      by_cases h : q a <;> simp [h]

section Phases

variable (hc : p.changes = diff p.host p.prev p.next) (hd : p.dialect = .postgres)
  (hn : p.next.WellFormed) (hm : (name, m) ∈ p.prev.models.entries)
  (hm' : (name, m') ∈ p.next.models.entries)

include hm' in
theorem model_eq : p.model name = some m' := IndexMap.get?_eq_some.mpr hm'

-- Statements about another model are about another table.
include hn hm' in
theorem table_ne {other : ModelName} {target : Model} (ht : p.model other = some target)
    (hne : other ≠ name) : target.table ≠ m'.table := by
  intro htable
  have hentry := IndexMap.get?_eq_some.mp ht
  have hsame : target = m' := List.inj_on_of_nodup_map hn.tables
    (IndexMap.mem_values.mpr ⟨_, hentry⟩) (IndexMap.mem_values.mpr ⟨_, hm'⟩) htable
  subst hsame
  exact hne ((hn.named _ _ hentry).1.symm.trans (hn.named _ _ hm').1)

include hc hm hm' in
theorem columnOps_collect {f : Change → Option (List Stmt)} {out : List Stmt}
    (h : collect f p.changes = some out)
    (hf : ∀ c stmts, f c = some stmts → c.kind ≠ .column ∨ c.model? ≠ some name →
      columnOps m'.table stmts = []) :
    columnOps m'.table out =
      (diffColumns name m m').flatMap (fun c => columnOps m'.table ((f c).getD [])) := by
  obtain ⟨hall, rfl⟩ := collect_eq_some.mp h
  rw [columnOps_flatMap, hc, flatMap_diff_columns hm hm']
  intro c hother
  cases hs : f c with
  | none => rfl
  | some stmts => exact hf c stmts hs hother

theorem flatMap_diffColumns {β : Type} (F : Change → List β) :
    (diffColumns name m m').flatMap F =
      (hints m m').flatMap (fun h => (hintChanges name h).flatMap F) ++
      (addedColumns m m').flatMap (fun f => F (.addColumn name f)) ++
      (droppedColumns m m').flatMap (fun f => F (.dropColumn name f.column)) ++
      (keptColumns m m').flatMap (fun e => (keptChanges name e.1 e.2.1 e.2.2).flatMap F) := by
  unfold diffColumns
  simp only [List.flatMap_append, List.flatMap_assoc, List.flatMap_map]

theorem flatMap_alterIfChanged {β : Type} {f g : Field} {F : Change → List β} :
    (alterIfChanged name f g).flatMap F =
      if columnAspects f g ≠ [] then F (.alterColumn name f g (columnAspects f g)) else [] := by
  unfold alterIfChanged
  by_cases h : columnAspects f g = [] <;> simp [h]

theorem flatMap_keptChanges {β : Type} {n : FieldName} {f g : Field} {F : Change → List β} :
    (keptChanges name n f g).flatMap F =
      (if f.column ≠ g.column then F (.renameColumn name n n f.column g.column) else []) ++
        (alterIfChanged name f g).flatMap F := by
  unfold keptChanges
  by_cases h : f.column = g.column <;> simp [h]

theorem mem_diff_columns {host : Host} {prev next : Schema}
    (hm : (name, m) ∈ prev.models.entries) (hm' : (name, m') ∈ next.models.entries) {c : Change}
    (hk : c.kind = .column) (hmodel : c.model? = some name) :
    c ∈ diff host prev next ↔ c ∈ diffColumns name m m' := by
  unfold diff
  rw [List.mem_append, List.mem_append]
  constructor
  · rintro ((h | h) | h)
    · simp [(mem_diffEnums h).1] at hk
    · rcases mem_diffModels.mp h with ⟨_, _, rfl, _⟩ | ⟨_, _, rfl, _⟩ | ⟨n, m₁, m₂, h₁, h₂, h⟩
      · simp [Change.kind] at hk
      · simp [Change.kind] at hk
      · rcases h with h | h | h
        · have hn := (kind_of_mem_diffColumns h).2.symm.trans hmodel
          cases hn
          rwa [IndexMap.entry_unique hm h₁, IndexMap.entry_unique hm' h₂]
        · simp [(kind_of_mem_diffIndexes h).1] at hk
        · simp [(kind_of_mem_diffUniques h).1] at hk
    · simp [kind_of_mem_diffRelations h] at hk
  · intro h
    exact Or.inl (Or.inr (mem_diffModels.mpr (Or.inr (Or.inr ⟨name, m, m', hm, hm', Or.inl h⟩))))

theorem mem_renames {r : String × String} : r ∈ renames m m' ↔
    r.1 ≠ r.2 ∧ ∃ a b, .renameColumn name a b r.1 r.2 ∈ diffColumns name m m' := by
  obtain ⟨a, b⟩ := r
  unfold renames
  simp only [List.mem_filter, List.mem_map, decide_eq_true_eq, Prod.exists, Prod.mk.injEq,
    mem_diffColumns, mem_hintChanges, mem_keptChanges, mem_alterIfChanged]
  constructor
  · rintro ⟨⟨f, g, hs, rfl, rfl⟩, hne⟩
    refine ⟨hne, ?_⟩
    rcases mem_survivors.mp hs with ⟨h, hh, rfl, rfl⟩ | ⟨n, hk⟩
    · exact ⟨h.oldName, h.newName, Or.inl ⟨h, hh, Or.inl rfl⟩⟩
    · exact ⟨n, n, Or.inr (Or.inr (Or.inr ⟨n, f, g, hk, Or.inl ⟨hne, rfl⟩⟩))⟩
  · rintro ⟨hne, x, y, ⟨h, hh, hc | ⟨_, hc⟩⟩ | ⟨f, _, hc⟩ | ⟨f, _, hc⟩ |
      ⟨n, f, g, hk, ⟨_, hc⟩ | ⟨_, hc⟩⟩⟩
    · simp only [Change.renameColumn.injEq] at hc
      exact ⟨⟨h.prevField, h.field, mem_survivors.mpr (Or.inl ⟨h, hh, rfl, rfl⟩),
        hc.2.2.2.1.symm, hc.2.2.2.2.symm⟩, hne⟩
    · cases hc
    · cases hc
    · cases hc
    · simp only [Change.renameColumn.injEq] at hc
      exact ⟨⟨f, g, mem_survivors.mpr (Or.inr ⟨n, hk⟩), hc.2.2.2.1.symm, hc.2.2.2.2.symm⟩, hne⟩
    · cases hc

include hc hm hm' in
-- A drop is shadowed when a column of the same model is renamed onto its name.
theorem isShadowedDrop_iff {column : String} : p.isShadowedDrop name column = true ↔
    column ∈ (renames m m').map Prod.snd := by
  unfold isShadowedDrop
  rw [List.any_eq_true, hc, List.mem_map]
  constructor
  · rintro ⟨c, hcd, h⟩
    cases c with
    | renameColumn model a b ca cb =>
        simp only [Bool.and_eq_true, decide_eq_true_eq, ne_eq] at h
        obtain ⟨⟨rfl, rfl⟩, hne⟩ := h
        exact ⟨(ca, cb), mem_renames.mpr ⟨hne, a, b, (mem_diff_columns hm hm' rfl rfl).mp hcd⟩, rfl⟩
    | _ => cases h
  · rintro ⟨⟨ca, cb⟩, hr, rfl⟩
    obtain ⟨hne, a, b, hcd⟩ := mem_renames.mp hr
    refine ⟨_, (mem_diff_columns hm hm' rfl rfl).mpr hcd, ?_⟩
    simpa using hne

include hm' in
theorem dropStep_eq (column : String) :
    p.dropStep name column = some [Stmt.new (.dropColumn m'.table column)] := by
  unfold dropStep
  rw [p.model_eq hm']
  rfl

include hc hn hm hm' in
-- A phase that drops columns, each of them or none by a test on its name.
theorem columnOps_dropPhase {q : ModelName → String → Bool} {out : List Stmt}
    (h : collect (fun c => match c with
      | .dropColumn model column => if q model column then p.dropStep model column else some []
      | _ => some []) p.changes = some out) :
    columnOps m'.table out =
      (((droppedColumns m m').map Field.column).filter (fun c => q name c)).map .drop := by
  rw [columnOps_collect hc hm hm' h, flatMap_diffColumns]
  · have hdrop : ∀ column, columnOps m'.table ((if q name column = true then
        p.dropStep name column else some []).getD []) =
        if q name column = true then [NameOp.drop column] else [] := by
      intro column
      split <;> simp [dropStep_eq hm', Sql.columnOp?]
    simp only [hintChanges, flatMap_keptChanges, flatMap_alterIfChanged, List.flatMap_cons,
      Option.getD_some, columnOps_nil, ite_self, List.append_nil, flatMap_nil, List.nil_append,
      hdrop]
    rw [flatMap_ite, List.filter_map, List.map_map]
    simp only [Bool.decide_eq_true]
    rfl
  · intro c stmts hs hother
    cases c with
    | dropColumn model column =>
        dsimp only at hs
        split at hs
        · obtain ⟨target, ht, rfl⟩ := of_lookup hs
          have hne : model ≠ name := by simpa [Change.kind, Change.model?] using hother
          simp [Dialect.dropColumn, Sql.columnOp?, table_ne hn hm' ht hne]
        · cases hs
          rfl
    | _ =>
        cases hs
        rfl

include hc hn hm hm' in
theorem columnOps_shadowed {out : List Stmt} (h : p.shadowedColumnsToDrop = some out) :
    columnOps m'.table out = (shadowed m m').map .drop := by
  have hphase := columnOps_dropPhase (q := p.isShadowedDrop) hc hn hm hm' h
  rw [hphase]
  unfold shadowed
  congr 1
  refine List.filter_congr fun c _ => ?_
  rw [Bool.eq_iff_iff, isShadowedDrop_iff hc hm hm', decide_eq_true_eq]

include hc hn hm hm' in
theorem columnOps_unshadowed {out : List Stmt} (h : p.columnsToDrop = some out) :
    columnOps m'.table out = (unshadowed m m').map .drop := by
  have hphase := columnOps_dropPhase (q := fun model c => !p.isShadowedDrop model c) hc hn hm hm' (by
    rw [← h]
    unfold columnsToDrop
    congr 1
    funext c
    cases c with
    | dropColumn model column => cases hs : p.isShadowedDrop model column <;> simp [hs]
    | _ => rfl)
  rw [hphase]
  unfold unshadowed
  congr 1
  refine List.filter_congr fun c _ => ?_
  rw [Bool.eq_iff_iff, Bool.not_eq_true', ← Bool.not_eq_true, isShadowedDrop_iff hc hm hm',
    decide_eq_true_eq]

include hc hd hn hm hm' in
theorem columnOps_renames {out : List Stmt}
    (h : p.columnsToRename = some out) :
    columnOps m'.table out = (renames m m').map (fun r => .rename r.1 r.2) := by
  have hstep : ∀ a b ca cb g, m'.fields.get? b = some g → g.column = cb →
      columnOps m'.table ((p.renameStep name a b ca cb).getD []) = Postgres.renameOps ca cb := by
    intro a b ca cb g hg hcol
    unfold renameStep
    rw [p.model_eq hm', ← hcol]
    simp [hg, hd, Dialect.capabilities, Dialect.alterColumn, Postgres.columnOps_alterColumn,
      Postgres.touches, Dialect.defaultSql]
  rw [columnOps_collect hc hm hm' h, flatMap_diffColumns]
  · simp only [hintChanges, flatMap_keptChanges, flatMap_alterIfChanged, List.flatMap_cons,
      Option.getD_some, columnOps_nil, ite_self, List.append_nil, flatMap_nil]
    have hhint : (hints m m').flatMap (fun h => columnOps m'.table
        ((p.renameStep name h.oldName h.newName h.prevField.column h.field.column).getD [])) =
        (hints m m').flatMap (fun h => Postgres.renameOps h.prevField.column h.field.column) :=
      List.flatMap_congr fun h hh => hstep _ _ _ _ h.field
        (IndexMap.get?_eq_some.mpr (mem_hints.mp hh).1) rfl
    have hkept : (keptColumns m m').flatMap (fun e => if e.2.1.column ≠ e.2.2.column then
        columnOps m'.table ((p.renameStep name e.1 e.1 e.2.1.column e.2.2.column).getD []) else []) =
        (keptColumns m m').flatMap (fun e => Postgres.renameOps e.2.1.column e.2.2.column) := by
      refine List.flatMap_congr fun e he => ?_
      rw [hstep _ _ _ _ e.2.2 (IndexMap.get?_eq_some.mpr (mem_keptColumns.mp he).2.1) rfl]
      unfold Postgres.renameOps
      split <;> simp_all
    rw [hhint, hkept]
    unfold renames survivors Postgres.renameOps
    rw [flatMap_ite, flatMap_ite, List.map_append, List.filter_append, List.map_append,
      List.map_map, List.map_map, List.filter_map, List.filter_map, List.map_map, List.map_map]
    rfl
  · intro c stmts hs hother
    cases c with
    | renameColumn model a b ca cb =>
        obtain ⟨target, ht, rfl⟩ := of_lookup hs
        have hne : model ≠ name := by simpa [Change.kind, Change.model?] using hother
        simp [hd, Dialect.capabilities, Dialect.alterColumn, Postgres.columnOps_alterColumn,
          table_ne hn hm' ht hne]
    | _ =>
        cases hs
        rfl

include hc hd hn hm hm' in
theorem columnOps_alters {out : List Stmt} (h : p.columnsToAlter = some out) :
    columnOps m'.table out =
      (altered m m').flatMap (fun e => Postgres.renameOps e.1.column e.2.column ++
        (Postgres.touches e.1 e.2).map .touch) := by
  have hstep : ∀ f g, columnOps m'.table ((p.alterStep name f g).getD []) =
      Postgres.renameOps f.column g.column ++ (Postgres.touches f g).map .touch := by
    intro f g
    unfold alterStep
    rw [p.model_eq hm']
    simp [hd, Dialect.fullAlterColumnWithSource, Dialect.capabilities, Dialect.alterColumn,
      Postgres.columnOps_alterColumn]
  rw [columnOps_collect hc hm hm' h, flatMap_diffColumns]
  · simp only [hintChanges, flatMap_keptChanges, flatMap_alterIfChanged, List.flatMap_cons,
      Option.getD_some, columnOps_nil, ite_self, List.nil_append, List.append_nil, flatMap_nil, hstep]
    have hfilter : ∀ l : List (Field × Field), (l.filter (fun e => columnAspects e.1 e.2 ≠ [])).flatMap
        (fun e => Postgres.renameOps e.1.column e.2.column ++
          (Postgres.touches e.1 e.2).map .touch) = l.flatMap (fun e =>
          if columnAspects e.1 e.2 ≠ [] then Postgres.renameOps e.1.column e.2.column ++
            (Postgres.touches e.1 e.2).map .touch else []) := by
      intro l
      induction l with
      | nil => rfl
      | cons e rest ih =>
          rw [List.flatMap_cons, ← ih]
          by_cases he : columnAspects e.1 e.2 = [] <;> simp [he]
    unfold altered
    rw [hfilter, List.flatMap_append, List.flatMap_map, List.flatMap_map]
  · intro c stmts hs hother
    cases c with
    | alterColumn model f g aspects =>
        obtain ⟨target, ht, rfl⟩ := of_lookup hs
        have hne : model ≠ name := by simpa [Change.kind, Change.model?] using hother
        simp [hd, Dialect.fullAlterColumnWithSource, Dialect.capabilities, Dialect.alterColumn,
          Postgres.columnOps_alterColumn, table_ne hn hm' ht hne]
    | _ =>
        cases hs
        rfl

-- The source of a rebuild plays no part here.
include hd in
theorem columnOps_addAll {table : String} {current : Current} {cs : List Change} {out : List Stmt}
    (h : p.addAll current cs = some out) : columnOps table out = cs.flatMap (fun c => match c with
      | .addColumn model f => match p.model model with
          | some target => if target.table = table then Postgres.addOps f else []
          | none => []
      | _ => []) := by
  induction cs generalizing current out with
  | nil =>
      cases h
      rfl
  | cons c rest ih =>
      rw [List.flatMap_cons]
      cases c with
      | addColumn model f =>
          obtain ⟨⟨stmts, current'⟩, hs, h⟩ := Option.bind_eq_some_iff.mp h
          obtain ⟨others, ho, h⟩ := Option.bind_eq_some_iff.mp h
          cases h
          obtain ⟨target, ht, hs⟩ := Option.bind_eq_some_iff.mp hs
          cases hs
          rw [columnOps_append, ih ho, Postgres.columnOps_addColumnWithBackfill p hd]
          simp only [ht]
      | _ => exact ih h

include hc hd hn hm hm' in
theorem columnOps_adds {out : List Stmt} (h : p.columnsToAdd = some out) :
    columnOps m'.table out = (addedColumns m m').flatMap Postgres.addOps := by
  rw [columnOps_addAll hd h, hc, flatMap_diff_columns hm hm', flatMap_diffColumns]
  · simp only [hintChanges, flatMap_keptChanges, flatMap_alterIfChanged, List.flatMap_cons, ite_self,
      List.nil_append, List.append_nil, flatMap_nil, p.model_eq hm', ite_true]
  · intro c hother
    cases c with
    | addColumn model f =>
        have hne : model ≠ name := by simpa [Change.kind, Change.model?] using hother
        cases ht : p.model model with
        | none => simp [ht]
        | some target => simp [ht, table_ne hn hm' ht hne]
    | _ => rfl

include hc hd hn hm hm' in
-- What a plan does to the columns of a table that is there before and after.
theorem columnOps_plan {out : List Stmt} (h : p.plan = some out) :
    columnOps m'.table out = namePlan m m' := by
  obtain ⟨ph, hph, hout⟩ := plan_eq_some.mp h
  have hs := hph.shapes
  have hdefer : ∀ l : List Stmt, Shaped [.note] l →
      columnOps m'.table (if ph.defer then l else []) = [] := by
    intro l hl
    split
    · exact columnOps_of_shaped hl (by decide)
    · rfl
  rw [hout]
  unfold assemble namePlan
  simp only [columnOps_append, hdefer _ (shaped_deferral p).1, hdefer _ (shaped_deferral p).2,
    columnOps_of_shaped (shaped_extensions p).1 (by decide),
    columnOps_of_shaped (shaped_extensions p).2 (by decide),
    columnOps_of_shaped (shaped_enums p).1 (by decide),
    columnOps_of_shaped (shaped_enums p).2.1 (by decide),
    columnOps_of_shaped (shaped_enums p).2.2 (by decide),
    columnOps_of_shaped hs.variants (by decide), columnOps_of_shaped hs.creates (by decide),
    columnOps_of_shaped hs.fkDrops (by decide), columnOps_of_shaped hs.ixDrops (by decide),
    columnOps_of_shaped hs.uqDrops (by decide), columnOps_of_shaped hs.uqAdds (by decide),
    columnOps_of_shaped hs.ixAdds (by decide), columnOps_of_shaped hs.fkAdds (by decide),
    columnOps_of_shaped hs.tables (by decide), columnOps_adds hc hd hn hm hm' hph.adds,
    columnOps_shadowed hc hn hm hm' hph.shadowed, columnOps_renames hc hd hn hm hm' hph.renames,
    columnOps_alters hc hd hn hm hm' hph.alters, columnOps_unshadowed hc hn hm hm' hph.drops,
    List.nil_append, List.append_nil]

end Phases

end Planner

end Ruprizzle
