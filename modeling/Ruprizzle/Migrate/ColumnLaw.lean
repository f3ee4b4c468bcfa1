import Ruprizzle.Dialect.Incremental
import Ruprizzle.Migrate.ColumnNames

namespace Ruprizzle

open Diff Planner

-- The columns of a model, each with the field it belongs to.
def Model.columnTable (m : Model) : NameTable (Option FieldName) := fun n =>
  (m.scalarFields.find? (fun f => f.column = n)).map (fun f => some f.name)

theorem Model.ColumnNamed.columnTable_eq {m : Model} (h : m.ColumnNamed) {f : Field}
    (hf : f ∈ m.scalarFields) : m.columnTable f.column = some (some f.name) := by
  unfold Model.columnTable
  cases hfind : m.scalarFields.find? (fun g => g.column = f.column) with
  | none =>
      have := List.find?_eq_none.mp hfind f hf
      simp at this
  | some g =>
      have hcol : g.column = f.column := by simpa using List.find?_some hfind
      rw [h.eq_of_column (List.mem_of_find?_eq_some hfind) hf hcol]
      rfl

theorem Model.mem_of_columnTable {m : Model} {n : String} {k : Option FieldName}
    (h : m.columnTable n = some k) : ∃ f ∈ m.scalarFields, f.column = n ∧ k = some f.name := by
  unfold Model.columnTable at h
  obtain ⟨f, hf, rfl⟩ := Option.map_eq_some_iff.mp h
  exact ⟨f, List.mem_of_find?_eq_some hf, by simpa using List.find?_some hf, rfl⟩

theorem Model.ColumnNamed.has_columnTable {m : Model} (h : m.ColumnNamed) {n : String} :
    m.columnTable.has n ↔ ∃ f ∈ m.scalarFields, f.column = n := by
  rw [NameTable.has_iff]
  constructor
  · rintro ⟨k, hk⟩
    obtain ⟨f, hf, hcol, _⟩ := Model.mem_of_columnTable hk
    exact ⟨f, hf, hcol⟩
  · rintro ⟨f, hf, rfl⟩
    exact ⟨_, h.columnTable_eq hf⟩

-- No operation meets a name that is taken or missing, the names at the end are
-- those of the next model, and each surviving field has its contents.
def ColumnLaw (prev next : Model) (ops : List ColumnOp) : Prop :=
  ∃ t, prev.columnTable.run ops = some t ∧
    (∀ n, t.has n ↔ ∃ g ∈ next.scalarFields, g.column = n) ∧
      ∀ f g, (f, g) ∈ survivors prev next → t g.column = some (some f.name)

-- No added column has the name of one that is there.
def Diff.Fresh (prev next : Model) : Prop :=
  ∀ f ∈ addedColumns prev next, Postgres.Typed f → ∀ f' ∈ prev.scalarFields, f'.column ≠ f.column

structure NamesConsistent (prev next : Model) : Prop where
  single : ((survivors prev next).map Prod.fst).Nodup
  fresh : Fresh prev next
  free : ∀ r ∈ renames prev next, ∀ f ∈ strandedColumns prev next, f.column ≠ r.2
  order : (renames prev next).Pairwise (fun e l => e.2 ≠ l.1)
  once : ∀ n f g, (n, f, g) ∈ keptColumns prev next → f.column ≠ g.column → columnAspects f g = []
  rest : ∀ n, (∃ f ∈ strandedColumns prev next, f.column = n) ↔
    (∃ g ∈ unprovidedColumns prev next, g.column = n) ∨
      ∃ g ∈ addedColumns prev next, ¬ Postgres.Typed g ∧ g.column = n

namespace NameTable

variable {t u : NameTable (Option FieldName)}

def putAll (t : NameTable (Option FieldName)) (names : List String) : NameTable (Option FieldName) :=
  fun n => if n ∈ names then some none else t n

theorem run_addOps {f : Field} : t.run (Postgres.addOps f) = some u ↔
    ((Postgres.Typed f → ¬ t.has f.column) ∧
      (¬ Postgres.Typed f → needsBackfill f = true → t.has f.column)) ∧
      u = if Postgres.Typed f then t.put f.column none else t := by
  unfold Postgres.addOps
  have hput : (t.put f.column none).has f.column := by simp [has, put]
  by_cases ht : Postgres.Typed f <;> by_cases hb : needsBackfill f = true <;>
    by_cases hh : t.has f.column <;> simp [ht, hb, hh, run_cons, apply, hput, eq_comm]

-- Additions of different columns succeed one by one.
theorem run_adds {l : List Field} (hnodup : (l.map Field.column).Nodup) :
    t.run (l.flatMap Postgres.addOps) = some u ↔
      (∀ f ∈ l, (Postgres.Typed f → ¬ t.has f.column) ∧
        (¬ Postgres.Typed f → needsBackfill f = true → t.has f.column)) ∧
        u = t.putAll ((l.filter (fun f => Postgres.Typed f)).map Field.column) := by
  induction l generalizing t with
  | nil =>
      have hnil : t.putAll [] = t := by
        funext n
        simp [putAll]
      simp only [List.flatMap_nil, run_nil, List.filter_nil, List.map_nil, hnil, Option.some.injEq,
        List.not_mem_nil, false_implies, implies_true, true_and]
      exact eq_comm
  | cons f rest ih =>
      rw [List.map_cons] at hnodup
      obtain ⟨hf, hrest⟩ := List.nodup_cons.mp hnodup
      have hne : ∀ g ∈ rest, g.column ≠ f.column := fun g hg heq =>
        hf (List.mem_map.mpr ⟨g, hg, heq⟩)
      rw [List.flatMap_cons, run_append_eq_some, List.forall_mem_cons]
      simp only [run_addOps, ih hrest]
      have hhas : ∀ g ∈ rest, (if Postgres.Typed f then t.put f.column none else t).has g.column ↔
          t.has g.column := by
        intro g hg
        split
        · simp [has, put, hne g hg]
        · rfl
      have hall : (∀ g ∈ rest, (Postgres.Typed g → ¬ (if Postgres.Typed f then
          t.put f.column none else t).has g.column) ∧ (¬ Postgres.Typed g → needsBackfill g = true →
            (if Postgres.Typed f then t.put f.column none else t).has g.column)) ↔
          ∀ g ∈ rest, (Postgres.Typed g → ¬ t.has g.column) ∧
            (¬ Postgres.Typed g → needsBackfill g = true → t.has g.column) :=
        forall₂_congr fun g hg => by rw [hhas g hg]
      have hput : (if Postgres.Typed f then t.put f.column none else t).putAll
          ((rest.filter (fun f => Postgres.Typed f)).map Field.column) =
          t.putAll (((f :: rest).filter (fun f => Postgres.Typed f)).map Field.column) := by
        funext n
        by_cases ht : Postgres.Typed f
        · rw [List.filter_cons_of_pos (by simpa using ht), if_pos ht]
          unfold putAll put
          rw [List.map_cons]
          by_cases hn : n = f.column
          · rw [if_pos hn, if_pos (List.mem_cons.mpr (Or.inl hn)), ite_self]
          · have hmem : n ∈ f.column :: (rest.filter (fun f => Postgres.Typed f)).map Field.column ↔
                n ∈ (rest.filter (fun f => Postgres.Typed f)).map Field.column := by
              rw [List.mem_cons]
              exact or_iff_right hn
            simp only [hmem, hn, ite_false]
        · rw [List.filter_cons_of_neg (by simpa using ht), if_neg ht]
      constructor
      · rintro ⟨s, ⟨hone, rfl⟩, hrest', rfl⟩
        exact ⟨⟨hone, hall.mp hrest'⟩, hput⟩
      · rintro ⟨⟨hone, hrest'⟩, rfl⟩
        exact ⟨_, ⟨hone, rfl⟩, hall.mpr hrest', hput.symm⟩

-- A second rename of a column that has its new name already fails.
theorem run_alters {l : List (Field × Field)} (hall : ∀ e ∈ l, t.has e.2.column) :
    t.run (l.flatMap (fun e => Postgres.renameOps e.1.column e.2.column ++
      (Postgres.touches e.1 e.2).map .touch)) = some u ↔
      (∀ e ∈ l, e.1.column = e.2.column) ∧ u = t := by
  induction l with
  | nil => simp [eq_comm]
  | cons e rest ih =>
      rw [List.forall_mem_cons] at hall ⊢
      rw [List.flatMap_cons, run_append_eq_some]
      by_cases hcol : e.1.column = e.2.column
      · have htouch : ∀ s, t.run (Postgres.renameOps e.1.column e.2.column ++
            (Postgres.touches e.1 e.2).map .touch) = some s ↔ s = t := by
          intro s
          simp only [Postgres.renameOps, hcol, ne_eq, not_true_eq_false, ite_false, List.nil_append,
            run_touches]
          refine and_iff_right fun n hn => ?_
          rw [Postgres.mem_touches hn]
          exact hall.1
        constructor
        · rintro ⟨s, hs, hrest⟩
          obtain rfl := (htouch s).mp hs
          obtain ⟨hsame, rfl⟩ := (ih hall.2).mp hrest
          exact ⟨⟨hcol, hsame⟩, rfl⟩
        · rintro ⟨⟨_, hsame⟩, rfl⟩
          exact ⟨u, (htouch u).mpr rfl, (ih hall.2).mpr ⟨hsame, rfl⟩⟩
      · have hfail : ∀ s, ¬ t.run (Postgres.renameOps e.1.column e.2.column ++
            (Postgres.touches e.1 e.2).map .touch) = some s := by
          intro s hs
          simp [Postgres.renameOps, hcol, run_cons, apply, hall.1] at hs
        simp [hfail, hcol]

end NameTable

namespace Diff

variable {prev next : Model}

theorem mem_stranded {f : Field} : f ∈ strandedColumns prev next ↔ f ∈ prev.scalarFields ∧
    (∀ g, (f, g) ∉ survivors prev next) ∧ f ∉ droppedColumns prev next := by
  unfold strandedColumns
  simp [List.mem_filter]

theorem mem_unprovided {g : Field} : g ∈ unprovidedColumns prev next ↔ g ∈ next.scalarFields ∧
    (∀ f, (f, g) ∉ survivors prev next) ∧ g ∉ addedColumns prev next := by
  unfold unprovidedColumns
  simp [List.mem_filter]

-- Every column of the old model survives, is dropped or stands.
theorem prev_cases {f : Field} (hf : f ∈ prev.scalarFields) : (∃ g, (f, g) ∈ survivors prev next) ∨
    f ∈ droppedColumns prev next ∨ f ∈ strandedColumns prev next := by
  by_cases hs : ∃ g, (f, g) ∈ survivors prev next
  · exact Or.inl hs
  · by_cases hd : f ∈ droppedColumns prev next
    · exact Or.inr (Or.inl hd)
    · exact Or.inr (Or.inr (mem_stranded.mpr ⟨hf, fun g hg => hs ⟨g, hg⟩, hd⟩))

-- Every column of the new one has survived, is added or comes from nowhere.
theorem next_cases {g : Field} (hg : g ∈ next.scalarFields) : (∃ f, (f, g) ∈ survivors prev next) ∨
    g ∈ addedColumns prev next ∨ g ∈ unprovidedColumns prev next := by
  by_cases hs : ∃ f, (f, g) ∈ survivors prev next
  · exact Or.inl hs
  · by_cases ha : g ∈ addedColumns prev next
    · exact Or.inr (Or.inl ha)
    · exact Or.inr (Or.inr (mem_unprovided.mpr ⟨hg, fun f hf => hs ⟨f, hf⟩, ha⟩))

theorem mem_renames_iff {r : String × String} : r ∈ renames prev next ↔
    r.1 ≠ r.2 ∧ ∃ f g, (f, g) ∈ survivors prev next ∧ f.column = r.1 ∧ g.column = r.2 := by
  obtain ⟨a, b⟩ := r
  unfold renames
  rw [List.mem_filter, List.mem_map]
  simp only [decide_eq_true_eq, Prod.mk.injEq, Prod.exists]
  constructor
  · rintro ⟨⟨f, g, hs, ha, hb⟩, hne⟩
    exact ⟨hne, f, g, hs, ha, hb⟩
  · rintro ⟨hne, f, g, hs, ha, hb⟩
    exact ⟨⟨f, g, hs, ha, hb⟩, hne⟩

section Facts

variable (hp : prev.ColumnNamed) (hn : next.ColumnNamed)
  (hsingle : ((survivors prev next).map Prod.fst).Nodup)

include hp hn hsingle in
theorem survivors_eq_of_from {f f' g g' : Field} (h : (f, g) ∈ survivors prev next)
    (h' : (f', g') ∈ survivors prev next) (hcol : f.column = f'.column) : (f, g) = (f', g') :=
  List.inj_on_of_nodup_map hsingle h h'
    (hp.eq_of_column (survivors_mem hp hn h).1 (survivors_mem hp hn h').1 hcol)

include hp hn in
theorem survivors_eq_of_to {f f' g g' : Field} (h : (f, g) ∈ survivors prev next)
    (h' : (f', g') ∈ survivors prev next) (hcol : g.column = g'.column) : (f, g) = (f', g') :=
  List.inj_on_of_nodup_map (nodup_survivors_columns hp hn) h h' hcol

include hp hn hsingle in
theorem nodup_renames : ((renames prev next).map Prod.fst).Nodup ∧
    ((renames prev next).map Prod.snd).Nodup := by
  have hfrom : ((survivors prev next).map (fun e => e.1.column)).Nodup := by
    refine List.Nodup.map_on ?_ (List.Nodup.of_map _ hsingle)
    rintro ⟨f, g⟩ h ⟨f', g'⟩ h' hcol
    exact survivors_eq_of_from hp hn hsingle h h' hcol
  unfold renames
  refine ⟨List.Nodup.sublist (List.Sublist.map _ List.filter_sublist) ?_,
    List.Nodup.sublist (List.Sublist.map _ List.filter_sublist) ?_⟩
  · rw [List.map_map]
    exact hfrom
  · rw [List.map_map]
    exact nodup_survivors_columns hp hn

include hp hn in
-- A name a survivor keeps or takes is the name of no other kind of column.
theorem column_ne_of_dropped {f f' g : Field} (h : (f, g) ∈ survivors prev next)
    (hf' : f' ∈ droppedColumns prev next) : f'.column ≠ f.column := by
  intro hcol
  rw [hp.eq_of_column (dropped_mem hp hf') (survivors_mem hp hn h).1 hcol] at hf'
  exact not_survivor_of_dropped hp hf' h

include hp hn in
theorem column_ne_of_stranded {f f' g : Field} (h : (f, g) ∈ survivors prev next)
    (hf' : f' ∈ strandedColumns prev next) : f'.column ≠ f.column := by
  intro hcol
  obtain ⟨hmem, hnot, _⟩ := mem_stranded.mp hf'
  rw [hp.eq_of_column hmem (survivors_mem hp hn h).1 hcol] at hnot
  exact hnot g h

include hp hn in
theorem column_ne_of_added {f g g' : Field} (h : (f, g) ∈ survivors prev next)
    (hg' : g' ∈ addedColumns prev next) : g'.column ≠ g.column := by
  intro hcol
  rw [hn.eq_of_column (added_mem hn hg') (survivors_mem hp hn h).2 hcol] at hg'
  exact not_survivor_of_added hn hg' h

-- The table after each phase, none of them failing.
def afterAdds (prev next : Model) : NameTable (Option FieldName) :=
  prev.columnTable.putAll
    (((addedColumns prev next).filter (fun f => Postgres.Typed f)).map Field.column)

def afterShadowed (prev next : Model) : NameTable (Option FieldName) :=
  (afterAdds prev next).without (shadowed prev next)

def afterRenames (prev next : Model) : NameTable (Option FieldName) :=
  (afterShadowed prev next).renamed (renames prev next)

def afterDrops (prev next : Model) : NameTable (Option FieldName) :=
  (afterRenames prev next).without (unshadowed prev next)

theorem mem_shadowed {n : String} : n ∈ shadowed prev next ↔
    (∃ f ∈ droppedColumns prev next, f.column = n) ∧ n ∈ (renames prev next).map Prod.snd := by
  unfold shadowed
  rw [List.mem_filter, List.mem_map, decide_eq_true_eq]

theorem mem_unshadowed {n : String} : n ∈ unshadowed prev next ↔
    (∃ f ∈ droppedColumns prev next, f.column = n) ∧ n ∉ (renames prev next).map Prod.snd := by
  unfold unshadowed
  rw [List.mem_filter, List.mem_map, decide_eq_true_eq]

include hp in
theorem afterAdds_eq (hfresh : Fresh prev next) {f : Field} (hf : f ∈ prev.scalarFields) :
    afterAdds prev next f.column = some (some f.name) := by
  unfold afterAdds NameTable.putAll
  rw [if_neg, hp.columnTable_eq hf]
  intro hmem
  obtain ⟨g, hg, hcol⟩ := List.mem_map.mp hmem
  obtain ⟨hga, ht⟩ := List.mem_filter.mp hg
  exact hfresh g hga (by simpa using ht) f hf hcol.symm

include hp in
theorem afterShadowed_eq (hfresh : Fresh prev next) {f : Field} (hf : f ∈ prev.scalarFields)
    (hnot : f ∉ droppedColumns prev next) :
    afterShadowed prev next f.column = some (some f.name) := by
  unfold afterShadowed NameTable.without
  rw [if_neg, afterAdds_eq hp hfresh hf]
  intro hmem
  obtain ⟨⟨f', hf', hcol⟩, _⟩ := mem_shadowed.mp hmem
  rw [hp.eq_of_column (dropped_mem hp hf') hf hcol] at hf'
  exact hnot hf'

include hp hn in
theorem afterShadowed_survivor (hfresh : Fresh prev next) {f g : Field}
    (h : (f, g) ∈ survivors prev next) :
    afterShadowed prev next f.column = some (some f.name) :=
  afterShadowed_eq hp hfresh (survivors_mem hp hn h).1 fun hd => not_survivor_of_dropped hp hd h

include hp hn hsingle in
theorem afterRenames_survivor (hfresh : Fresh prev next) {f g : Field}
    (h : (f, g) ∈ survivors prev next) : afterRenames prev next g.column = some (some f.name) := by
  unfold afterRenames
  by_cases hcol : f.column = g.column
  · rw [NameTable.renamed_of_notMem, if_neg]
    · rw [← hcol]
      exact afterShadowed_survivor hp hn hfresh h
    · intro hmem
      obtain ⟨r, hr, hr1⟩ := List.mem_map.mp hmem
      obtain ⟨hne, f', g', h', hf', hg'⟩ := mem_renames_iff.mp hr
      cases survivors_eq_of_from hp hn hsingle h h' (hcol.trans (hr1.symm.trans hf'.symm))
      exact hne (hf'.symm.trans (hcol.trans hg'))
    · intro hmem
      obtain ⟨r, hr, hr2⟩ := List.mem_map.mp hmem
      obtain ⟨hne, f', g', h', hf', hg'⟩ := mem_renames_iff.mp hr
      cases survivors_eq_of_to hp hn h h' (hr2.symm.trans hg'.symm)
      exact hne (hf'.symm.trans (hcol.trans hg'))
  · have hr : (f.column, g.column) ∈ renames prev next :=
      mem_renames_iff.mpr ⟨hcol, f, g, h, rfl, rfl⟩
    rw [NameTable.renamed_of_mem (nodup_renames hp hn hsingle).2 hr]
    exact afterShadowed_survivor hp hn hfresh h

-- A name no survivor is renamed from or to is untouched by the renames.
theorem afterRenames_other {n : String}
    (h : ∀ f g, (f, g) ∈ survivors prev next → f.column ≠ n ∧ g.column ≠ n) :
    afterRenames prev next n = afterShadowed prev next n := by
  unfold afterRenames
  rw [NameTable.renamed_of_notMem, if_neg]
  · intro hmem
    obtain ⟨r, hr, hr1⟩ := List.mem_map.mp hmem
    obtain ⟨_, f, g, hs, hf, _⟩ := mem_renames_iff.mp hr
    exact (h f g hs).1 (hf.trans hr1)
  · intro hmem
    obtain ⟨r, hr, hr2⟩ := List.mem_map.mp hmem
    obtain ⟨_, f, g, hs, _, hg⟩ := mem_renames_iff.mp hr
    exact (h f g hs).2 (hg.trans hr2)

include hp hn hsingle in
theorem afterDrops_survivor (hfresh : Fresh prev next) {f g : Field}
    (h : (f, g) ∈ survivors prev next) : afterDrops prev next g.column = some (some f.name) := by
  unfold afterDrops NameTable.without
  rw [if_neg, afterRenames_survivor hp hn hsingle hfresh h]
  intro hmem
  obtain ⟨⟨f', hf', hcol⟩, hnot⟩ := mem_unshadowed.mp hmem
  by_cases hsame : f.column = g.column
  · exact column_ne_of_dropped hp hn h hf' (hcol.trans hsame.symm)
  · refine hnot (List.mem_map.mpr ⟨(f.column, g.column), ?_, rfl⟩)
    exact mem_renames_iff.mpr ⟨hsame, f, g, h, rfl, rfl⟩

include hp hn hsingle in
-- The names at the end: of the survivors, of what could be added, of what stands.
theorem has_afterDrops (hfresh : Fresh prev next) {n : String} : (afterDrops prev next).has n ↔
    (∃ f g, (f, g) ∈ survivors prev next ∧ g.column = n) ∨
      (∃ f ∈ addedColumns prev next, Postgres.Typed f ∧ f.column = n) ∨
        ∃ f ∈ strandedColumns prev next, f.column = n := by
  constructor
  · intro hhas
    by_cases hs : ∃ f g, (f, g) ∈ survivors prev next ∧ g.column = n
    · exact Or.inl hs
    · right
      have hto : n ∉ (renames prev next).map Prod.snd := by
        intro hmem
        obtain ⟨r, hr, rfl⟩ := List.mem_map.mp hmem
        obtain ⟨_, f, g, h, _, hg⟩ := mem_renames_iff.mp hr
        exact hs ⟨f, g, h, hg⟩
      unfold NameTable.has afterDrops NameTable.without at hhas
      split at hhas
      · cases hhas
      · rename_i hkept
        unfold afterRenames at hhas
        rw [NameTable.renamed_of_notMem hto] at hhas
        split at hhas
        · cases hhas
        · rename_i hfrom
          unfold afterShadowed NameTable.without at hhas
          split at hhas
          · cases hhas
          · unfold afterAdds NameTable.putAll at hhas
            split at hhas
            · rename_i hadded
              obtain ⟨f, hf, rfl⟩ := List.mem_map.mp hadded
              obtain ⟨hfa, ht⟩ := List.mem_filter.mp hf
              exact Or.inl ⟨f, hfa, by simpa using ht, rfl⟩
            · obtain ⟨f, hf, rfl⟩ := hp.has_columnTable.mp hhas
              rcases prev_cases hf with ⟨g, h⟩ | hd | hst
              · exfalso
                by_cases hcol : f.column = g.column
                · exact hs ⟨f, g, h, hcol.symm⟩
                · exact hfrom (List.mem_map.mpr ⟨(f.column, g.column),
                    mem_renames_iff.mpr ⟨hcol, f, g, h, rfl, rfl⟩, rfl⟩)
              · exact absurd (mem_unshadowed.mpr ⟨⟨f, hd, rfl⟩, hto⟩) hkept
              · exact Or.inr ⟨f, hst, rfl⟩
  · rintro (⟨f, g, h, rfl⟩ | ⟨f, hf, ht, rfl⟩ | ⟨f, hf, rfl⟩)
    · rw [NameTable.has_iff]
      exact ⟨_, afterDrops_survivor hp hn hsingle hfresh h⟩
    · have hprev := hfresh f hf ht
      have hother := afterRenames_other fun f' g' h =>
        ⟨hprev f' (survivors_mem hp hn h).1, (column_ne_of_added hp hn h hf).symm⟩
      unfold NameTable.has afterDrops NameTable.without
      rw [if_neg, hother]
      · unfold afterShadowed NameTable.without
        rw [if_neg]
        · unfold afterAdds NameTable.putAll
          rw [if_pos]
          · rfl
          · exact List.mem_map.mpr ⟨f, List.mem_filter.mpr ⟨hf, by simpa using ht⟩, rfl⟩
        · intro hmem
          obtain ⟨⟨f', hf', hcol⟩, _⟩ := mem_shadowed.mp hmem
          exact hprev f' (dropped_mem hp hf') hcol
      · intro hmem
        obtain ⟨⟨f', hf', hcol⟩, _⟩ := mem_unshadowed.mp hmem
        exact hprev f' (dropped_mem hp hf') hcol
    · by_cases hs : ∃ f' g', (f', g') ∈ survivors prev next ∧ g'.column = f.column
      · obtain ⟨f', g', h, hcol⟩ := hs
        rw [NameTable.has_iff, ← hcol]
        exact ⟨_, afterDrops_survivor hp hn hsingle hfresh h⟩
      · obtain ⟨hmem, _, hnot⟩ := mem_stranded.mp hf
        have hother := afterRenames_other fun f' g' h =>
          ⟨(column_ne_of_stranded hp hn h hf).symm, fun hcol => hs ⟨f', g', h, hcol⟩⟩
        unfold NameTable.has afterDrops NameTable.without
        rw [if_neg, hother, afterShadowed_eq hp hfresh hmem hnot]
        · rfl
        · intro hd
          obtain ⟨⟨f', hf', hcol⟩, _⟩ := mem_unshadowed.mp hd
          rw [hp.eq_of_column (dropped_mem hp hf') hmem hcol] at hf'
          exact hnot hf'

include hp hn in
theorem free_iff (hfresh : Fresh prev next) : (∀ r ∈ renames prev next,
    r.2 ∉ (renames prev next).map Prod.fst → ¬ (afterShadowed prev next).has r.2) ↔
      ∀ r ∈ renames prev next, ∀ f ∈ strandedColumns prev next, f.column ≠ r.2 := by
  constructor
  · intro h r hr f hf hcol
    obtain ⟨hmem, _, hnot⟩ := mem_stranded.mp hf
    refine h r hr ?_ ?_
    · intro hfrom
      obtain ⟨q, hq, hqr⟩ := List.mem_map.mp hfrom
      obtain ⟨_, f', g', hs, hf', _⟩ := mem_renames_iff.mp hq
      exact column_ne_of_stranded hp hn hs hf (hcol.trans (hqr.symm.trans hf'.symm))
    · rw [NameTable.has_iff, ← hcol]
      exact ⟨_, afterShadowed_eq hp hfresh hmem hnot⟩
  · intro h r hr hfrom hhas
    have hto : r.2 ∈ (renames prev next).map Prod.snd := List.mem_map_of_mem hr
    obtain ⟨hne, f', g', hs', hf', hg'⟩ := mem_renames_iff.mp hr
    unfold NameTable.has afterShadowed NameTable.without at hhas
    split at hhas
    · cases hhas
    · rename_i hkept
      unfold afterAdds NameTable.putAll at hhas
      split at hhas
      · rename_i hadded
        obtain ⟨f, hf, hcol⟩ := List.mem_map.mp hadded
        exact column_ne_of_added hp hn hs' (List.mem_filter.mp hf).1 (hcol.trans hg'.symm)
      · obtain ⟨f, hf, hcol⟩ := hp.has_columnTable.mp hhas
        rcases prev_cases hf with ⟨g, hs⟩ | hd | hst
        · by_cases hsame : f.column = g.column
          · cases survivors_eq_of_to hp hn hs hs' (hsame.symm.trans (hcol.trans hg'.symm))
            exact hne (hf'.symm.trans (hsame.trans hg'))
          · exact hfrom (List.mem_map.mpr ⟨(f.column, g.column),
              mem_renames_iff.mpr ⟨hsame, f, g, hs, rfl, rfl⟩, hcol⟩)
        · exact hkept (mem_shadowed.mpr ⟨⟨f, hd, hcol⟩, hto⟩)
        · exact h r hr f hst hcol

-- Only a field under its own name is altered from one column to another.
theorem once_iff : (∀ e ∈ altered prev next, e.1.column = e.2.column) ↔
    ∀ n f g, (n, f, g) ∈ keptColumns prev next → f.column ≠ g.column → columnAspects f g = [] := by
  unfold altered
  constructor
  · intro h n f g hk hne
    by_contra hasp
    refine hne (h (f, g) (List.mem_filter.mpr ⟨List.mem_append.mpr (Or.inr ?_), by simpa using hasp⟩))
    exact List.mem_map.mpr ⟨(n, f, g), hk, rfl⟩
  · intro h e he
    obtain ⟨hmem, hasp⟩ := List.mem_filter.mp he
    rcases List.mem_append.mp hmem with hh | hk
    · obtain ⟨hint, _, rfl⟩ := List.mem_map.mp hh
      rfl
    · obtain ⟨⟨n, f, g⟩, hkept, rfl⟩ := List.mem_map.mp hk
      by_contra hne
      simp [h n f g hkept hne] at hasp

theorem altered_to {e : Field × Field} (he : e ∈ altered prev next) :
    ∃ f, (f, e.2) ∈ survivors prev next := by
  unfold altered at he
  rcases List.mem_append.mp (List.mem_filter.mp he).1 with hh | hk
  · obtain ⟨hint, hmem, rfl⟩ := List.mem_map.mp hh
    exact ⟨hint.prevField, mem_survivors.mpr (Or.inl ⟨hint, hmem, rfl, rfl⟩)⟩
  · obtain ⟨⟨n, f, g⟩, hmem, rfl⟩ := List.mem_map.mp hk
    exact ⟨f, mem_survivors.mpr (Or.inr ⟨n, hmem⟩)⟩

include hp hn in
theorem has_unshadowed (hfresh : Fresh prev next) {n : String} (h : n ∈ unshadowed prev next) :
    (afterRenames prev next).has n := by
  obtain ⟨⟨f, hf, rfl⟩, hnot⟩ := mem_unshadowed.mp h
  have hother : afterRenames prev next f.column = afterShadowed prev next f.column := by
    refine afterRenames_other fun f' g hs => ⟨(column_ne_of_dropped hp hn hs hf).symm, fun hg => ?_⟩
    by_cases hsame : f'.column = g.column
    · exact column_ne_of_dropped hp hn hs hf (hg.symm.trans hsame.symm)
    · exact hnot (List.mem_map.mpr ⟨(f'.column, g.column),
        mem_renames_iff.mpr ⟨hsame, f', g, hs, rfl, rfl⟩, hg⟩)
  unfold NameTable.has
  rw [hother]
  unfold afterShadowed NameTable.without
  rw [if_neg (fun hd => hnot (mem_shadowed.mp hd).2), afterAdds_eq hp hfresh (dropped_mem hp hf)]
  rfl

include hp hn hsingle in
-- No step fails, phase by phase.
theorem run_namePlan_iff {t : NameTable (Option FieldName)} :
    prev.columnTable.run (namePlan prev next) = some t ↔
      ((Fresh prev next ∧ ∀ f ∈ addedColumns prev next, ¬ Postgres.Typed f →
          needsBackfill f = true → prev.columnTable.has f.column) ∧
        (∀ r ∈ renames prev next, ∀ f ∈ strandedColumns prev next, f.column ≠ r.2) ∧
        (renames prev next).Pairwise (fun e l => e.2 ≠ l.1) ∧
        ∀ n f g, (n, f, g) ∈ keptColumns prev next → f.column ≠ g.column →
          columnAspects f g = []) ∧ t = afterDrops prev next := by
  have hadds : ∀ s, prev.columnTable.run ((addedColumns prev next).flatMap Postgres.addOps) = some s ↔
      (Fresh prev next ∧ ∀ f ∈ addedColumns prev next, ¬ Postgres.Typed f →
        needsBackfill f = true → prev.columnTable.has f.column) ∧ s = afterAdds prev next := by
    intro s
    rw [NameTable.run_adds (nodup_added hn)]
    refine and_congr_left fun _ => ?_
    constructor
    · intro h
      refine ⟨fun f hf ht f' hf' hcol => (h f hf).1 ht ?_, fun f hf => (h f hf).2⟩
      exact hp.has_columnTable.mpr ⟨f', hf', hcol⟩
    · rintro ⟨hfresh, hback⟩ f hf
      refine ⟨fun ht hhas => ?_, hback f hf⟩
      obtain ⟨f', hf', hcol⟩ := hp.has_columnTable.mp hhas
      exact hfresh f hf ht f' hf' hcol
  have hdropped : (shadowed prev next).Nodup ∧ (unshadowed prev next).Nodup :=
    ⟨(nodup_dropped hp).filter _, (nodup_dropped hp).filter _⟩
  obtain ⟨hfrom, hto⟩ := nodup_renames hp hn hsingle
  have hshadowed : Fresh prev next → ∀ s,
      (afterAdds prev next).run ((shadowed prev next).map .drop) = some s ↔
        s = afterShadowed prev next := by
    intro hfresh s
    rw [NameTable.run_drops hdropped.1]
    refine and_iff_right fun n hn' => ?_
    obtain ⟨⟨f, hf, rfl⟩, _⟩ := mem_shadowed.mp hn'
    rw [NameTable.has_iff]
    exact ⟨_, afterAdds_eq hp hfresh (dropped_mem hp hf)⟩
  have hrenames : Fresh prev next → ∀ s, (afterShadowed prev next).run
      ((renames prev next).map fun r => .rename r.1 r.2) = some s ↔
        ((renames prev next).Pairwise (fun e l => e.2 ≠ l.1) ∧
          ∀ r ∈ renames prev next, ∀ f ∈ strandedColumns prev next, f.column ≠ r.2) ∧
          s = afterRenames prev next := by
    intro hfresh s
    rw [NameTable.run_renames hfrom hto (fun r hr => (mem_renames_iff.mp hr).1),
      free_iff hp hn hfresh]
    · rfl
    · intro r hr
      obtain ⟨_, f, g, hs, hf, _⟩ := mem_renames_iff.mp hr
      rw [NameTable.has_iff, ← hf]
      exact ⟨_, afterShadowed_survivor hp hn hfresh hs⟩
  have halters : Fresh prev next → ∀ s, (afterRenames prev next).run ((altered prev next).flatMap
      (fun e => Postgres.renameOps e.1.column e.2.column ++
        (Postgres.touches e.1 e.2).map .touch)) = some s ↔
        (∀ n f g, (n, f, g) ∈ keptColumns prev next → f.column ≠ g.column →
          columnAspects f g = []) ∧ s = afterRenames prev next := by
    intro hfresh s
    rw [NameTable.run_alters, once_iff]
    intro e he
    obtain ⟨f, hs⟩ := altered_to he
    rw [NameTable.has_iff]
    exact ⟨_, afterRenames_survivor hp hn hsingle hfresh hs⟩
  have hunshadowed : Fresh prev next → ∀ s,
      (afterRenames prev next).run ((unshadowed prev next).map .drop) = some s ↔
        s = afterDrops prev next := by
    intro hfresh s
    rw [NameTable.run_drops hdropped.2]
    exact and_iff_right fun n hn' => has_unshadowed hp hn hfresh hn'
  unfold namePlan
  simp only [NameTable.run_append_eq_some]
  constructor
  · rintro ⟨s₄, ⟨s₃, ⟨s₂, ⟨s₁, h₁, h₂⟩, h₃⟩, h₄⟩, h₅⟩
    obtain ⟨hadd, rfl⟩ := (hadds s₁).mp h₁
    obtain rfl := (hshadowed hadd.1 s₂).mp h₂
    obtain ⟨⟨horder, hfree⟩, rfl⟩ := (hrenames hadd.1 s₃).mp h₃
    obtain ⟨honce, rfl⟩ := (halters hadd.1 s₄).mp h₄
    exact ⟨⟨hadd, hfree, horder, honce⟩, (hunshadowed hadd.1 t).mp h₅⟩
  · rintro ⟨⟨hadd, hfree, horder, honce⟩, rfl⟩
    refine ⟨_, ⟨_, ⟨_, ⟨_, (hadds _).mpr ⟨hadd, rfl⟩, (hshadowed hadd.1 _).mpr rfl⟩,
      (hrenames hadd.1 _).mpr ⟨⟨horder, hfree⟩, rfl⟩⟩, (halters hadd.1 _).mpr ⟨honce, rfl⟩⟩, ?_⟩
    exact (hunshadowed hadd.1 _).mpr rfl

include hp hn in
-- What a field held cannot end in two columns.
theorem single_of_columnLaw (h : ColumnLaw prev next (namePlan prev next)) :
    ((survivors prev next).map Prod.fst).Nodup := by
  obtain ⟨t, hrun, _, hkeep⟩ := h
  have hadd : ∀ (k : FieldName) n, NameOp.add n (some k) ∉ namePlan prev next := by
    intro k n hmem
    simp only [namePlan, List.mem_append, List.mem_flatMap, List.mem_map, Postgres.addOps,
      Postgres.renameOps] at hmem
    rcases hmem with (((⟨f, _, hf⟩ | ⟨_, _, hf⟩) | ⟨_, _, hf⟩) | ⟨e, _, hf⟩) | ⟨_, _, hf⟩
    · rcases hf with hf | hf
      · split at hf
        · cases List.mem_singleton.mp hf
        · cases hf
      · split at hf
        · cases List.mem_singleton.mp hf
        · cases hf
    · cases hf
    · cases hf
    · rcases hf with hf | ⟨_, _, hf⟩
      · split at hf
        · cases List.mem_singleton.mp hf
        · cases hf
      · cases hf
    · cases hf
  have howned : ∀ k, prev.columnTable.Owned (some k) := by
    intro k a b ha hb
    obtain ⟨f, hf, rfl, hk⟩ := Model.mem_of_columnTable ha
    obtain ⟨g, hg, rfl, hk'⟩ := Model.mem_of_columnTable hb
    rw [hp.eq_of_name hf hg (Option.some.inj (hk.symm.trans hk'))]
  refine List.Nodup.map_on ?_ (List.Nodup.of_map _ (nodup_survivors_columns hp hn))
  rintro ⟨f, g⟩ hs ⟨f', g'⟩ hs' hff
  dsimp only at hff
  subst hff
  have hcol := (howned f.name).run (hadd f.name) hrun _ _ (hkeep _ _ hs) (hkeep _ _ hs')
  exact survivors_eq_of_to hp hn hs hs' hcol

include hp hn in
theorem names_iff (hsingle : ((survivors prev next).map Prod.fst).Nodup)
    (hfresh : Fresh prev next)
    (hfree : ∀ r ∈ renames prev next, ∀ f ∈ strandedColumns prev next, f.column ≠ r.2) :
    (∀ n, (afterDrops prev next).has n ↔ ∃ g ∈ next.scalarFields, g.column = n) ↔
      ∀ n, (∃ f ∈ strandedColumns prev next, f.column = n) ↔
        (∃ g ∈ unprovidedColumns prev next, g.column = n) ∨
          ∃ g ∈ addedColumns prev next, ¬ Postgres.Typed g ∧ g.column = n := by
  have hstays : ∀ f ∈ strandedColumns prev next, ∀ f' g, (f', g) ∈ survivors prev next →
      g.column ≠ f.column := by
    intro f hf f' g hs hcol
    by_cases hsame : f'.column = g.column
    · exact column_ne_of_stranded hp hn hs hf (hcol.symm.trans hsame.symm)
    · exact hfree (f'.column, g.column) (mem_renames_iff.mpr ⟨hsame, f', g, hs, rfl, rfl⟩) f hf
        hcol.symm
  refine forall_congr' fun n => ?_
  rw [has_afterDrops hp hn hsingle hfresh]
  constructor
  · intro h
    constructor
    · rintro ⟨f, hf, rfl⟩
      obtain ⟨g, hg, hcol⟩ := h.mp (Or.inr (Or.inr ⟨f, hf, rfl⟩))
      rcases next_cases hg with ⟨f', hs⟩ | ha | hu
      · exact absurd hcol (hstays f hf f' g hs)
      · refine Or.inr ⟨g, ha, fun ht => ?_, hcol⟩
        exact hfresh g ha ht f (mem_stranded.mp hf).1 hcol.symm
      · exact Or.inl ⟨g, hu, hcol⟩
    · intro hg
      have hnot : ∀ g ∈ next.scalarFields, g.column = n → (∀ f, (f, g) ∉ survivors prev next) →
          ¬ (g ∈ addedColumns prev next ∧ Postgres.Typed g) →
          ∃ f ∈ strandedColumns prev next, f.column = n := by
        intro g hg hcol hs ha
        rcases h.mpr ⟨g, hg, hcol⟩ with ⟨f', g', hs', hcol'⟩ | ⟨g', ha', ht', hcol'⟩ | hst
        · rw [hn.eq_of_column (survivors_mem hp hn hs').2 hg (hcol'.trans hcol.symm)] at hs'
          exact absurd hs' (hs f')
        · have heq := hn.eq_of_column (added_mem hn ha') hg (hcol'.trans hcol.symm)
          exact absurd (heq ▸ ⟨ha', ht'⟩) ha
        · exact hst
      rcases hg with ⟨g, hu, hcol⟩ | ⟨g, ha, ht, hcol⟩
      · obtain ⟨hg, hs, ha⟩ := mem_unprovided.mp hu
        exact hnot g hg hcol hs fun h => ha h.1
      · exact hnot g (added_mem hn ha) hcol (fun f => not_survivor_of_added hn ha) fun h => ht h.2
  · intro hrest
    constructor
    · rintro (⟨f, g, hs, hcol⟩ | ⟨g, ha, _, hcol⟩ | hst)
      · exact ⟨g, (survivors_mem hp hn hs).2, hcol⟩
      · exact ⟨g, added_mem hn ha, hcol⟩
      · rcases hrest.mp hst with ⟨g, hu, hcol⟩ | ⟨g, ha, _, hcol⟩
        · exact ⟨g, (mem_unprovided.mp hu).1, hcol⟩
        · exact ⟨g, added_mem hn ha, hcol⟩
    · rintro ⟨g, hg, hcol⟩
      rcases next_cases hg with ⟨f, hs⟩ | ha | hu
      · exact Or.inl ⟨f, g, hs, hcol⟩
      · by_cases ht : Postgres.Typed g
        · exact Or.inr (Or.inl ⟨g, ha, ht, hcol⟩)
        · exact Or.inr (Or.inr (hrest.mpr (Or.inr ⟨g, ha, ht, hcol⟩)))
      · exact Or.inr (Or.inr (hrest.mpr (Or.inl ⟨g, hu, hcol⟩)))

include hp hn in
theorem columnLaw_namePlan_iff :
    ColumnLaw prev next (namePlan prev next) ↔ NamesConsistent prev next := by
  constructor
  · intro h
    have hsingle := single_of_columnLaw hp hn h
    obtain ⟨t, hrun, hnames, _⟩ := h
    obtain ⟨⟨⟨hfresh, _⟩, hfree, horder, honce⟩, rfl⟩ := (run_namePlan_iff hp hn hsingle).mp hrun
    exact ⟨hsingle, hfresh, hfree, horder, honce, (names_iff hp hn hsingle hfresh hfree).mp hnames⟩
  · intro h
    -- A column without a type has the name of one that stands.
    have hback : ∀ f ∈ addedColumns prev next, ¬ Postgres.Typed f → needsBackfill f = true →
        prev.columnTable.has f.column := by
      intro f hf ht _
      obtain ⟨f', hf', hcol⟩ := (h.rest f.column).mpr (Or.inr ⟨f, hf, ht, rfl⟩)
      exact hp.has_columnTable.mpr ⟨f', (mem_stranded.mp hf').1, hcol⟩
    refine ⟨afterDrops prev next, ?_, ?_, ?_⟩
    · rw [run_namePlan_iff hp hn h.single]
      exact ⟨⟨⟨h.fresh, hback⟩, h.free, h.order, h.once⟩, rfl⟩
    · exact (names_iff hp hn h.single h.fresh h.free).mpr h.rest
    · intro f g hs
      exact afterDrops_survivor hp hn h.single h.fresh hs

end Facts

end Diff

def upStmts (prev next : Schema) : List Stmt :=
  ((upPlanner Host.std .postgres prev next).plan).getD []

-- The e-mail column gets another name and may be empty from now on.
def mailed : Schema :=
  (Build.schema "postgres" [Build.model "User" [Build.idField,
    Build.field "email" "String" .optional [Build.attr "map" [Build.str "mail"]]] []]).lowered

end Ruprizzle
