import Ruprizzle.Migrate.Phases
import Ruprizzle.Migrate.NoChange
import Ruprizzle.Parser.Accepted

namespace Ruprizzle

-- What the columns of one model become in another.

-- Fields are found under their names and no two share a column.
structure Model.ColumnNamed (m : Model) : Prop where
  named : ∀ n f, (n, f) ∈ m.fields.entries → f.name = n
  nodup : (m.scalarFields.map Field.column).Nodup

theorem Schema.WellFormed.columnNamed {s : Schema} (h : s.WellFormed) {name : ModelName} {m : Model}
    (hm : (name, m) ∈ s.models.entries) : m.ColumnNamed :=
  ⟨(h.named _ _ hm).2, h.columns m (IndexMap.mem_values.mpr ⟨_, hm⟩)⟩

namespace Model.ColumnNamed

variable {m : Model} (h : m.ColumnNamed)
include h

theorem mem_scalarFields {f : Field} :
    f ∈ m.scalarFields ↔ (f.name, f) ∈ m.fields.entries ∧ f.hasColumn = true := by
  unfold Model.scalarFields
  rw [List.mem_filter, IndexMap.mem_values]
  constructor
  · rintro ⟨⟨n, hf⟩, hcol⟩
    rw [h.named n f hf]
    exact ⟨hf, hcol⟩
  · rintro ⟨hf, hcol⟩
    exact ⟨⟨_, hf⟩, hcol⟩

theorem eq_of_column {f g : Field} (hf : f ∈ m.scalarFields) (hg : g ∈ m.scalarFields)
    (hcol : f.column = g.column) : f = g :=
  List.inj_on_of_nodup_map h.nodup hf hg hcol

theorem eq_of_name {f g : Field} (hf : f ∈ m.scalarFields) (hg : g ∈ m.scalarFields)
    (hname : f.name = g.name) : f = g :=
  IndexMap.entry_unique (h.mem_scalarFields.mp hf).1 (hname ▸ (h.mem_scalarFields.mp hg).1)

theorem nodup_columns {l : List Field} (hl : ∀ f ∈ l, f ∈ m.scalarFields)
    (hnodup : (l.map Field.name).Nodup) : (l.map Field.column).Nodup := by
  refine List.Nodup.map_on (fun f hf g hg hcol => h.eq_of_column (hl f hf) (hl g hg) hcol) ?_
  exact List.Nodup.of_map _ hnodup

theorem nodup_picked {pick : FieldName × Field → Option Field}
    (hpick : ∀ e f, pick e = some f → f = e.2) :
    ((m.fields.entries.filterMap pick).map Field.name).Nodup := by
  refine m.fields.nodup.sublist (sublist_map_filterMap fun e he f hf => ?_)
  rw [hpick e f hf]
  exact h.named e.1 e.2 he

end Model.ColumnNamed

namespace Diff

variable {prev next : Model}

-- A column field of next with the field of prev whose column becomes its own:
-- hinted fields first, then those that keep their name.
def survivors (prev next : Model) : List (Field × Field) :=
  (hints prev next).map (fun h => (h.prevField, h.field)) ++ (keptColumns prev next).map Prod.snd

def renames (prev next : Model) : List (String × String) :=
  ((survivors prev next).map (fun e => (e.1.column, e.2.column))).filter (fun r => r.1 ≠ r.2)

-- Columns of prev no change speaks of: the field of that name is a relation now.
def strandedColumns (prev next : Model) : List Field :=
  prev.scalarFields.filter fun f => f ∉ (survivors prev next).map Prod.fst ∧
    f ∉ droppedColumns prev next

-- Columns of next no change speaks of: the field of that name was a relation.
def unprovidedColumns (prev next : Model) : List Field :=
  next.scalarFields.filter fun g => g ∉ (survivors prev next).map Prod.snd ∧
    g ∉ addedColumns prev next

theorem mem_hints {h : Hint} : h ∈ hints prev next ↔ (h.newName, h.field) ∈ next.fields.entries ∧
    h.field.attrs.renamedFrom = some h.oldName.str ∧ (h.oldName, h.prevField) ∈ prev.fields.entries ∧
      h.prevField.hasColumn = true ∧ h.field.hasColumn = true := by
  unfold hints
  rw [List.mem_filterMap]
  constructor
  · rintro ⟨⟨n, g⟩, hg, hh⟩
    dsimp only at hh
    split at hh
    · cases hh
    · rename_i old hold
      split at hh
      · cases hh
      · rename_i f hf
        split at hh
        · cases hh
        · rename_i hcol
          cases hh
          simp only [Bool.or_eq_true, Bool.not_eq_true', not_or, Bool.not_eq_false] at hcol
          exact ⟨hg, hold, IndexMap.get?_eq_some.mp hf, hcol.1, hcol.2⟩
  · rintro ⟨hg, hold, hf, hfc, hgc⟩
    refine ⟨(h.newName, h.field), hg, ?_⟩
    simp [hold, IndexMap.get?_eq_some.mpr hf, hfc, hgc]

theorem nodup_renamed (prev next : Model) : (renamed prev next).Nodup := by
  refine next.fields.nodup.sublist (sublist_map_filterMap ?_)
  rintro ⟨n, g⟩ _ h hh
  dsimp only at hh
  split at hh
  · cases hh
  · split at hh
    · cases hh
    · split at hh
      · cases hh
      · cases hh
        rfl

theorem mem_survivors {f g : Field} : (f, g) ∈ survivors prev next ↔
    (∃ h ∈ hints prev next, h.prevField = f ∧ h.field = g) ∨
      ∃ n, (n, f, g) ∈ keptColumns prev next := by
  unfold survivors
  rw [List.mem_append, List.mem_map, List.mem_map]
  refine or_congr ?_ ?_
  · simp only [Prod.mk.injEq]
  · constructor
    · rintro ⟨⟨n, f', g'⟩, hk, heq⟩
      cases heq
      exact ⟨n, hk⟩
    · rintro ⟨n, hk⟩
      exact ⟨(n, f, g), hk, rfl⟩

theorem survivors_mem (hp : prev.ColumnNamed) (hn : next.ColumnNamed) {f g : Field} (h : (f, g) ∈ survivors prev next) :
    f ∈ prev.scalarFields ∧ g ∈ next.scalarFields := by
  rw [hp.mem_scalarFields, hn.mem_scalarFields]
  rcases mem_survivors.mp h with ⟨hint, hh, rfl, rfl⟩ | ⟨n, hk⟩
  · obtain ⟨hg, _, hf, hfc, hgc⟩ := mem_hints.mp hh
    rw [hp.named _ _ hf, hn.named _ _ hg]
    exact ⟨⟨hf, hfc⟩, hg, hgc⟩
  · obtain ⟨hf, hg, _, hfc, hgc⟩ := mem_keptColumns.mp hk
    rw [hp.named _ _ hf, hn.named _ _ hg]
    exact ⟨⟨hf, hfc⟩, hg, hgc⟩

-- A field of next is drawn from one field at most.
theorem nodup_survivors_names (hn : next.ColumnNamed) : ((survivors prev next).map (fun e => e.2.name)).Nodup := by
  unfold survivors
  rw [List.map_append, List.map_map, List.map_map]
  have hhints : (hints prev next).map ((fun e : Field × Field => e.2.name) ∘
      fun h => (h.prevField, h.field)) = renamed prev next :=
    List.map_congr_left fun h hh => hn.named _ _ (mem_hints.mp hh).1
  have hkept : (keptColumns prev next).map ((fun e : Field × Field => e.2.name) ∘ Prod.snd) =
      (keptColumns prev next).map Prod.fst :=
    List.map_congr_left fun e he => hn.named _ _ (mem_keptColumns.mp he).2.1
  rw [hhints, hkept]
  refine List.Nodup.append (nodup_renamed prev next) ?_ ?_
  · refine next.fields.nodup.sublist (sublist_map_filterMap ?_)
    rintro ⟨n, g⟩ _ e he
    dsimp only at he
    split at he
    · split at he
      · split at he
        · cases he
          rfl
        · cases he
      · cases he
    · cases he
  · intro n hr hk
    obtain ⟨e, he, rfl⟩ := List.mem_map.mp hk
    exact (mem_keptColumns.mp he).2.2.1 hr

theorem nodup_survivors_columns (hp : prev.ColumnNamed) (hn : next.ColumnNamed) :
    ((survivors prev next).map (fun e => e.2.column)).Nodup := by
  have h := @Model.ColumnNamed.nodup_columns _ hn ((survivors prev next).map Prod.snd) ?_ ?_
  · rwa [List.map_map] at h
  · intro g hg
    obtain ⟨⟨f, g'⟩, he, rfl⟩ := List.mem_map.mp hg
    exact (survivors_mem hp hn he).2
  · rw [List.map_map]
    exact nodup_survivors_names hn

theorem dropped_mem (hp : prev.ColumnNamed) {f : Field} (h : f ∈ droppedColumns prev next) : f ∈ prev.scalarFields := by
  obtain ⟨n, hf, _, hfc, _⟩ := mem_droppedColumns.mp h
  rw [hp.mem_scalarFields, hp.named _ _ hf]
  exact ⟨hf, hfc⟩

theorem added_mem (hn : next.ColumnNamed) {g : Field} (h : g ∈ addedColumns prev next) : g ∈ next.scalarFields := by
  obtain ⟨n, hg, _, hgc, _⟩ := mem_addedColumns.mp h
  rw [hn.mem_scalarFields, hn.named _ _ hg]
  exact ⟨hg, hgc⟩

-- What is dropped gives its column to no one.
theorem not_survivor_of_dropped (hp : prev.ColumnNamed) {f g : Field} (h : f ∈ droppedColumns prev next) :
    (f, g) ∉ survivors prev next := by
  obtain ⟨n, hf, hc, hfc, hgone⟩ := mem_droppedColumns.mp h
  intro hs
  rcases mem_survivors.mp hs with ⟨hint, hh, rfl, rfl⟩ | ⟨n', hk⟩
  · obtain ⟨_, _, hf', _, _⟩ := mem_hints.mp hh
    have hname : hint.oldName = n := by rw [← hp.named _ _ hf', hp.named _ _ hf]
    exact hc (hname ▸ List.mem_map_of_mem hh)
  · obtain ⟨hf', hg, hr, _, _⟩ := mem_keptColumns.mp hk
    have hname : n' = n := by rw [← hp.named _ _ hf', hp.named _ _ hf]
    subst hname
    rcases hgone with hgone | hgone
    · exact hgone (IndexMap.mem_keys.mpr ⟨g, hg⟩)
    · exact hr hgone

-- What is added is drawn from no one.
theorem not_survivor_of_added (hn : next.ColumnNamed) {f g : Field} (h : g ∈ addedColumns prev next) :
    (f, g) ∉ survivors prev next := by
  obtain ⟨n, hg, hr, hgc, hnew⟩ := mem_addedColumns.mp h
  intro hs
  rcases mem_survivors.mp hs with ⟨hint, hh, rfl, rfl⟩ | ⟨n', hk⟩
  · obtain ⟨hg', _, _, _, _⟩ := mem_hints.mp hh
    have hname : hint.newName = n := by rw [← hn.named _ _ hg', hn.named _ _ hg]
    exact hr (hname ▸ List.mem_map_of_mem hh)
  · obtain ⟨hf', hg', _, _, _⟩ := mem_keptColumns.mp hk
    have hname : n' = n := by rw [← hn.named _ _ hg', hn.named _ _ hg]
    exact hnew (hname ▸ IndexMap.mem_keys.mpr ⟨f, hf'⟩)

theorem nodup_dropped (hp : prev.ColumnNamed) :
    ((droppedColumns prev next).map Field.column).Nodup := by
  refine hp.nodup_columns (fun f hf => dropped_mem hp hf) (hp.nodup_picked ?_)
  intro e f he
  dsimp only at he
  split at he
  · exact (Option.some.inj he).symm
  · cases he

theorem nodup_added (hn : next.ColumnNamed) : ((addedColumns prev next).map Field.column).Nodup := by
  refine hn.nodup_columns (fun f hf => added_mem hn hf) (hn.nodup_picked ?_)
  intro e f he
  dsimp only at he
  split at he
  · exact (Option.some.inj he).symm
  · cases he

end Diff

end Ruprizzle
