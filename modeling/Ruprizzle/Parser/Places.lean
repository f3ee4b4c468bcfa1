import Ruprizzle.Parser.Accepted

namespace Ruprizzle

-- The place of a field: its model and its name in it.
abbrev Place := ModelName × FieldName

-- The relation written at a place, as it stands in the models.
def refAt (models : IndexMap ModelName Model) (e : Place) : Option RelationRef :=
  ((models.get? e.1).bind (fun m => m.fields.get? e.2)).bind Field.relation

-- What lowering never writes to once the declarations are read: a model up to
-- the marks and the join models of its relation fields.
def RelationRef.bare (r : RelationRef) : RelationRef := { r with resolved := none, through := none }

def Field.bare (f : Field) : Field :=
  { f with kind := Lower.FieldKind.mapRelation RelationRef.bare f.kind }

def Model.bare (m : Model) : Model := { m with fields := m.fields.mapValues Field.bare }

-- Every model is still there, and only marked or given join models.
def Extends (models models' : IndexMap ModelName Model) : Prop :=
  ∀ k m, models.get? k = some m → ∃ m', models'.get? k = some m' ∧ m'.bare = m.bare

namespace Lower

theorem relation_mapRelation (g : RelationRef → RelationRef) (kind : FieldKind) :
    (FieldKind.mapRelation g kind).relation? = kind.relation?.map g := by
  cases kind with
  | scalar _ | enum _ | relation _ => rfl
  | list inner => cases inner <;> rfl

theorem mapRelation_of_hasColumn (g : RelationRef → RelationRef) {kind : FieldKind}
    (h : kind.hasColumn = true) : FieldKind.mapRelation g kind = kind := by
  cases kind with
  | scalar _ | enum _ => rfl
  | relation _ => cases h
  | list inner =>
      cases inner with
      | scalar _ | enum _ | list _ => rfl
      | relation _ => cases h

@[simp] theorem hasColumn_mapRelation (g : RelationRef → RelationRef) (kind : FieldKind) :
    (FieldKind.mapRelation g kind).hasColumn = kind.hasColumn := by
  cases kind with
  | scalar _ | enum _ | relation _ => rfl
  | list inner => cases inner <;> rfl

theorem mapRelation_mapRelation (g g' : RelationRef → RelationRef) (kind : FieldKind) :
    FieldKind.mapRelation g (FieldKind.mapRelation g' kind) =
      FieldKind.mapRelation (g ∘ g') kind := by
  cases kind with
  | scalar _ | enum _ | relation _ => rfl
  | list inner => cases inner <;> rfl

theorem refAt_modifyRelation (models : IndexMap ModelName Model) (model : ModelName)
    (field : FieldName) (g : RelationRef → RelationRef) (e : Place) :
    refAt (modifyRelation models model field g) e =
      if e = (model, field) then (refAt models e).map g else refAt models e := by
  obtain ⟨k, n⟩ := e
  simp only [refAt, modifyRelation, IndexMap.get?_modify, Prod.mk.injEq]
  by_cases hk : k = model
  · subst hk
    cases hm : models.get? k with
    | none => simp
    | some m =>
        by_cases hn : n = field
        · subst hn
          cases hf : m.fields.get? n with
          | none => simp [IndexMap.get?_modify, hf]
          | some f => simp [IndexMap.get?_modify, hf, Field.relation, relation_mapRelation]
        · simp [hn, IndexMap.get?_modify]
  · simp [hk]

end Lower

theorem refAt_insert (models : IndexMap ModelName Model) (k : ModelName) (m : Model) (e : Place) :
    refAt (models.insert k m) e =
      if e.1 = k then (m.fields.get? e.2).bind Field.relation else refAt models e := by
  simp only [refAt, IndexMap.get?_insert]
  split <;> rfl

theorem mem_keys_of_refAt {models : IndexMap ModelName Model} {e : Place} {ref : RelationRef}
    (h : refAt models e = some ref) : e.1 ∈ models.keys := by
  obtain ⟨_, hf, _⟩ := Option.bind_eq_some_iff.mp h
  obtain ⟨model, hm, _⟩ := Option.bind_eq_some_iff.mp hf
  exact IndexMap.mem_keys_iff_get?.mpr ⟨model, hm⟩

theorem relation_bare (f : Field) : f.bare.relation = f.relation.map RelationRef.bare :=
  Lower.relation_mapRelation _ _

theorem refAt_bare (m : Model) (n : FieldName) :
    (m.bare.fields.get? n).bind Field.relation =
      ((m.fields.get? n).bind Field.relation).map RelationRef.bare := by
  rw [Model.bare, IndexMap.get?_mapValues]
  cases m.fields.get? n with
  | none => rfl
  | some f => exact relation_bare f

theorem scalarFields_bare (m : Model) : m.bare.scalarFields = m.scalarFields := by
  simp only [Model.scalarFields, Model.bare, IndexMap.values_mapValues, List.filter_map]
  have hcolumn : Field.hasColumn ∘ Field.bare = Field.hasColumn := by
    funext f
    exact Lower.hasColumn_mapRelation _ _
  rw [hcolumn]
  refine (List.map_congr_left ?_).trans (List.map_id _)
  intro f hf
  have hkind := Lower.mapRelation_of_hasColumn RelationRef.bare (List.mem_filter.mp hf).2
  simp [Field.bare, hkind]

theorem bare_modify {f' : Field → Field} (m : Model) (n : FieldName)
    (h : ∀ f, (f' f).bare = f.bare) :
    Model.bare { m with fields := m.fields.modify n f' } = m.bare := by
  simp only [Model.bare, Model.mk.injEq, true_and, and_true]
  apply IndexMap.ext_entries
  simp only [IndexMap.entries_mapValues, IndexMap.modify, List.map_map]
  apply List.map_congr_left
  intro e _
  by_cases he : e.1 = n <;> simp [he, h]

namespace Extends

variable {models models' models'' : IndexMap ModelName Model}

theorem refl (models : IndexMap ModelName Model) : Extends models models :=
  fun _ m h => ⟨m, h, rfl⟩

theorem trans (h : Extends models models') (h' : Extends models' models'') :
    Extends models models'' := by
  intro k m hm
  obtain ⟨m', hm', hb'⟩ := h k m hm
  obtain ⟨m'', hm'', hb''⟩ := h' k m' hm'
  exact ⟨m'', hm'', hb''.trans hb'⟩

theorem keys (h : Extends models models') {k : ModelName} (hk : k ∈ models.keys) :
    k ∈ models'.keys := by
  obtain ⟨m, hm⟩ := IndexMap.mem_keys_iff_get?.mp hk
  obtain ⟨m', hm', _⟩ := h k m hm
  exact IndexMap.mem_keys_iff_get?.mpr ⟨m', hm'⟩

-- A relation reads the same up to its mark and join model.
theorem refAt (h : Extends models models') {e : Place} {ref : RelationRef}
    (href : refAt models e = some ref) :
    ∃ ref', Ruprizzle.refAt models' e = some ref' ∧ ref'.bare = ref.bare := by
  unfold Ruprizzle.refAt at href ⊢
  obtain ⟨f, hf, hrel⟩ := Option.bind_eq_some_iff.mp href
  obtain ⟨m, hm, hget⟩ := Option.bind_eq_some_iff.mp hf
  obtain ⟨m', hm', hbare⟩ := h e.1 m hm
  have hmap := congrArg (fun m : Model => (m.fields.get? e.2).bind Field.relation) hbare
  simp only [refAt_bare, hget, Option.bind_some, hrel, Option.map_some] at hmap
  obtain ⟨ref', href', heq⟩ := Option.map_eq_some_iff.mp hmap
  exact ⟨ref', by rw [hm']; exact href', heq⟩

theorem insert_fresh {k : ModelName} (hk : k ∉ models.keys) (m : Model) :
    Extends models (models.insert k m) := by
  intro k' m' hm'
  have hne : k' ≠ k := by
    rintro rfl
    exact hk (IndexMap.mem_keys_iff_get?.mpr ⟨m', hm'⟩)
  exact ⟨m', by simp [IndexMap.get?_insert, hne, hm'], rfl⟩

theorem modifyRelation (models : IndexMap ModelName Model) (model : ModelName) (field : FieldName)
    (g : RelationRef → RelationRef) (hg : ∀ r, (g r).bare = r.bare) :
    Extends models (Lower.modifyRelation models model field g) := by
  intro k m hm
  simp only [Lower.modifyRelation, IndexMap.get?_modify]
  by_cases hk : k = model
  · refine ⟨_, by rw [if_pos hk, hm]; rfl, ?_⟩
    refine bare_modify m field ?_
    intro f
    have hcomp : RelationRef.bare ∘ g = RelationRef.bare := funext hg
    simp [Field.bare, Lower.mapRelation_mapRelation, hcomp]
  · exact ⟨m, by rw [if_neg hk, hm], rfl⟩

end Extends

end Ruprizzle
