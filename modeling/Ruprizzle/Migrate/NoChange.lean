import Ruprizzle.Migrate.Diff
import Mathlib.Tactic.Tauto

namespace Ruprizzle.Diff

-- What a diff without changes says of the two schemas it compared.

@[simp] theorem append_eq_nil_iff {a b : List Change} : a ++ b = [] ↔ a = [] ∧ b = [] :=
  List.append_eq_nil_iff

theorem columnAspects_eq_nil {f g : Field} : columnAspects f g = [] ↔
    f.kind = g.kind ∧ f.attrs.nativeType = g.attrs.nativeType ∧ f.optional = g.optional ∧
      f.default.map DefaultValue.canon = g.default.map DefaultValue.canon := by
  simp [columnAspects, DefaultValue.same, and_assoc]

theorem alterIfChanged_eq_nil {model : ModelName} {f g : Field} :
    alterIfChanged model f g = [] ↔ columnAspects f g = [] := by
  unfold alterIfChanged
  split <;> simp_all

theorem keptChanges_eq_nil {model : ModelName} {n : FieldName} {f g : Field} :
    keptChanges model n f g = [] ↔ f.column = g.column ∧ columnAspects f g = [] := by
  unfold keptChanges
  rw [List.append_eq_nil_iff, alterIfChanged_eq_nil]
  by_cases h : f.column = g.column <;> simp [h]

theorem hintChanges_ne_nil (model : ModelName) (h : Hint) : hintChanges model h ≠ [] := by
  simp [hintChanges]

-- The columns of a model that an empty list of column changes accounts for.
structure ColumnsKept (prev next : Model) : Prop where
  noHint : hints prev next = []
  added : ∀ n f, (n, f) ∈ next.fields.entries → f.hasColumn = true → n ∈ prev.fields.keys
  dropped : ∀ n f, (n, f) ∈ prev.fields.entries → f.hasColumn = true → n ∈ next.fields.keys
  same : ∀ n f g, (n, f) ∈ prev.fields.entries → (n, g) ∈ next.fields.entries →
    f.hasColumn = true → g.hasColumn = true → f.column = g.column ∧ columnAspects f g = []

theorem mem_keptColumns {prev next : Model} {n : FieldName} {f g : Field} :
    (n, f, g) ∈ keptColumns prev next ↔ (n, f) ∈ prev.fields.entries ∧
      (n, g) ∈ next.fields.entries ∧ n ∉ renamed prev next ∧ f.hasColumn = true ∧
        g.hasColumn = true := by
  unfold keptColumns
  rw [List.mem_filterMap]
  constructor
  · rintro ⟨⟨n', g'⟩, hg, h⟩
    simp only at h
    split at h
    · rename_i hn
      cases hf : prev.fields.get? n' with
      | none => simp [hf] at h
      | some f' =>
          by_cases hc : f'.hasColumn = true
          · simp only [hf, hc, ite_true, Option.some.injEq, Prod.mk.injEq] at h
            obtain ⟨rfl, rfl, rfl⟩ := h
            exact ⟨IndexMap.get?_eq_some.mp hf, hg, hn.1, hc, hn.2⟩
          · simp [hf, hc] at h
    · cases h
  · rintro ⟨hf, hg, hn, hfc, hgc⟩
    refine ⟨(n, g), hg, ?_⟩
    simp [hn, hgc, IndexMap.get?_eq_some.mpr hf, hfc]

theorem mem_addedColumns {prev next : Model} {f : Field} : f ∈ addedColumns prev next ↔
    ∃ n, (n, f) ∈ next.fields.entries ∧ n ∉ renamed prev next ∧ f.hasColumn = true ∧
      n ∉ prev.fields.keys := by
  simp [addedColumns, List.mem_filterMap]

theorem mem_droppedColumns {prev next : Model} {f : Field} : f ∈ droppedColumns prev next ↔
    ∃ n, (n, f) ∈ prev.fields.entries ∧ n ∉ consumed prev next ∧ f.hasColumn = true ∧
      (n ∉ next.fields.keys ∨ n ∈ renamed prev next) := by
  simp [droppedColumns, List.mem_filterMap]

theorem diffColumns_eq_nil {model : ModelName} {prev next : Model} :
    diffColumns model prev next = [] ↔ ColumnsKept prev next := by
  unfold diffColumns
  simp only [append_eq_nil_iff, List.map_eq_nil_iff, List.flatMap_eq_nil_iff]
  have hnil : (∀ h ∈ hints prev next, hintChanges model h = []) ↔ hints prev next = [] := by
    constructor
    · intro h
      exact List.eq_nil_iff_forall_not_mem.mpr fun x hx => hintChanges_ne_nil model x (h x hx)
    · intro h
      simp [h]
  rw [hnil]
  constructor
  · rintro ⟨⟨⟨hh, ha⟩, hd⟩, hk⟩
    have hr : ∀ n, n ∉ renamed prev next := by simp [renamed, hh]
    have hc : ∀ n, n ∉ consumed prev next := by simp [consumed, hh]
    refine ⟨hh, ?_, ?_, ?_⟩
    · intro n f hf hcol
      by_contra hn
      exact List.eq_nil_iff_forall_not_mem.mp ha f (mem_addedColumns.mpr ⟨n, hf, hr n, hcol, hn⟩)
    · intro n f hf hcol
      by_contra hn
      exact List.eq_nil_iff_forall_not_mem.mp hd f
        (mem_droppedColumns.mpr ⟨n, hf, hc n, hcol, Or.inl hn⟩)
    · intro n f g hf hg hfc hgc
      exact keptChanges_eq_nil.mp (hk (n, f, g) (mem_keptColumns.mpr ⟨hf, hg, hr n, hfc, hgc⟩))
  · intro h
    have hr : ∀ n, n ∉ renamed prev next := by simp [renamed, h.noHint]
    refine ⟨⟨⟨h.noHint, ?_⟩, ?_⟩, ?_⟩
    · refine List.eq_nil_iff_forall_not_mem.mpr fun f hf => ?_
      obtain ⟨n, hf, _, hcol, hn⟩ := mem_addedColumns.mp hf
      exact hn (h.added n f hf hcol)
    · refine List.eq_nil_iff_forall_not_mem.mpr fun f hf => ?_
      obtain ⟨n, hf, _, hcol, hn⟩ := mem_droppedColumns.mp hf
      rcases hn with hn | hn
      · exact hn (h.dropped n f hf hcol)
      · exact hr n hn
    · rintro ⟨n, f, g⟩ hk
      obtain ⟨hf, hg, _, hfc, hgc⟩ := mem_keptColumns.mp hk
      exact keptChanges_eq_nil.mpr (h.same n f g hf hg hfc hgc)

theorem filter_not_mem_eq_nil {α : Type} [DecidableEq α] {a b : List α} :
    a.filter (fun x => x ∉ b) = [] ↔ ∀ x ∈ a, x ∈ b := by
  simp

theorem diffIndexes_eq_nil {model : ModelName} {prev next : Model} :
    diffIndexes model prev next = [] ↔ ∀ ix, ix ∈ prev.indexes ↔ ix ∈ next.indexes := by
  unfold diffIndexes
  simp only [append_eq_nil_iff, List.map_eq_nil_iff, filter_not_mem_eq_nil]
  exact ⟨fun h ix => ⟨h.2 ix, h.1 ix⟩, fun h => ⟨fun ix => (h ix).mpr, fun ix => (h ix).mp⟩⟩

theorem diffUniques_eq_nil {model : ModelName} {prev next : Model} :
    diffUniques model prev next = [] ↔ ∀ uq, uq ∈ prev.uniques ↔ uq ∈ next.uniques := by
  unfold diffUniques
  simp only [append_eq_nil_iff, List.map_eq_nil_iff, filter_not_mem_eq_nil]
  exact ⟨fun h uq => ⟨h.2 uq, h.1 uq⟩, fun h => ⟨fun uq => (h uq).mpr, fun uq => (h uq).mp⟩⟩

-- The keys two maps do not share, as the two filters of a comparison see them.
theorem keys_agree_iff {κ α β : Type} [DecidableEq κ] {a : IndexMap κ α} {b : IndexMap κ β} :
    (b.entries.filter (fun e => !a.contains e.1) = [] ∧
      a.entries.filter (fun e => !b.contains e.1) = []) ↔ ∀ k, k ∈ a.keys ↔ k ∈ b.keys := by
  simp only [List.filter_eq_nil_iff, IndexMap.contains, decide_eq_false_iff_not, not_not,
    Prod.forall, Bool.not_eq_eq_eq_not, Bool.not_true]
  constructor
  · rintro ⟨h1, h2⟩ k
    constructor
    · intro hk
      obtain ⟨v, hv⟩ := IndexMap.mem_keys.mp hk
      exact h2 k v hv
    · intro hk
      obtain ⟨v, hv⟩ := IndexMap.mem_keys.mp hk
      exact h1 k v hv
  · intro h
    exact ⟨fun k v hv => (h k).mpr (IndexMap.mem_keys.mpr ⟨v, hv⟩),
      fun k v hv => (h k).mp (IndexMap.mem_keys.mpr ⟨v, hv⟩)⟩

-- Everything the ten comparisons of a diff look at.
structure Unchanged (prev next : Schema) : Prop where
  enums : ∀ name, name ∈ prev.enums.keys ↔ name ∈ next.enums.keys
  variants : ∀ name e e', (name, e) ∈ prev.enums.entries → (name, e') ∈ next.enums.entries →
    ∀ v, v ∈ e.variants.keys ↔ v ∈ e'.variants.keys
  models : ∀ name, name ∈ prev.models.keys ↔ name ∈ next.models.keys
  columns : ∀ name m m', (name, m) ∈ prev.models.entries → (name, m') ∈ next.models.entries →
    ColumnsKept m m'
  indexes : ∀ name m m', (name, m) ∈ prev.models.entries → (name, m') ∈ next.models.entries →
    ∀ ix, ix ∈ m.indexes ↔ ix ∈ m'.indexes
  uniques : ∀ name m m', (name, m) ∈ prev.models.entries → (name, m') ∈ next.models.entries →
    ∀ uq, uq ∈ m.uniques ↔ uq ∈ m'.uniques
  relations : ∀ name, name ∈ (relationMap prev).keys ↔ name ∈ (relationMap next).keys
  foreignKeys : ∀ name p r, (name, p) ∈ (relationMap prev).entries →
    (name, r) ∈ (relationMap next).entries → relationChanged p r = false

theorem diffEnums_eq_nil {prev next : Schema} : diffEnums prev next = [] ↔
    (∀ name, name ∈ prev.enums.keys ↔ name ∈ next.enums.keys) ∧
      ∀ name e e', (name, e) ∈ prev.enums.entries → (name, e') ∈ next.enums.entries →
        ∀ v, v ∈ e.variants.keys ↔ v ∈ e'.variants.keys := by
  unfold diffEnums
  simp only [append_eq_nil_iff, List.map_eq_nil_iff, List.flatMap_eq_nil_iff]
  rw [keys_agree_iff]
  refine and_congr_right fun _ => ?_
  constructor
  · intro h name e e' he he' v
    have := h (name, e') he'
    simp only [IndexMap.get?_eq_some.mpr he, append_eq_nil_iff, List.map_eq_nil_iff,
      List.filter_eq_nil_iff, IndexMap.contains, Bool.not_eq_true', decide_eq_false_iff_not,
      not_not] at this
    exact ⟨this.2 v, this.1 v⟩
  · rintro h ⟨name, e'⟩ he'
    cases he : prev.enums.get? name with
    | none => simp
    | some e =>
        have := h name e e' (IndexMap.get?_eq_some.mp he) he'
        simp only [append_eq_nil_iff, List.map_eq_nil_iff, List.filter_eq_nil_iff,
          IndexMap.contains, Bool.not_eq_true', decide_eq_false_iff_not, not_not]
        exact ⟨fun v => (this v).mpr, fun v => (this v).mp⟩

theorem diffModel_eq_nil {prev : Schema} {name : ModelName} {m' : Model} :
    diffModel prev name m' = [] ↔ ∀ m, (name, m) ∈ prev.models.entries →
      ColumnsKept m m' ∧ (∀ ix, ix ∈ m.indexes ↔ ix ∈ m'.indexes) ∧
        ∀ uq, uq ∈ m.uniques ↔ uq ∈ m'.uniques := by
  unfold diffModel
  cases hm : prev.models.get? name with
  | none =>
      simp only [true_iff]
      intro m hmem
      rw [IndexMap.get?_eq_some.mpr hmem] at hm
      cases hm
  | some m =>
      have hentry := IndexMap.get?_eq_some.mp hm
      simp only [append_eq_nil_iff, diffColumns_eq_nil, diffIndexes_eq_nil, diffUniques_eq_nil,
        and_assoc]
      constructor
      · intro h w hw
        rwa [IndexMap.entry_unique hw hentry]
      · exact fun h => h m hentry

theorem diffModels_eq_nil {prev next : Schema} : diffModels prev next = [] ↔
    (∀ name, name ∈ prev.models.keys ↔ name ∈ next.models.keys) ∧
      ∀ name m m', (name, m) ∈ prev.models.entries → (name, m') ∈ next.models.entries →
        ColumnsKept m m' ∧ (∀ ix, ix ∈ m.indexes ↔ ix ∈ m'.indexes) ∧
          ∀ uq, uq ∈ m.uniques ↔ uq ∈ m'.uniques := by
  unfold diffModels
  simp only [append_eq_nil_iff, List.map_eq_nil_iff, List.flatMap_eq_nil_iff, diffModel_eq_nil]
  rw [keys_agree_iff]
  refine and_congr_right fun _ => ?_
  exact ⟨fun h name m m' hm hm' => h (name, m') hm' m hm,
    fun h e he m hm => h e.1 m e.2 hm he⟩

theorem diffRelations_eq_nil {host : Host} {prev next : Schema}
    (hm : ∀ name, name ∈ prev.models.keys ↔ name ∈ next.models.keys) :
    diffRelations host prev next = [] ↔
      (∀ name, name ∈ (relationMap prev).keys ↔ name ∈ (relationMap next).keys) ∧
        ∀ name p r, (name, p) ∈ (relationMap prev).entries →
          (name, r) ∈ (relationMap next).entries → relationChanged p r = false := by
  unfold diffRelations
  simp only [append_eq_nil_iff, List.flatMap_eq_nil_iff, HashOrder.mem_order, Prod.forall, hm]
  constructor
  · rintro ⟨hn, hp⟩
    have hback : ∀ name r, (name, r) ∈ (relationMap next).entries →
        ∃ p, (relationMap prev).get? name = some p ∧ relationChanged p r = false := by
      intro name r hr
      have h := hn name r hr
      cases hp : (relationMap prev).get? name with
      | none => simp [hp] at h
      | some p =>
          refine ⟨p, rfl, ?_⟩
          by_contra hc
          simp [hp, Bool.eq_true_of_not_eq_false hc] at h
    refine ⟨?_, ?_⟩
    · intro name
      constructor
      · intro hk
        obtain ⟨r, hr⟩ := IndexMap.mem_keys.mp hk
        by_contra hnk
        have h := hp name r hr
        simp [hnk] at h
      · intro hk
        obtain ⟨r, hr⟩ := IndexMap.mem_keys.mp hk
        obtain ⟨p, hp, _⟩ := hback name r hr
        exact IndexMap.mem_keys_iff_get?.mpr ⟨p, hp⟩
    · intro name p r hpe hre
      obtain ⟨q, hq, hc⟩ := hback name r hre
      rw [IndexMap.entry_unique hpe (IndexMap.get?_eq_some.mp hq)]
      exact hc
  · rintro ⟨hk, hc⟩
    refine ⟨?_, ?_⟩
    · intro name r hr
      obtain ⟨p, hp⟩ := IndexMap.mem_keys_iff_get?.mp
        ((hk name).mpr (IndexMap.mem_keys.mpr ⟨r, hr⟩))
      simp [hp, hc name p r (IndexMap.get?_eq_some.mp hp) hr]
    · intro name p hp
      have := (hk name).mp (IndexMap.mem_keys.mpr ⟨p, hp⟩)
      simp [this]

theorem diff_eq_nil {host : Host} {prev next : Schema} :
    diff host prev next = [] ↔ Unchanged prev next := by
  unfold diff
  simp only [append_eq_nil_iff, diffEnums_eq_nil, diffModels_eq_nil]
  constructor
  · rintro ⟨⟨⟨he, hv⟩, hm, hmodel⟩, hr⟩
    obtain ⟨hrk, hrc⟩ := (diffRelations_eq_nil hm).mp hr
    exact
      { enums := he
        variants := hv
        models := hm
        columns := fun n m m' h h' => (hmodel n m m' h h').1
        indexes := fun n m m' h h' => (hmodel n m m' h h').2.1
        uniques := fun n m m' h h' => (hmodel n m m' h h').2.2
        relations := hrk
        foreignKeys := hrc }
  · intro h
    exact ⟨⟨⟨h.enums, h.variants⟩, h.models, fun n m m' hm hm' =>
      ⟨h.columns n m m' hm hm', h.indexes n m m' hm hm', h.uniques n m m' hm hm'⟩⟩,
      (diffRelations_eq_nil h.models).mpr ⟨h.relations, h.foreignKeys⟩⟩

end Ruprizzle.Diff
