import Ruprizzle.Core.Layout
import Ruprizzle.Migrate.NoChange
import Ruprizzle.Parser.Build

namespace Ruprizzle

-- How much of a diff depends on where a schema file puts its text.

@[simp] theorem FieldKind.hasColumn_read (v : Reading) (k : FieldKind) :
    (k.read v).hasColumn = k.hasColumn := by
  cases k with
  | list inner => cases inner <;> rfl
  | _ => rfl

@[simp] theorem Field.hasColumn_read (v : Reading) (f : Field) :
    (f.read v).hasColumn = f.hasColumn :=
  FieldKind.hasColumn_read v f.kind

-- The span of a kind is that of its relation, so a column has none.
theorem FieldKind.read_bare {k : FieldKind} (h : k.hasColumn = true) : k.read .bare = k := by
  cases k with
  | list inner =>
      cases inner with
      | relation r => cases h
      | list i => cases h
      | _ => rfl
  | relation r => cases h
  | _ => rfl

theorem Field.column_of_read {f g : Field} (h : f.read .bare = g.read .bare) :
    f.column = g.column :=
  (congrArg Field.column h :)

theorem Field.kind_of_read {f g : Field} (h : f.read .bare = g.read .bare)
    (hf : f.hasColumn = true) (hg : g.hasColumn = true) : f.kind = g.kind := by
  have hk : f.kind.read .bare = g.kind.read .bare := congrArg Field.kind h
  rwa [FieldKind.read_bare hf, FieldKind.read_bare hg] at hk

theorem Field.hasColumn_of_read {f g : Field} (h : f.read .bare = g.read .bare) :
    f.hasColumn = g.hasColumn := by
  rw [← Field.hasColumn_read .bare f, h, Field.hasColumn_read]

theorem Field.renamedFrom_of_read {f g : Field} (h : f.read .bare = g.read .bare) :
    f.attrs.renamedFrom = g.attrs.renamedFrom := by
  have hr : f.attrs.renamedFrom.map (fun s => s) = g.attrs.renamedFrom.map (fun s => s) :=
    congrArg (fun x : Field => x.attrs.renamedFrom) h
  simpa using hr

theorem Field.default_of_read {f g : Field} (h : f.read .bare = g.read .bare) :
    f.default = g.default := by
  have hd : f.default.map (DefaultValue.read .bare) = g.default.map (DefaultValue.read .bare) :=
    congrArg Field.default h
  simpa [DefaultValue.map_read_bare] using hd

namespace SameButLayout

variable {s t : Schema}

theorem symm (h : SameButLayout s t) : SameButLayout t s := Eq.symm h

theorem enums (h : SameButLayout s t) :
    s.enums.mapValues (EnumDef.read .bare) = t.enums.mapValues (EnumDef.read .bare) := by
  have he : (s.enums.filterKeys (fun _ => true)).mapValues (EnumDef.read .bare) =
      (t.enums.filterKeys (fun _ => true)).mapValues (EnumDef.read .bare) :=
    (congrArg Schema.enums h :)
  rwa [IndexMap.filterKeys_true, IndexMap.filterKeys_true] at he

theorem models (h : SameButLayout s t) :
    s.models.mapValues (Model.read .bare) = t.models.mapValues (Model.read .bare) := by
  have hm : (s.models.filterKeys (fun _ => true)).mapValues (Model.read .bare) =
      (t.models.filterKeys (fun _ => true)).mapValues (Model.read .bare) :=
    (congrArg Schema.models h :)
  rwa [IndexMap.filterKeys_true, IndexMap.filterKeys_true] at hm

theorem relations (h : SameButLayout s t) :
    s.relations.map (ResolvedRelation.read .bare) = t.relations.map (ResolvedRelation.read .bare) :=
  (congrArg Schema.relations h :)

theorem enum (h : SameButLayout s t) {n : EnumName} {e e' : EnumDef}
    (he : (n, e) ∈ s.enums.entries) (he' : (n, e') ∈ t.enums.entries) :
    e.variants.keys = e'.variants.keys := by
  obtain ⟨d, hd, hr⟩ := IndexMap.exists_of_mapValues_eq h.enums he
  rw [IndexMap.entry_unique he' hd]
  have hv : (e.variants.filterKeys (fun _ => true)).mapValues (EnumVariant.read .bare) =
      (d.variants.filterKeys (fun _ => true)).mapValues (EnumVariant.read .bare) :=
    (congrArg EnumDef.variants hr :)
  rw [IndexMap.filterKeys_true, IndexMap.filterKeys_true] at hv
  exact IndexMap.keys_eq_of_mapValues_eq hv

theorem model (h : SameButLayout s t) {n : ModelName} {m m' : Model}
    (hm : (n, m) ∈ s.models.entries) (hm' : (n, m') ∈ t.models.entries) :
    m.fields.mapValues (Field.read .bare) = m'.fields.mapValues (Field.read .bare) := by
  obtain ⟨d, hd, hr⟩ := IndexMap.exists_of_mapValues_eq h.models hm
  rw [IndexMap.entry_unique hm' hd]
  have hv : (m.fields.filterKeys (fun _ => true)).mapValues (Field.read .bare) =
      (d.fields.filterKeys (fun _ => true)).mapValues (Field.read .bare) :=
    (congrArg Model.fields hr :)
  rwa [IndexMap.filterKeys_true, IndexMap.filterKeys_true] at hv

theorem field (h : SameButLayout s t) {n : ModelName} {m m' : Model}
    (hm : (n, m) ∈ s.models.entries) (hm' : (n, m') ∈ t.models.entries) {k : FieldName}
    {f g : Field} (hf : (k, f) ∈ m.fields.entries) (hg : (k, g) ∈ m'.fields.entries) :
    f.read .bare = g.read .bare := by
  obtain ⟨d, hd, hr⟩ := IndexMap.exists_of_mapValues_eq (h.model hm hm') hf
  rwa [IndexMap.entry_unique hg hd]

end SameButLayout

namespace Diff

theorem foldl_insert_mapValues (f : ResolvedRelation → ResolvedRelation)
    (hf : ∀ r, (f r).name = r.name) (l : List ResolvedRelation)
    (m : IndexMap String ResolvedRelation) :
    (l.foldl (fun m r => m.insert r.name r) m).mapValues f =
      (l.map f).foldl (fun m r => m.insert r.name r) (m.mapValues f) := by
  induction l generalizing m with
  | nil => rfl
  | cons r rest ih =>
      simp only [List.foldl_cons, List.map_cons]
      rw [ih, IndexMap.insert_mapValues, hf]

theorem relationMap_of_sameButLayout {s t : Schema} (h : SameButLayout s t) :
    (relationMap s).mapValues (ResolvedRelation.read .bare) =
      (relationMap t).mapValues (ResolvedRelation.read .bare) := by
  have hkeys : ∀ u : Schema, (foreignKeys u).map (ResolvedRelation.read .bare) =
      (u.relations.map (ResolvedRelation.read .bare)).filter (fun r => r.kind ≠ .manyToMany) := by
    intro u
    rw [List.filter_map]
    rfl
  unfold relationMap
  rw [foldl_insert_mapValues (ResolvedRelation.read .bare) (fun _ => rfl),
    foldl_insert_mapValues (ResolvedRelation.read .bare) (fun _ => rfl), hkeys, hkeys, h.relations]

theorem relationChanged_of_read {p r : ResolvedRelation} (h : p.read .bare = r.read .bare) :
    relationChanged p r = false := by
  have howner : p.ownerCols.map (fun s => s) = r.ownerCols.map (fun s => s) :=
    (congrArg ResolvedRelation.ownerCols h :)
  have htarget : p.targetCols.map (fun s => s) = r.targetCols.map (fun s => s) :=
    (congrArg ResolvedRelation.targetCols h :)
  rw [List.map_id', List.map_id'] at howner htarget
  have hdelete : p.onDelete = r.onDelete := (congrArg ResolvedRelation.onDelete h :)
  have hupdate : p.onUpdate = r.onUpdate := (congrArg ResolvedRelation.onUpdate h :)
  have hmodel : p.target = r.target := (congrArg ResolvedRelation.target h :)
  have hname : p.constraintName = r.constraintName := (congrArg ResolvedRelation.constraintName h :)
  simp [relationChanged, hdelete, hupdate, hmodel, hname, howner, htarget]

-- No field of the next model asks to be renamed from a column of the previous one.
def NoHint (prev next : Model) : Prop :=
  ∀ n f, (n, f) ∈ next.fields.entries → f.hasColumn = true →
    ∀ old, f.attrs.renamedFrom = some old →
      ∀ g, (⟨old⟩, g) ∈ prev.fields.entries → g.hasColumn = false

theorem hints_eq_nil {prev next : Model} : hints prev next = [] ↔ NoHint prev next := by
  unfold hints NoHint
  simp only [List.filterMap_eq_nil_iff, Prod.forall]
  constructor
  · intro h n f hf hc old ho g hg
    have := h n f hf
    simp only [ho, IndexMap.get?_eq_some.mpr hg, hc] at this
    by_contra hgc
    simp [Bool.eq_true_of_not_eq_false hgc] at this
  · intro h n f hf
    cases ho : f.attrs.renamedFrom with
    | none => rfl
    | some old =>
        cases hg : prev.fields.get? ⟨old⟩ with
        | none => simp [hg]
        | some g =>
            by_cases hc : f.hasColumn = true
            · simp [hg, h n f hf hc old ho g (IndexMap.get?_eq_some.mp hg)]
            · simp [hg, hc]

-- No layout takes part in what a diff of the two schemas compares.
structure LayoutUnread (s t : Schema) : Prop where
  hints : ∀ n m m', (n, m) ∈ s.models.entries → (n, m') ∈ t.models.entries → NoHint m m'
  natives : ∀ n m m', (n, m) ∈ s.models.entries → (n, m') ∈ t.models.entries →
    ∀ k f g, (k, f) ∈ m.fields.entries → (k, g) ∈ m'.fields.entries → f.hasColumn = true →
      f.attrs.nativeType = g.attrs.nativeType
  indexes : ∀ n m m', (n, m) ∈ s.models.entries → (n, m') ∈ t.models.entries →
    ∀ ix, ix ∈ m.indexes ↔ ix ∈ m'.indexes
  uniques : ∀ n m m', (n, m) ∈ s.models.entries → (n, m') ∈ t.models.entries →
    ∀ uq, uq ∈ m.uniques ↔ uq ∈ m'.uniques

theorem LayoutUnread.symm {s t : Schema} (hsame : SameButLayout s t) (h : LayoutUnread s t) :
    LayoutUnread t s := by
  refine ⟨?_, ?_, ?_, ?_⟩
  · intro n m' m hm' hm k f hf hc old ho g hg
    obtain ⟨f', hf', hr⟩ := IndexMap.exists_of_mapValues_eq (hsame.model hm hm') hf
    obtain ⟨g', hg', hq⟩ := IndexMap.exists_of_mapValues_eq (hsame.model hm hm').symm hg
    have hold := h.hints n m m' hm hm' k f' hf' ((Field.hasColumn_of_read hr).symm.trans hc) old
      ((Field.renamedFrom_of_read hr).symm.trans ho) g' hg'
    exact (Field.hasColumn_of_read hq).trans hold
  · intro n m' m hm' hm k g f hg hf hc
    have hr := hsame.field hm hm' hf hg
    exact (h.natives n m m' hm hm' k f g hf hg ((Field.hasColumn_of_read hr).trans hc)).symm
  · exact fun n m' m hm' hm ix => (h.indexes n m m' hm hm' ix).symm
  · exact fun n m' m hm' hm uq => (h.uniques n m m' hm hm' uq).symm

theorem LayoutUnread.unchanged {s t : Schema} (hsame : SameButLayout s t) (h : LayoutUnread s t) :
    Unchanged s t where
  enums := fun n => by rw [IndexMap.keys_eq_of_mapValues_eq hsame.enums]
  variants := fun n e e' he he' w => by rw [hsame.enum he he']
  models := fun n => by rw [IndexMap.keys_eq_of_mapValues_eq hsame.models]
  columns := by
    intro n m m' hm hm'
    have hkeys := IndexMap.keys_eq_of_mapValues_eq (hsame.model hm hm')
    refine ⟨hints_eq_nil.mpr (h.hints n m m' hm hm'), ?_, ?_, ?_⟩
    · exact fun k f hf _ => hkeys ▸ IndexMap.mem_keys.mpr ⟨f, hf⟩
    · exact fun k f hf _ => hkeys ▸ IndexMap.mem_keys.mpr ⟨f, hf⟩
    · intro k f g hf hg hfc hgc
      have hr := hsame.field hm hm' hf hg
      refine ⟨Field.column_of_read hr, columnAspects_eq_nil.mpr ⟨Field.kind_of_read hr hfc hgc,
        h.natives n m m' hm hm' k f g hf hg hfc, (congrArg Field.optional hr :), ?_⟩⟩
      rw [Field.default_of_read hr]
  indexes := h.indexes
  uniques := h.uniques
  relations := fun n => by
    rw [IndexMap.keys_eq_of_mapValues_eq (relationMap_of_sameButLayout hsame)]
  foreignKeys := by
    intro n p r hp hr
    obtain ⟨q, hq, heq⟩ := IndexMap.exists_of_mapValues_eq (relationMap_of_sameButLayout hsame) hp
    rw [IndexMap.entry_unique hr hq]
    exact relationChanged_of_read heq

theorem Unchanged.layoutUnread {s t : Schema} (hsame : SameButLayout s t) (h : Unchanged s t) :
    LayoutUnread s t := by
  refine ⟨?_, ?_, h.indexes, h.uniques⟩
  · exact fun n m m' hm hm' => hints_eq_nil.mp (h.columns n m m' hm hm').noHint
  · intro n m m' hm hm' k f g hf hg hfc
    have hr := hsame.field hm hm' hf hg
    have hgc := (Field.hasColumn_of_read hr).symm.trans hfc
    exact (columnAspects_eq_nil.mp ((h.columns n m m' hm hm').same k f g hf hg hfc hgc).2).2.1

theorem diff_nil_iff {host : Host} {s t : Schema} (hsame : SameButLayout s t) :
    (diff host s t = [] ∧ diff host t s = []) ↔ LayoutUnread s t := by
  rw [diff_eq_nil, diff_eq_nil]
  constructor
  · rintro ⟨h, _⟩
    exact h.layoutUnread hsame
  · intro h
    exact ⟨h.unchanged hsame, (h.symm hsame).unchanged hsame.symm⟩

-- A diff sees the layout of a file in the spans of indexes, unique constraints
-- and native types, and takes a rename hint for a change; the fingerprint sees
-- the doc comments and no other part of the layout.
theorem layout_seen_iff (host : Host) (s t : Schema) (hsame : SameButLayout s t) :
    ((diff host s t = [] ∧ diff host t s = []) ↔ LayoutUnread s t) ∧
      (s.read .hashed = t.read .hashed ↔ s.docsRead .hashed = t.docsRead .hashed) :=
  ⟨diff_nil_iff hsame, Schema.read_eq_iff .hashed hsame⟩

-- A model with one index, the index at the given place in the file.
def indexedAt (place : Span) : Ast :=
  Build.schema "postgres"
    [Build.model "User" [Build.idField, Build.field "email" "String" .required []]
      [⟨"index", [.positional (Build.names ["email"])], place⟩]]

theorem layout_seen_iff_indexed :
    (diff Host.std (indexedAt ⟨80, 97⟩).lowered (indexedAt ⟨81, 98⟩).lowered = [] ∧
      diff Host.std (indexedAt ⟨81, 98⟩).lowered (indexedAt ⟨80, 97⟩).lowered = [] ↔
        LayoutUnread (indexedAt ⟨80, 97⟩).lowered (indexedAt ⟨81, 98⟩).lowered) ∧
      ((indexedAt ⟨80, 97⟩).lowered.read .hashed = (indexedAt ⟨81, 98⟩).lowered.read .hashed ↔
        (indexedAt ⟨80, 97⟩).lowered.docsRead .hashed =
          (indexedAt ⟨81, 98⟩).lowered.docsRead .hashed) :=
  layout_seen_iff Host.std _ _ (by decide +kernel)

-- A blank line above the index: the index is created again and dropped.
theorem moved_index_is_a_change :
    Accepted (indexedAt ⟨80, 97⟩).lowered ∧ Accepted (indexedAt ⟨81, 98⟩).lowered ∧
      SameButLayout (indexedAt ⟨80, 97⟩).lowered (indexedAt ⟨81, 98⟩).lowered ∧
      diff Host.std (indexedAt ⟨80, 97⟩).lowered (indexedAt ⟨81, 98⟩).lowered =
        [.createIndex ⟨"User"⟩ ⟨"users_email_idx", [.field ⟨"email"⟩ .asc], none, none, ⟨81, 98⟩⟩,
          .dropIndex ⟨"User"⟩ "users_email_idx"] :=
  ⟨accepted_lowered (by decide +kernel), accepted_lowered (by decide +kernel),
    by decide +kernel, by decide +kernel⟩

end Diff

end Ruprizzle
