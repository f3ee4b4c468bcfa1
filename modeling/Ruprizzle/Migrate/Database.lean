import Mathlib.Data.Set.Basic
import Ruprizzle.Dialect.Incremental
import Ruprizzle.Migrate.ForeignKeys
import Ruprizzle.Migrate.NoChange

namespace Ruprizzle

-- The database a schema describes. The order of columns and of constraints
-- says nothing, the order of labels is the order of the values of a type.

structure ColumnImage where
  name : String
  kind : FieldKind
  nativeType : Option (String × List String)
  nullable : Bool
  default : Option DefaultValue
  generated : Option GeneratedClause
  key : Bool
  unique : Bool

inductive TargetImage
  | column (name : String) (order : SortOrder)
  | expression (sql : String)

structure UniqueImage where
  name : String
  targets : List TargetImage

structure IndexImage where
  name : String
  targets : List TargetImage
  indexType : Option IndexType
  whereClause : Option String

structure KeyImage where
  columns : List String
  name : Option String

structure ForeignKeyImage where
  name : String
  columns : List String
  table : String
  references : List String
  onDelete : ReferentialAction
  onUpdate : ReferentialAction

structure TableImage where
  table : String
  columns : Set ColumnImage
  primaryKey : KeyImage
  uniques : Set UniqueImage
  indexes : Set IndexImage
  foreignKeys : Set ForeignKeyImage

-- A default is its value, however its number is written.
def Field.image (f : Field) : ColumnImage where
  name := f.column
  kind := f.kind
  nativeType := f.attrs.nativeType.map (fun t => (t.name, t.args))
  nullable := f.optional
  default := f.default.map DefaultValue.canon
  generated := f.generated
  key := f.attrs.isId
  unique := f.attrs.isUnique && !f.attrs.isId

namespace Model

def columnOf (m : Model) (n : FieldName) : String := ((m.fields.get? n).map Field.column).getD n.str

def targetImage (m : Model) : IndexTarget → TargetImage
  | .field n order => .column (m.columnOf n) order
  | .expression sql => .expression sql

def uniqueImage (m : Model) (uq : UniqueDef) : UniqueImage :=
  ⟨uq.dbName, uq.targets.map m.targetImage⟩

def indexImage (m : Model) (ix : IndexDef) : IndexImage :=
  ⟨ix.dbName, ix.targets.map m.targetImage, ix.indexType, ix.whereClause⟩

def keyImage (m : Model) : KeyImage :=
  ⟨m.primaryKey.fields.map m.columnOf, if m.primaryKey.isComposite then
    some (m.primaryKey.name.getD (m.table ++ "_pkey")) else none⟩

end Model

def ResolvedRelation.image (r : ResolvedRelation) : ForeignKeyImage :=
  ⟨r.constraintName, r.ownerCols, r.targetTable, r.targetCols, r.onDelete, r.onUpdate⟩

namespace Schema

def tableImage (s : Schema) (m : Model) : TableImage where
  table := m.table
  columns := {c | ∃ f ∈ m.scalarFields, c = f.image}
  primaryKey := m.keyImage
  uniques := {u | ∃ uq ∈ m.uniques, u = m.uniqueImage uq}
  indexes := {i | ∃ ix ∈ m.indexes, i = m.indexImage ix}
  foreignKeys := {k | ∃ r ∈ Diff.foreignKeys s, r.owner = m.name ∧ k = r.image}

def tables (s : Schema) : Set TableImage := {t | ∃ m ∈ s.models.values, t = s.tableImage m}

def enumTypes (s : Schema) : Set (String × List String) :=
  {t | ∃ e ∈ s.enums.values, t = (e.dbName, e.variants.values.map EnumVariant.dbName)}

end Schema

structure SameDatabase (prev next : Schema) : Prop where
  tables : prev.tables = next.tables
  enums : prev.enumTypes = next.enumTypes

namespace Diff

-- A column field of one model whose namesake in the other has no column.
def Flipped (m m' : Model) (f : Field) : Prop :=
  f ∈ m.scalarFields ∧ ∀ g, (f.name, g) ∈ m'.fields.entries → g.hasColumn = false

-- What the comparison of two models leaves out.
structure ModelsAgree (prev next : Schema) (m m' : Model) : Prop where
  columns : ∀ n f g, (n, f) ∈ m.fields.entries → (n, g) ∈ m'.fields.entries → f.hasColumn = true →
    g.hasColumn = true → f.generated = g.generated ∧ f.attrs.isId = g.attrs.isId ∧
      (f.attrs.isId = false → f.attrs.isUnique = g.attrs.isUnique)
  flipped : ∀ f, Flipped m m' f → ∃ g, Flipped m' m g ∧ g.image = f.image
  flipped' : ∀ g, Flipped m' m g → ∃ f, Flipped m m' f ∧ f.image = g.image
  primaryKey : m.keyImage = m'.keyImage
  keys : ∀ p ∈ foreignKeys prev, p.owner = m.name →
    (¬ ∃ r, (p, r) ∈ paired prev next ∧ r.owner = p.owner ∧ r.targetTable = p.targetTable) →
      ∃ r ∈ foreignKeys next, r.owner = m.name ∧ r.image = p.image
  keys' : ∀ r ∈ foreignKeys next, r.owner = m.name →
    (¬ ∃ p, (p, r) ∈ paired prev next ∧ r.owner = p.owner ∧ r.targetTable = p.targetTable) →
      ∃ p ∈ foreignKeys prev, p.owner = m.name ∧ p.image = r.image

-- What a diff does not look at.
structure UnseenAgree (prev next : Schema) : Prop where
  labels : ∀ name e e', (name, e) ∈ prev.enums.entries → (name, e') ∈ next.enums.entries →
    e.variants.values.map EnumVariant.dbName = e'.variants.values.map EnumVariant.dbName
  tables : ∀ t, t ∈ prev.models.values.map Model.table ↔ t ∈ next.models.values.map Model.table
  models : ∀ m ∈ prev.models.values, ∀ m' ∈ next.models.values, m.table = m'.table →
    (m.name = m'.name → ModelsAgree prev next m m') ∧
      (m.name ≠ m'.name → prev.tableImage m = next.tableImage m')

-- Collections of things with names of their own are the same when the names
-- are and what has one name is.
theorem image_sets_eq_iff {α β γ κ : Type} {s : List α} {t : List β} {f : α → γ} {g : β → γ}
    {a : α → κ} {b : β → κ} {c : γ → κ} (hf : ∀ x ∈ s, c (f x) = a x)
    (hg : ∀ y ∈ t, c (g y) = b y) (ht : (t.map b).Nodup) :
    ({z | ∃ x ∈ s, z = f x} : Set γ) = {z | ∃ y ∈ t, z = g y} ↔
      (∀ k, k ∈ s.map a ↔ k ∈ t.map b) ∧ ∀ x ∈ s, ∀ y ∈ t, a x = b y → f x = g y := by
  constructor
  · intro h
    have hto : ∀ x ∈ s, ∃ y ∈ t, f x = g y := fun x hx =>
      (Set.ext_iff.mp h (f x)).mp ⟨x, hx, rfl⟩
    have hback : ∀ y ∈ t, ∃ x ∈ s, g y = f x := fun y hy =>
      (Set.ext_iff.mp h (g y)).mpr ⟨y, hy, rfl⟩
    refine ⟨fun k => ⟨?_, ?_⟩, ?_⟩
    · intro hk
      obtain ⟨x, hx, rfl⟩ := List.mem_map.mp hk
      obtain ⟨y, hy, hxy⟩ := hto x hx
      exact List.mem_map.mpr ⟨y, hy, by rw [← hg y hy, ← hxy, hf x hx]⟩
    · intro hk
      obtain ⟨y, hy, rfl⟩ := List.mem_map.mp hk
      obtain ⟨x, hx, hxy⟩ := hback y hy
      exact List.mem_map.mpr ⟨x, hx, by rw [← hf x hx, ← hxy, hg y hy]⟩
    · intro x hx y hy hxy
      obtain ⟨y', hy', heq⟩ := hto x hx
      have hkey : b y' = b y := by rw [← hg y' hy', ← heq, hf x hx, hxy]
      rw [heq, List.inj_on_of_nodup_map ht hy' hy hkey]
  · rintro ⟨hk, hsame⟩
    ext z
    constructor
    · rintro ⟨x, hx, rfl⟩
      obtain ⟨y, hy, hxy⟩ := List.mem_map.mp ((hk (a x)).mp (List.mem_map.mpr ⟨x, hx, rfl⟩))
      exact ⟨y, hy, hsame x hx y hy hxy.symm⟩
    · rintro ⟨y, hy, rfl⟩
      obtain ⟨x, hx, hxy⟩ := List.mem_map.mp ((hk (b y)).mpr (List.mem_map.mpr ⟨y, hy, rfl⟩))
      exact ⟨x, hx, (hsame x hx y hy hxy).symm⟩

section Unchanged

variable {prev next : Schema}

theorem enum_of_type (hp : prev.WellFormed) (hn : next.WellFormed) (h : Unchanged prev next)
    {e e' : EnumDef} (he : e ∈ prev.enums.values) (he' : e' ∈ next.enums.values)
    (htype : e.dbName = e'.dbName) :
    ∃ name, (name, e) ∈ prev.enums.entries ∧ (name, e') ∈ next.enums.entries := by
  obtain ⟨name, hentry⟩ := IndexMap.mem_values.mp he
  obtain ⟨e'', hentry'⟩ := IndexMap.mem_keys.mp ((h.enums name).mp (IndexMap.mem_keys.mpr ⟨e, hentry⟩))
  have hmem := IndexMap.mem_values.mpr ⟨name, hentry'⟩
  have hsame : e''.dbName = e'.dbName := by
    rw [← htype, hn.enumTyped e'' hmem, hp.enumTyped e he, hn.enumNamed _ _ hentry',
      hp.enumNamed _ _ hentry]
  rw [List.inj_on_of_nodup_map hn.enumTypes hmem he' hsame] at hentry'
  exact ⟨name, hentry, hentry'⟩

theorem enumTypes_eq_iff (hp : prev.WellFormed) (hn : next.WellFormed) (h : Unchanged prev next) :
    prev.enumTypes = next.enumTypes ↔
      ∀ name e e', (name, e) ∈ prev.enums.entries → (name, e') ∈ next.enums.entries →
        e.variants.values.map EnumVariant.dbName = e'.variants.values.map EnumVariant.dbName := by
  have htype : ∀ {name e e'}, (name, e) ∈ prev.enums.entries → (name, e') ∈ next.enums.entries →
      e.dbName = e'.dbName := by
    intro name e e' he he'
    rw [hp.enumTyped e (IndexMap.mem_values.mpr ⟨_, he⟩),
      hn.enumTyped e' (IndexMap.mem_values.mpr ⟨_, he'⟩), hp.enumNamed _ _ he, hn.enumNamed _ _ he']
  unfold Schema.enumTypes
  rw [image_sets_eq_iff (c := Prod.fst) (a := EnumDef.dbName) (b := EnumDef.dbName)
    (fun _ _ => rfl) (fun _ _ => rfl) hn.enumTypes]
  constructor
  · rintro ⟨_, hsame⟩ name e e' he he'
    exact congrArg Prod.snd (hsame e (IndexMap.mem_values.mpr ⟨_, he⟩) e'
      (IndexMap.mem_values.mpr ⟨_, he'⟩) (htype he he'))
  · intro hlabels
    refine ⟨fun k => ⟨?_, ?_⟩, ?_⟩
    · intro hk
      obtain ⟨e, he, rfl⟩ := List.mem_map.mp hk
      obtain ⟨name, hentry⟩ := IndexMap.mem_values.mp he
      obtain ⟨e', he'⟩ := IndexMap.mem_keys.mp
        ((h.enums name).mp (IndexMap.mem_keys.mpr ⟨e, hentry⟩))
      exact List.mem_map.mpr ⟨e', IndexMap.mem_values.mpr ⟨_, he'⟩, (htype hentry he').symm⟩
    · intro hk
      obtain ⟨e', he', rfl⟩ := List.mem_map.mp hk
      obtain ⟨name, hentry⟩ := IndexMap.mem_values.mp he'
      obtain ⟨e, he⟩ := IndexMap.mem_keys.mp
        ((h.enums name).mpr (IndexMap.mem_keys.mpr ⟨e', hentry⟩))
      exact List.mem_map.mpr ⟨e, IndexMap.mem_values.mpr ⟨_, he⟩, htype he hentry⟩
    · intro e he e' he' heq
      obtain ⟨name, hentry, hentry'⟩ := enum_of_type hp hn h he he' heq
      rw [heq, hlabels name e e' hentry hentry']

theorem tables_eq_iff (hn : next.WellFormed) : prev.tables = next.tables ↔
    (∀ t, t ∈ prev.models.values.map Model.table ↔ t ∈ next.models.values.map Model.table) ∧
      ∀ m ∈ prev.models.values, ∀ m' ∈ next.models.values, m.table = m'.table →
        prev.tableImage m = next.tableImage m' :=
  image_sets_eq_iff (c := TableImage.table) (fun _ _ => rfl) (fun _ _ => rfl) hn.tables

end Unchanged

section Models

variable {prev next : Schema} {name : ModelName} {m m' : Model}

theorem mem_scalarFields (hs : prev.WellFormed) (hm : (name, m) ∈ prev.models.entries) {f : Field} :
    f ∈ m.scalarFields ↔ (f.name, f) ∈ m.fields.entries ∧ f.hasColumn = true := by
  unfold Model.scalarFields
  rw [List.mem_filter, IndexMap.mem_values]
  constructor
  · rintro ⟨⟨n, hf⟩, hcol⟩
    rw [(hs.named _ _ hm).2 n f hf]
    exact ⟨hf, hcol⟩
  · rintro ⟨hf, hcol⟩
    exact ⟨⟨_, hf⟩, hcol⟩

theorem columns_nodup (hs : prev.WellFormed) (hm : (name, m) ∈ prev.models.entries) :
    (m.scalarFields.map Field.column).Nodup :=
  hs.columns m (IndexMap.mem_values.mpr ⟨_, hm⟩)

-- The attributes of a column a diff compares leave three to agree on.
theorem image_eq_iff {f g : Field} (hcol : f.column = g.column) (hsame : columnAspects f g = []) :
    f.image = g.image ↔ f.generated = g.generated ∧ f.attrs.isId = g.attrs.isId ∧
      (f.attrs.isId = false → f.attrs.isUnique = g.attrs.isUnique) := by
  obtain ⟨hk, hnt, ho, hd⟩ := columnAspects_eq_nil.mp hsame
  simp only [Field.image, ColumnImage.mk.injEq, hcol, hk, hnt, ho, hd, true_and]
  cases f.attrs.isId <;> cases g.attrs.isId <;> simp

-- The column fields of two models that share a field name share a column.
def ColumnsMatch (m m' : Model) : Prop :=
  ∀ n f g, (n, f) ∈ m.fields.entries → (n, g) ∈ m'.fields.entries → f.hasColumn = true →
    g.hasColumn = true → f.column = g.column

theorem ColumnsKept.columnsMatch (h : ColumnsKept m m') : ColumnsMatch m m' :=
  fun n f g hf hg hfc hgc => (h.same n f g hf hg hfc hgc).1

theorem ColumnsMatch.symm (h : ColumnsMatch m m') : ColumnsMatch m' m :=
  fun n f g hf hg hfc hgc => (h n g f hg hf hgc hfc).symm

-- What stands in the place of a flipped column is flipped itself.
theorem flipped_of_image (hp : prev.WellFormed) (hn : next.WellFormed)
    (hm : (name, m) ∈ prev.models.entries) (hm' : (name, m') ∈ next.models.entries)
    (hmatch : ColumnsMatch m m') {f g : Field} (hf : Flipped m m' f) (hg : g ∈ m'.scalarFields)
    (himage : g.image = f.image) : Flipped m' m g := by
  refine ⟨hg, fun f' hf' => ?_⟩
  by_contra hcol'
  have hcol' : f'.hasColumn = true := by simpa using hcol'
  obtain ⟨hg', hgcol⟩ := (mem_scalarFields hn hm').mp hg
  have hcolumn := hmatch _ f' g hf' hg' hcol' hgcol
  have hname := (hp.named _ _ hm).2 _ _ hf'
  have hfield : f' ∈ m.scalarFields :=
    (mem_scalarFields hp hm).mpr ⟨by rwa [hname], hcol'⟩
  have hff : f' = f := by
    refine List.inj_on_of_nodup_map (columns_nodup hp hm) hfield hf.1 ?_
    rw [hcolumn]
    exact (congrArg ColumnImage.name himage :)
  subst hff
  rw [hf.2 g (by rw [hname]; exact hg')] at hgcol
  cases hgcol

-- A column field has a namesake among the columns, or is flipped.
theorem namesake_or_flipped {f : Field} (hf : f ∈ m.scalarFields) :
    (∃ g, (f.name, g) ∈ m'.fields.entries ∧ g.hasColumn = true) ∨ Flipped m m' f := by
  by_cases h : ∃ g, (f.name, g) ∈ m'.fields.entries ∧ g.hasColumn = true
  · exact Or.inl h
  · refine Or.inr ⟨hf, fun g hg => ?_⟩
    by_contra hcol
    exact h ⟨g, hg, by simpa using hcol⟩

theorem columns_eq_iff (hp : prev.WellFormed) (hn : next.WellFormed)
    (hm : (name, m) ∈ prev.models.entries) (hm' : (name, m') ∈ next.models.entries)
    (hkept : ColumnsKept m m') :
    (prev.tableImage m).columns = (next.tableImage m').columns ↔
      (∀ n f g, (n, f) ∈ m.fields.entries → (n, g) ∈ m'.fields.entries → f.hasColumn = true →
        g.hasColumn = true → f.generated = g.generated ∧ f.attrs.isId = g.attrs.isId ∧
          (f.attrs.isId = false → f.attrs.isUnique = g.attrs.isUnique)) ∧
      (∀ f, Flipped m m' f → ∃ g, Flipped m' m g ∧ g.image = f.image) ∧
      ∀ g, Flipped m' m g → ∃ f, Flipped m m' f ∧ f.image = g.image := by
  have hmatch := hkept.columnsMatch
  constructor
  · intro h
    have hto : ∀ f ∈ m.scalarFields, ∃ g ∈ m'.scalarFields, f.image = g.image := fun f hf =>
      (Set.ext_iff.mp h f.image).mp ⟨f, hf, rfl⟩
    have hback : ∀ g ∈ m'.scalarFields, ∃ f ∈ m.scalarFields, g.image = f.image := fun g hg =>
      (Set.ext_iff.mp h g.image).mpr ⟨g, hg, rfl⟩
    refine ⟨?_, ?_, ?_⟩
    · intro n f g hf hg hfc hgc
      obtain ⟨hcol, hsame⟩ := hkept.same n f g hf hg hfc hgc
      refine (image_eq_iff hcol hsame).mp ?_
      have hfs : f ∈ m.scalarFields :=
        (mem_scalarFields hp hm).mpr ⟨by rwa [(hp.named _ _ hm).2 _ _ hf], hfc⟩
      have hgs : g ∈ m'.scalarFields :=
        (mem_scalarFields hn hm').mpr ⟨by rwa [(hn.named _ _ hm').2 _ _ hg], hgc⟩
      obtain ⟨g', hg', himage⟩ := hto f hfs
      have hgg : g' = g := by
        refine List.inj_on_of_nodup_map (columns_nodup hn hm') hg' hgs ?_
        rw [← hcol]
        exact (congrArg ColumnImage.name himage.symm :)
      rw [himage, hgg]
    · intro f hf
      obtain ⟨g, hg, himage⟩ := hto f hf.1
      exact ⟨g, flipped_of_image hp hn hm hm' hmatch hf hg himage.symm, himage.symm⟩
    · intro g hg
      obtain ⟨f, hf, himage⟩ := hback g hg.1
      exact ⟨f, flipped_of_image hn hp hm' hm hmatch.symm hg hf himage.symm, himage.symm⟩
  · rintro ⟨hpair, hflip, hflip'⟩
    ext c
    constructor
    · rintro ⟨f, hf, rfl⟩
      rcases @namesake_or_flipped m m' f hf with ⟨g, hg, hgc⟩ | hf'
      · obtain ⟨hfe, hfc⟩ := (mem_scalarFields hp hm).mp hf
        obtain ⟨hcol, hsame⟩ := hkept.same _ f g hfe hg hfc hgc
        exact ⟨g, (mem_scalarFields hn hm').mpr ⟨by rwa [(hn.named _ _ hm').2 _ _ hg], hgc⟩,
          (image_eq_iff hcol hsame).mpr (hpair _ f g hfe hg hfc hgc)⟩
      · obtain ⟨g, hg, himage⟩ := hflip f hf'
        exact ⟨g, hg.1, himage.symm⟩
    · rintro ⟨g, hg, rfl⟩
      rcases @namesake_or_flipped m' m g hg with ⟨f, hf, hfc⟩ | hg'
      · obtain ⟨hge, hgc⟩ := (mem_scalarFields hn hm').mp hg
        obtain ⟨hcol, hsame⟩ := hkept.same _ f g hf hge hfc hgc
        exact ⟨f, (mem_scalarFields hp hm).mpr ⟨by rwa [(hp.named _ _ hm).2 _ _ hf], hfc⟩,
          ((image_eq_iff hcol hsame).mpr (hpair _ f g hf hge hfc hgc)).symm⟩
      · obtain ⟨f, hf, himage⟩ := hflip' g hg'
        exact ⟨f, hf.1, himage.symm⟩

-- Indexes and unique constraints name fields that have a column on both sides.
theorem targetImages_eq (hp : prev.WellFormed) (hn : next.WellFormed)
    (hm : (name, m) ∈ prev.models.entries) (hm' : (name, m') ∈ next.models.entries)
    (hkept : ColumnsKept m m') {targets : List IndexTarget}
    (ht : targets ∈ m.indexes.map IndexDef.targets ++ m.uniques.map UniqueDef.targets)
    (ht' : targets ∈ m'.indexes.map IndexDef.targets ++ m'.uniques.map UniqueDef.targets) :
    targets.map m.targetImage = targets.map m'.targetImage := by
  refine List.map_congr_left fun target htarget => ?_
  cases target with
  | expression sql => rfl
  | field n order =>
      obtain ⟨f, hf, hfc⟩ := hp.indexable m (IndexMap.mem_values.mpr ⟨_, hm⟩) targets ht n order htarget
      obtain ⟨g, hg, hgc⟩ :=
        hn.indexable m' (IndexMap.mem_values.mpr ⟨_, hm'⟩) targets ht' n order htarget
      have hcol := hkept.columnsMatch n f g (IndexMap.get?_eq_some.mp hf)
        (IndexMap.get?_eq_some.mp hg) hfc hgc
      simp [Model.targetImage, Model.columnOf, hf, hg, hcol]

theorem uniques_eq (hp : prev.WellFormed) (hn : next.WellFormed)
    (hm : (name, m) ∈ prev.models.entries) (hm' : (name, m') ∈ next.models.entries)
    (hkept : ColumnsKept m m') (h : ∀ uq, uq ∈ m.uniques ↔ uq ∈ m'.uniques) :
    (prev.tableImage m).uniques = (next.tableImage m').uniques := by
  have himage : ∀ uq ∈ m.uniques, m.uniqueImage uq = m'.uniqueImage uq := by
    intro uq huq
    unfold Model.uniqueImage
    rw [targetImages_eq hp hn hm hm' hkept]
    · exact List.mem_append_right _ (List.mem_map_of_mem huq)
    · exact List.mem_append_right _ (List.mem_map_of_mem ((h uq).mp huq))
  ext u
  constructor
  · rintro ⟨uq, huq, rfl⟩
    exact ⟨uq, (h uq).mp huq, himage uq huq⟩
  · rintro ⟨uq, huq, rfl⟩
    exact ⟨uq, (h uq).mpr huq, (himage uq ((h uq).mpr huq)).symm⟩

theorem indexes_eq (hp : prev.WellFormed) (hn : next.WellFormed)
    (hm : (name, m) ∈ prev.models.entries) (hm' : (name, m') ∈ next.models.entries)
    (hkept : ColumnsKept m m') (h : ∀ ix, ix ∈ m.indexes ↔ ix ∈ m'.indexes) :
    (prev.tableImage m).indexes = (next.tableImage m').indexes := by
  have himage : ∀ ix ∈ m.indexes, m.indexImage ix = m'.indexImage ix := by
    intro ix hix
    unfold Model.indexImage
    rw [targetImages_eq hp hn hm hm' hkept]
    · exact List.mem_append_left _ (List.mem_map_of_mem hix)
    · exact List.mem_append_left _ (List.mem_map_of_mem ((h ix).mp hix))
  ext i
  constructor
  · rintro ⟨ix, hix, rfl⟩
    exact ⟨ix, (h ix).mp hix, himage ix hix⟩
  · rintro ⟨ix, hix, rfl⟩
    exact ⟨ix, (h ix).mpr hix, (himage ix ((h ix).mpr hix)).symm⟩

theorem relation_image_eq {p r : ResolvedRelation} (hc : relationChanged p r = false)
    (ht : r.targetTable = p.targetTable) : r.image = p.image := by
  simp only [relationChanged, decide_eq_false_iff_not, not_or, not_not] at hc
  obtain ⟨hd, hu, hoc, _, htc, hcn⟩ := hc
  simp [ResolvedRelation.image, hd, hu, hoc, htc, hcn, ht]

theorem not_changed_of_paired (h : Unchanged prev next) {p r : ResolvedRelation}
    (hpair : (p, r) ∈ paired prev next) : relationChanged p r = false := by
  obtain ⟨hp, hr, hname⟩ := mem_paired.mp hpair
  exact h.foreignKeys p.name p r (mem_relationMap.mpr ⟨hp, rfl⟩)
    (mem_relationMap.mpr ⟨hr, hname.symm⟩)

theorem mem_foreignKeys_of_mem_visible {s : Schema} {r : ResolvedRelation} (h : r ∈ visible s) :
    r ∈ foreignKeys s := by
  rw [← Multiset.mem_coe, foreignKeys_eq]
  exact Multiset.mem_add.mpr (Or.inl h)

-- Only the foreign keys a diff does not compare in full need a match.
theorem foreignKeys_eq_iff (h : Unchanged prev next) (hname : m.name = m'.name) :
    (prev.tableImage m).foreignKeys = (next.tableImage m').foreignKeys ↔
      (∀ p ∈ foreignKeys prev, p.owner = m.name →
        (¬ ∃ r, (p, r) ∈ paired prev next ∧ r.owner = p.owner ∧ r.targetTable = p.targetTable) →
          ∃ r ∈ foreignKeys next, r.owner = m.name ∧ r.image = p.image) ∧
      ∀ r ∈ foreignKeys next, r.owner = m.name →
        (¬ ∃ p, (p, r) ∈ paired prev next ∧ r.owner = p.owner ∧ r.targetTable = p.targetTable) →
          ∃ p ∈ foreignKeys prev, p.owner = m.name ∧ p.image = r.image := by
  constructor
  · intro heq
    refine ⟨fun p hp ho _ => ?_, fun r hr ho _ => ?_⟩
    · obtain ⟨r, hr, hro, himage⟩ := (Set.ext_iff.mp heq p.image).mp ⟨p, hp, ho, rfl⟩
      exact ⟨r, hr, hro.trans hname.symm, himage.symm⟩
    · obtain ⟨p, hp, hpo, himage⟩ := (Set.ext_iff.mp heq r.image).mpr ⟨r, hr, ho.trans hname, rfl⟩
      exact ⟨p, hp, hpo, himage.symm⟩
  · rintro ⟨hto, hback⟩
    ext k
    constructor
    · rintro ⟨p, hp, ho, rfl⟩
      by_cases hstay : ∃ r, (p, r) ∈ paired prev next ∧ r.owner = p.owner ∧
          r.targetTable = p.targetTable
      · obtain ⟨r, hpair, hro, ht⟩ := hstay
        exact ⟨r, mem_foreignKeys_of_mem_visible (mem_paired.mp hpair).2.1,
          hro.trans (ho.trans hname), (relation_image_eq (not_changed_of_paired h hpair) ht).symm⟩
      · obtain ⟨r, hr, hro, himage⟩ := hto p hp ho hstay
        exact ⟨r, hr, hro.trans hname, himage.symm⟩
    · rintro ⟨r, hr, ho, rfl⟩
      by_cases hstay : ∃ p, (p, r) ∈ paired prev next ∧ r.owner = p.owner ∧
          r.targetTable = p.targetTable
      · obtain ⟨p, hpair, hro, ht⟩ := hstay
        exact ⟨p, mem_foreignKeys_of_mem_visible (mem_paired.mp hpair).1,
          hro.symm.trans (ho.trans hname.symm), relation_image_eq (not_changed_of_paired h hpair) ht⟩
      · obtain ⟨p, hp, hpo, himage⟩ := hback r hr (ho.trans hname.symm) hstay
        exact ⟨p, hp, hpo, himage.symm⟩

theorem tableImage_eq_iff (hp : prev.WellFormed) (hn : next.WellFormed) (h : Unchanged prev next)
    (hm : (name, m) ∈ prev.models.entries) (hm' : (name, m') ∈ next.models.entries)
    (htable : m.table = m'.table) :
    prev.tableImage m = next.tableImage m' ↔ ModelsAgree prev next m m' := by
  have hkept := h.columns name m m' hm hm'
  have hname : m.name = m'.name := by rw [(hp.named _ _ hm).1, (hn.named _ _ hm').1]
  have hcolumns := columns_eq_iff hp hn hm hm' hkept
  have hkeys := foreignKeys_eq_iff h hname
  constructor
  · intro heq
    obtain ⟨hc, hflip, hflip'⟩ := hcolumns.mp (congrArg TableImage.columns heq)
    obtain ⟨hk, hk'⟩ := hkeys.mp (congrArg TableImage.foreignKeys heq)
    exact ⟨hc, hflip, hflip', (congrArg TableImage.primaryKey heq :), hk, hk'⟩
  · intro hagree
    have hc := hcolumns.mpr ⟨hagree.columns, hagree.flipped, hagree.flipped'⟩
    have hk := hkeys.mpr ⟨hagree.keys, hagree.keys'⟩
    have hu := uniques_eq hp hn hm hm' hkept (h.uniques name m m' hm hm')
    have hi := indexes_eq hp hn hm hm' hkept (h.indexes name m m' hm hm')
    have hext : ∀ s t : TableImage, s.table = t.table → s.columns = t.columns →
        s.primaryKey = t.primaryKey → s.uniques = t.uniques → s.indexes = t.indexes →
          s.foreignKeys = t.foreignKeys → s = t := by
      rintro ⟨⟩ ⟨⟩ h1 h2 h3 h4 h5 h6
      exact TableImage.mk.injEq .. ▸ ⟨h1, h2, h3, h4, h5, h6⟩
    exact hext _ _ htable hc hagree.primaryKey hu hi hk

end Models

theorem sameDatabase_iff {prev next : Schema} (hp : prev.WellFormed) (hn : next.WellFormed)
    (h : Unchanged prev next) : SameDatabase prev next ↔ UnseenAgree prev next := by
  have hentry : ∀ {s : Schema} {m : Model}, s.WellFormed → m ∈ s.models.values →
      (m.name, m) ∈ s.models.entries := by
    intro s m hs hm
    obtain ⟨n, hn⟩ := IndexMap.mem_values.mp hm
    rwa [(hs.named _ _ hn).1]
  constructor
  · intro hsame
    obtain ⟨htables, himages⟩ := (tables_eq_iff hn).mp hsame.tables
    refine ⟨(enumTypes_eq_iff hp hn h).mp hsame.enums, htables, ?_⟩
    intro m hm m' hm' htable
    refine ⟨fun hname => ?_, fun _ => himages m hm m' hm' htable⟩
    exact (tableImage_eq_iff hp hn h (hentry hp hm) (hname ▸ hentry hn hm') htable).mp
      (himages m hm m' hm' htable)
  · intro hagree
    refine ⟨(tables_eq_iff hn).mpr ⟨hagree.tables, ?_⟩, (enumTypes_eq_iff hp hn h).mpr hagree.labels⟩
    intro m hm m' hm' htable
    by_cases hname : m.name = m'.name
    · exact (tableImage_eq_iff hp hn h (hentry hp hm) (hname ▸ hentry hn hm') htable).mpr
        ((hagree.models m hm m' hm' htable).1 hname)
    · exact (hagree.models m hm m' hm' htable).2 hname

end Diff

end Ruprizzle
