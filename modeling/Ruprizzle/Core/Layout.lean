import Ruprizzle.Core.Ir

namespace Ruprizzle

-- A reading of a schema forgets every span. It says what becomes of a text, of
-- a doc comment, and which entries of a map it sees.
structure Reading where
  text : String → String
  docs : Option String → Option String
  keep : String → Bool

namespace Reading

-- What is left of a schema without the layout of its file and its doc comments.
def bare : Reading := ⟨fun s => s, fun _ => none, fun _ => true⟩

def unixLines : List Char → List Char
  | '\r' :: '\n' :: rest => '\n' :: unixLines rest
  | c :: rest => c :: unixLines rest
  | [] => []

def normalise (s : String) : String := String.ofList (unixLines s.toList)

-- What the fingerprint hashes. It drops the key span of every JSON object, and
-- a map is an object whose keys are the names it maps.
def hashed : Reading := ⟨normalise, Option.map normalise, fun key => key ≠ "span"⟩

end Reading

variable (v : Reading)

def ModelName.read (n : ModelName) : ModelName := ⟨v.text n.str⟩

def FieldName.read (n : FieldName) : FieldName := ⟨v.text n.str⟩

def EnumName.read (n : EnumName) : EnumName := ⟨v.text n.str⟩

def DatasourceUrl.read : DatasourceUrl → DatasourceUrl
  | env var => env (v.text var)
  | literal url => literal (v.text url)

def Datasource.read (d : Datasource) : Datasource where
  name := v.text d.name
  provider := d.provider
  url := d.url.read v
  extensions := d.extensions.map v.text
  span := Span.EMPTY

def Generator.read (g : Generator) : Generator where
  name := v.text g.name
  output := v.text g.output
  moduleName := v.text g.moduleName
  maxIncludeDepth := g.maxIncludeDepth
  span := Span.EMPTY

def EnumVariant.read (e : EnumVariant) : EnumVariant where
  name := v.text e.name
  dbName := v.text e.dbName
  docs := v.docs e.docs
  span := Span.EMPTY

def EnumDef.read (e : EnumDef) : EnumDef where
  name := e.name.read v
  dbName := v.text e.dbName
  variants := (e.variants.filterKeys v.keep).mapValues (EnumVariant.read v)
  docs := v.docs e.docs
  span := Span.EMPTY

def RelationRef.read (r : RelationRef) : RelationRef where
  target := r.target.read v
  name := r.name.map v.text
  through := r.through.map (ModelName.read v)
  fields := r.fields.map (FieldName.read v)
  references := r.references.map (FieldName.read v)
  onDelete := r.onDelete
  onUpdate := r.onUpdate
  resolved := r.resolved
  span := Span.EMPTY

def FieldKind.read : FieldKind → FieldKind
  | scalar ty => scalar ty
  | enum name => enum (name.read v)
  | relation r => relation (r.read v)
  | list inner => list inner.read

def Literal.read : Literal → Literal
  | string s => string (v.text s)
  | enumVariant name => enumVariant (v.text name)
  | lit => lit

def DefaultValue.read : DefaultValue → DefaultValue
  | literal lit => literal (lit.read v)
  | function func => function func
  | dbGenerated sql => dbGenerated (v.text sql)

def NativeType.read (n : NativeType) : NativeType where
  name := v.text n.name
  args := n.args.map v.text
  span := Span.EMPTY

def GeneratedClause.read (g : GeneratedClause) : GeneratedClause := ⟨v.text g.expr, g.kind⟩

def FieldAttrs.read (a : FieldAttrs) : FieldAttrs :=
  { a with
    nativeType := a.nativeType.map (NativeType.read v)
    renamedFrom := a.renamedFrom.map v.text }

def Field.read (f : Field) : Field where
  name := f.name.read v
  column := v.text f.column
  kind := f.kind.read v
  optional := f.optional
  default := f.default.map (DefaultValue.read v)
  attrs := f.attrs.read v
  generated := f.generated.map (GeneratedClause.read v)
  docs := v.docs f.docs
  span := Span.EMPTY

def IndexTarget.read : IndexTarget → IndexTarget
  | field name order => field (name.read v) order
  | expression sql => expression (v.text sql)

def PrimaryKey.read (k : PrimaryKey) : PrimaryKey where
  fields := k.fields.map (FieldName.read v)
  name := k.name.map v.text
  span := Span.EMPTY

def IndexDef.read (ix : IndexDef) : IndexDef where
  dbName := v.text ix.dbName
  targets := ix.targets.map (IndexTarget.read v)
  indexType := ix.indexType
  whereClause := ix.whereClause.map v.text
  span := Span.EMPTY

def UniqueDef.read (uq : UniqueDef) : UniqueDef where
  dbName := v.text uq.dbName
  targets := uq.targets.map (IndexTarget.read v)
  span := Span.EMPTY

def Model.read (m : Model) : Model where
  name := m.name.read v
  table := v.text m.table
  fields := (m.fields.filterKeys (fun n => v.keep n.str)).mapValues (Field.read v)
  primaryKey := m.primaryKey.read v
  indexes := m.indexes.map (IndexDef.read v)
  uniques := m.uniques.map (UniqueDef.read v)
  docs := v.docs m.docs
  span := Span.EMPTY

def ResolvedRelation.read (r : ResolvedRelation) : ResolvedRelation where
  name := v.text r.name
  kind := r.kind
  owner := r.owner.read v
  ownerCols := r.ownerCols.map v.text
  ownerField := r.ownerField.read v
  target := r.target.read v
  targetTable := v.text r.targetTable
  targetCols := r.targetCols.map v.text
  targetField := r.targetField.map (FieldName.read v)
  onDelete := r.onDelete
  onUpdate := r.onUpdate
  optional := r.optional
  constraintName := v.text r.constraintName
  span := Span.EMPTY
  joinModel := r.joinModel.map (ModelName.read v)
  joinOwnerField := r.joinOwnerField.map (FieldName.read v)
  joinTargetField := r.joinTargetField.map (FieldName.read v)

def Schema.read (s : Schema) : Schema where
  version := s.version
  datasource := s.datasource.read v
  generator := s.generator.read v
  enums := (s.enums.filterKeys (fun n => v.keep n.str)).mapValues (EnumDef.read v)
  models := (s.models.filterKeys (fun n => v.keep n.str)).mapValues (Model.read v)
  relations := s.relations.map (ResolvedRelation.read v)

-- Equal but for source spans and doc comments.
def SameButLayout (s t : Schema) : Prop := s.read Reading.bare = t.read Reading.bare

instance (s t : Schema) : Decidable (SameButLayout s t) :=
  inferInstanceAs (Decidable (s.read Reading.bare = t.read Reading.bare))

-- Reading a schema without its layout first loses nothing but the doc comments.

@[simp] theorem ModelName.read_bare (n : ModelName) : n.read .bare = n := rfl

@[simp] theorem FieldName.read_bare (n : FieldName) : n.read .bare = n := rfl

@[simp] theorem Reading.text_bare (s : String) : Reading.bare.text s = s := rfl

theorem Reading.map_text_bare : Reading.bare.text = id := rfl

theorem ModelName.map_read_bare : ModelName.read .bare = id := rfl

theorem FieldName.map_read_bare : FieldName.read .bare = id := rfl

@[simp] theorem Datasource.read_read (d : Datasource) : (d.read .bare).read v = d.read v := by
  cases hu : d.url <;> simp [Datasource.read, DatasourceUrl.read, Reading.map_text_bare, hu]

@[simp] theorem Generator.read_read (g : Generator) : (g.read .bare).read v = g.read v := rfl

@[simp] theorem RelationRef.read_read (r : RelationRef) : (r.read .bare).read v = r.read v := by
  simp [RelationRef.read, Reading.map_text_bare, ModelName.map_read_bare, FieldName.map_read_bare]

@[simp] theorem FieldKind.read_read (k : FieldKind) : (k.read .bare).read v = k.read v := by
  induction k with
  | scalar ty => rfl
  | enum name => rfl
  | relation r => simp [FieldKind.read]
  | list inner ih => simp [FieldKind.read, ih]

@[simp] theorem DefaultValue.read_bare (d : DefaultValue) : d.read .bare = d := by
  cases d with
  | literal lit => cases lit <;> rfl
  | _ => rfl

theorem DefaultValue.map_read_bare : DefaultValue.read .bare = id := funext DefaultValue.read_bare

@[simp] theorem NativeType.read_read (n : NativeType) : (n.read .bare).read v = n.read v := by
  simp [NativeType.read, Reading.map_text_bare]

@[simp] theorem FieldAttrs.read_read (a : FieldAttrs) : (a.read .bare).read v = a.read v := by
  simp [FieldAttrs.read, Reading.map_text_bare, Function.comp_def]

@[simp] theorem GeneratedClause.read_read (g : GeneratedClause) :
    (g.read .bare).read v = g.read v := rfl

theorem IndexTarget.map_read_bare : IndexTarget.read .bare = id := by
  funext t
  cases t <;> rfl

@[simp] theorem PrimaryKey.read_read (k : PrimaryKey) : (k.read .bare).read v = k.read v := by
  simp [PrimaryKey.read, Reading.map_text_bare, FieldName.map_read_bare]

@[simp] theorem IndexDef.read_read (ix : IndexDef) : (ix.read .bare).read v = ix.read v := by
  simp [IndexDef.read, Reading.map_text_bare, IndexTarget.map_read_bare]

@[simp] theorem UniqueDef.read_read (uq : UniqueDef) : (uq.read .bare).read v = uq.read v := by
  simp [UniqueDef.read, IndexTarget.map_read_bare]

@[simp] theorem ResolvedRelation.read_read (r : ResolvedRelation) :
    (r.read .bare).read v = r.read v := by
  simp [ResolvedRelation.read, Reading.map_text_bare, ModelName.map_read_bare,
    FieldName.map_read_bare]

theorem Field.read_eq (f : Field) :
    f.read v = { (f.read .bare).read v with docs := v.docs f.docs } := by
  simp [Field.read, DefaultValue.map_read_bare, Function.comp_def]

theorem EnumVariant.read_eq (e : EnumVariant) :
    e.read v = { (e.read .bare).read v with docs := v.docs e.docs } := rfl

-- The doc comments a reading sees, in the order of the declarations.
def EnumDef.docsRead (e : EnumDef) : Option String × List (Option String) :=
  (v.docs e.docs, (e.variants.filterKeys v.keep).values.map (fun x => v.docs x.docs))

def Model.docsRead (m : Model) : Option String × List (Option String) :=
  (v.docs m.docs, (m.fields.filterKeys (fun n => v.keep n.str)).values.map (fun f => v.docs f.docs))

def Schema.docsRead (s : Schema) :
    List (Option String × List (Option String)) × List (Option String × List (Option String)) :=
  ((s.enums.filterKeys (fun n => v.keep n.str)).values.map (EnumDef.docsRead v),
    (s.models.filterKeys (fun n => v.keep n.str)).values.map (Model.docsRead v))

-- Elements that one function does not tell apart are told apart by the other
-- two alike: so are lists of them.
theorem map_eq_iff {α γ δ ε : Type} {f : α → γ} {g : α → δ} {h : α → ε}
    (hstep : ∀ a b, f a = f b → (g a = g b ↔ h a = h b)) {l l' : List α}
    (hf : l.map f = l'.map f) : l.map g = l'.map g ↔ l.map h = l'.map h := by
  induction l generalizing l' with
  | nil =>
      have hnil : l' = [] := by simpa using hf.symm
      simp [hnil]
  | cons a rest ih =>
      cases l' with
      | nil => simp at hf
      | cons b tail =>
          simp only [List.map_cons, List.cons.injEq] at hf ⊢
          rw [hstep a b hf.1, ih hf.2]

theorem IndexMap.read_eq_iff {κ α γ δ ε : Type} {m n : IndexMap κ α} {f : α → γ} {g : α → δ}
    {h : α → ε} (hstep : ∀ a b, f a = f b → (g a = g b ↔ h a = h b)) (keep : κ → Bool)
    (hf : m.mapValues f = n.mapValues f) :
    (m.filterKeys keep).mapValues g = (n.filterKeys keep).mapValues g ↔
      (m.filterKeys keep).values.map h = (n.filterKeys keep).values.map h := by
  have hfilter : ∀ u : IndexMap κ α, ((u.filterKeys keep).entries.map fun e => (e.1, f e.2)) =
      (u.mapValues f).entries.filter (fun e => keep e.1) := by
    intro u
    simp [List.filter_map, Function.comp_def]
  have hentries : ((m.filterKeys keep).entries.map fun e => (e.1, f e.2)) =
      (n.filterKeys keep).entries.map fun e => (e.1, f e.2) := by
    rw [hfilter, hfilter, hf]
  have hlist := map_eq_iff (f := fun e : κ × α => (e.1, f e.2)) (g := fun e => (e.1, g e.2))
    (h := fun e => h e.2) (by
      rintro ⟨k, a⟩ ⟨k', b⟩ he
      simp only [Prod.mk.injEq] at he ⊢
      rw [hstep a b he.2]
      exact ⟨fun x => x.2, fun x => ⟨he.1, x⟩⟩) hentries
  have hvalues : ∀ u : IndexMap κ α, u.values.map h = u.entries.map (fun e => h e.2) := by
    intro u
    simp [IndexMap.values]
  rw [hvalues, hvalues, ← hlist]
  exact ⟨fun he => congrArg IndexMap.entries he, fun he => IndexMap.ext_entries he⟩

-- A reading that sees no more than another tells no more apart.
theorem read_of_bare {α β γ : Type} {f : α → β} {g : α → γ} {g' : β → γ}
    (hg : ∀ a, g' (f a) = g a) {a b : α} (h : f a = f b) : g a = g b := by
  rw [← hg a, h, hg]

theorem map_of_bare {α β γ : Type} {f : α → β} {g : α → γ} {g' : β → γ}
    (hg : ∀ a, g' (f a) = g a) {l l' : List α} (h : l.map f = l'.map f) : l.map g = l'.map g := by
  have := congrArg (List.map g') h
  simpa only [List.map_map, Function.comp_def, hg] using this

theorem EnumVariant.read_eq_iff (a b : EnumVariant) (h : a.read .bare = b.read .bare) :
    a.read v = b.read v ↔ v.docs a.docs = v.docs b.docs := by
  rw [EnumVariant.read_eq v a, EnumVariant.read_eq v b, h]
  simp

theorem Field.read_eq_iff (a b : Field) (h : a.read .bare = b.read .bare) :
    a.read v = b.read v ↔ v.docs a.docs = v.docs b.docs := by
  rw [Field.read_eq v a, Field.read_eq v b, h]
  simp

theorem EnumDef.read_eq_iff (a b : EnumDef) (h : a.read .bare = b.read .bare) :
    a.read v = b.read v ↔ a.docsRead v = b.docsRead v := by
  have hname : a.name = b.name := (congrArg EnumDef.name h :)
  have hdb : a.dbName = b.dbName := (congrArg EnumDef.dbName h :)
  have hvariants : (a.variants.filterKeys (fun _ => true)).mapValues (EnumVariant.read .bare) =
      (b.variants.filterKeys (fun _ => true)).mapValues (EnumVariant.read .bare) :=
    (congrArg EnumDef.variants h :)
  rw [IndexMap.filterKeys_true, IndexMap.filterKeys_true] at hvariants
  have hiff := IndexMap.read_eq_iff (EnumVariant.read_eq_iff v) v.keep hvariants
  simp only [EnumDef.read, EnumDef.docsRead, EnumDef.mk.injEq, hname, hdb, true_and, and_true,
    Prod.mk.injEq, hiff]
  exact And.comm

theorem Model.read_eq_iff (a b : Model) (h : a.read .bare = b.read .bare) :
    a.read v = b.read v ↔ a.docsRead v = b.docsRead v := by
  have hname : a.name = b.name := (congrArg Model.name h :)
  have htable : a.table = b.table := (congrArg Model.table h :)
  have hkey : a.primaryKey.read v = b.primaryKey.read v :=
    read_of_bare (PrimaryKey.read_read v) (congrArg Model.primaryKey h :)
  have hindexes : a.indexes.map (IndexDef.read v) = b.indexes.map (IndexDef.read v) :=
    map_of_bare (IndexDef.read_read v) (congrArg Model.indexes h :)
  have huniques : a.uniques.map (UniqueDef.read v) = b.uniques.map (UniqueDef.read v) :=
    map_of_bare (UniqueDef.read_read v) (congrArg Model.uniques h :)
  have hfields : (a.fields.filterKeys (fun _ => true)).mapValues (Field.read .bare) =
      (b.fields.filterKeys (fun _ => true)).mapValues (Field.read .bare) :=
    (congrArg Model.fields h :)
  rw [IndexMap.filterKeys_true, IndexMap.filterKeys_true] at hfields
  have hiff := IndexMap.read_eq_iff (Field.read_eq_iff v) (fun n => v.keep n.str) hfields
  simp only [Model.read, Model.docsRead, Model.mk.injEq, hname, htable, hkey, hindexes, huniques,
    true_and, and_true, Prod.mk.injEq, hiff]
  exact And.comm

-- Two schemas that differ in layout alone read the same exactly when the
-- reading finds the same doc comments in them.
theorem Schema.read_eq_iff {s t : Schema} (h : SameButLayout s t) :
    s.read v = t.read v ↔ s.docsRead v = t.docsRead v := by
  have hversion : s.version = t.version := (congrArg Schema.version h :)
  have hdatasource : s.datasource.read v = t.datasource.read v :=
    read_of_bare (Datasource.read_read v) (congrArg Schema.datasource h :)
  have hgenerator : s.generator.read v = t.generator.read v :=
    read_of_bare (Generator.read_read v) (congrArg Schema.generator h :)
  have hrelations : s.relations.map (ResolvedRelation.read v) =
      t.relations.map (ResolvedRelation.read v) :=
    map_of_bare (ResolvedRelation.read_read v) (congrArg Schema.relations h :)
  have henums : (s.enums.filterKeys (fun _ => true)).mapValues (EnumDef.read .bare) =
      (t.enums.filterKeys (fun _ => true)).mapValues (EnumDef.read .bare) :=
    (congrArg Schema.enums h :)
  have hmodels : (s.models.filterKeys (fun _ => true)).mapValues (Model.read .bare) =
      (t.models.filterKeys (fun _ => true)).mapValues (Model.read .bare) :=
    (congrArg Schema.models h :)
  rw [IndexMap.filterKeys_true, IndexMap.filterKeys_true] at henums hmodels
  have hiffE := IndexMap.read_eq_iff (EnumDef.read_eq_iff v) (fun n => v.keep n.str) henums
  have hiffM := IndexMap.read_eq_iff (Model.read_eq_iff v) (fun n => v.keep n.str) hmodels
  simp only [Schema.read, Schema.docsRead, Schema.mk.injEq, hversion, hdatasource, hgenerator,
    hrelations, true_and, and_true, Prod.mk.injEq, hiffE, hiffM]

end Ruprizzle
