import Ruprizzle.Parser.RelationLaw

namespace Ruprizzle

-- What the foreign keys of a schema refer to.

-- The field a target of an index names; an expression names none.
def IndexTarget.named : IndexTarget → Option FieldName
  | .field n _ => some n
  | .expression _ => none

namespace Model

-- The keys of a model: the primary one, and the unique constraints of a field or a block.
def keys (m : Model) : List (List FieldName) :=
  m.primaryKey.fields ::
    ((m.fields.entries.filter fun e => e.2.attrs.isUnique).map fun e => [e.1]) ++
    m.uniques.filterMap fun u => u.targets.mapM IndexTarget.named

-- The names stand for columns.
def Columned (m : Model) (names : List FieldName) : Prop :=
  ∀ n ∈ names, ∃ f, m.fields.get? n = some f ∧ f.hasColumn = true

-- The columns are those of one key, as the databases require of a foreign key.
def HasKey (m : Model) (cols : List String) : Prop :=
  ∃ key ∈ m.keys, m.Columned key ∧ ∀ c, c ∈ cols ↔ c ∈ Lower.joinColumns m key

-- The names together are those of one key.
def NamesKey (m : Model) (names : List FieldName) : Prop :=
  ∃ key ∈ m.keys, m.Columned key ∧ ∀ n, n ∈ names ↔ n ∈ key

variable {m m' : Model} {names : List FieldName}

theorem mem_joinColumns {c : String} :
    c ∈ Lower.joinColumns m names ↔ ∃ n ∈ names, ∃ f, m.fields.get? n = some f ∧ f.column = c := by
  unfold Lower.joinColumns
  rw [List.mem_filterMap]
  refine exists_congr fun n => and_congr_right fun _ => ?_
  rw [Option.map_eq_some_iff]

-- Columns tell the fields that bear them apart.
theorem column_inj (hnamed : ∀ n f, (n, f) ∈ m.fields.entries → f.name = n)
    (hcols : (m.scalarFields.map Field.column).Nodup) {n n' : FieldName} {f f' : Field}
    (hf : m.fields.get? n = some f) (hf' : m.fields.get? n' = some f') (hcol : f.hasColumn = true)
    (hcol' : f'.hasColumn = true) (heq : f.column = f'.column) : n = n' := by
  have hin : f ∈ m.scalarFields := List.mem_filter.mpr ⟨IndexMap.mem_values_of_get? hf, hcol⟩
  have hin' : f' ∈ m.scalarFields := List.mem_filter.mpr ⟨IndexMap.mem_values_of_get? hf', hcol'⟩
  have hsame := List.inj_on_of_nodup_map hcols hin hin' heq
  rw [← hnamed n f (IndexMap.get?_eq_some.mp hf), ← hnamed n' f' (IndexMap.get?_eq_some.mp hf'), hsame]

theorem hasKey_iff (hnamed : ∀ n f, (n, f) ∈ m.fields.entries → f.name = n)
    (hcols : (m.scalarFields.map Field.column).Nodup) (hnames : m.Columned names) :
    m.HasKey (Lower.joinColumns m names) ↔ m.NamesKey names := by
  have hsub : ∀ {a b : List FieldName}, m.Columned a → m.Columned b →
      (∀ c, c ∈ Lower.joinColumns m a → c ∈ Lower.joinColumns m b) → ∀ n ∈ a, n ∈ b := by
    intro a b ha hb h n hn
    obtain ⟨f, hf, hcol⟩ := ha n hn
    obtain ⟨n', hn', f', hf', heq⟩ := mem_joinColumns.mp (h f.column (mem_joinColumns.mpr ⟨n, hn, f, hf, rfl⟩))
    obtain ⟨g, hg, hcol'⟩ := hb n' hn'
    obtain rfl : f' = g := Option.some.inj (hf'.symm.trans hg)
    exact column_inj hnamed hcols hf' hf hcol' hcol heq ▸ hn'
  have hcongr : ∀ {a b : List FieldName}, (∀ n, n ∈ a → n ∈ b) → ∀ c, c ∈ Lower.joinColumns m a →
      c ∈ Lower.joinColumns m b := by
    intro a b h c hc
    obtain ⟨n, hn, hrest⟩ := mem_joinColumns.mp hc
    exact mem_joinColumns.mpr ⟨n, h n hn, hrest⟩
  refine exists_congr fun key => and_congr_right fun _ => and_congr_right fun hkey => ?_
  constructor
  · intro h n
    exact ⟨hsub hnames hkey (fun c => (h c).mp) n, hsub hkey hnames (fun c => (h c).mpr) n⟩
  · intro h c
    exact ⟨hcongr (fun n => (h n).mp) c, hcongr (fun n => (h n).mpr) c⟩

theorem keys_bare (m : Model) : m.bare.keys = m.keys := by
  unfold keys bare
  simp only [IndexMap.entries_mapValues, List.filter_map, List.map_map]
  rfl

theorem columned_bare : m.bare.Columned names ↔ m.Columned names := by
  unfold Columned bare
  refine forall₂_congr fun n _ => ?_
  rw [IndexMap.get?_mapValues]
  cases m.fields.get? n with
  | none => simp
  | some f => simp [Field.bare, Field.hasColumn]

-- Marks on relations make no difference.
theorem hasKey_congr (h : m'.bare = m.bare) {cols : List String} : m'.HasKey cols ↔ m.HasKey cols := by
  have hkeys : m'.keys = m.keys := by rw [← keys_bare m', h, keys_bare]
  have hcolumned : ∀ key, m'.Columned key ↔ m.Columned key := by
    intro key
    rw [← columned_bare, h, columned_bare]
  unfold HasKey
  rw [hkeys]
  refine exists_congr fun key => and_congr_right fun _ => ?_
  rw [hcolumned, Lower.joinColumns_bare h]

end Model

namespace Lower

-- The fields a key refers to: the primary key where none are written.
def referenceNames (target : Model) (ref : RelationRef) : List FieldName :=
  if ref.references.isEmpty then target.primaryKey.fields else ref.references

theorem buildRelation_references {models : IndexMap ModelName Model} {owner : Side}
    {back : Option Side} {ref : RelationRef} {target : Model} (href : refAt models owner.place = some ref)
    (htarget : models.get? owner.target = some target)
    (hclean : Diagnostics.errors (buildRelation owner back models).2 = []) :
    target.Columned (referenceNames target ref) ∧ ∀ r, (buildRelation owner back models).1 = some r →
      r.targetCols = joinColumns target (referenceNames target ref) := by
  obtain ⟨field, hfield, hrel⟩ := Option.bind_eq_some_iff.mp href
  obtain ⟨ownerModel, howner, hget⟩ := Option.bind_eq_some_iff.mp hfield
  simp only [Side.place] at howner hget
  generalize hres : buildRelation owner back models = res at hclean ⊢
  unfold buildRelation at hres
  simp only [howner, htarget, hget, Option.bind_some, hrel] at hres
  unfold referenceNames
  generalize (if ref.references.isEmpty then target.primaryKey.fields
    else ref.references) = names at hres ⊢
  split at hres
  · subst hres
    cases hclean
  · rename_i hfks
    split at hres
    · subst hres
      cases hclean
    · rename_i hrefs
      split at hres
      · subst hres
        cases hclean
      · rename_i hlength
        subst hres
        have hfound : ∀ n ∈ names, ∃ g, refField target n = some g ∧ target.fields.get? n = some g := by
          intro n hn
          have hsome := List.find?_eq_none.mp hrefs n hn
          obtain ⟨g, hg⟩ := Option.ne_none_iff_exists'.mp (by simpa using hsome)
          exact ⟨g, hg, (Option.filter_eq_some_iff.mp hg).1⟩
        refine ⟨fun n hn => ?_, fun r hr => ?_⟩
        · -- The field stands beside one of the key, which bears a column of the same kind.
          obtain ⟨g, hg, hgetg⟩ := hfound n hn
          refine ⟨g, hgetg, ?_⟩
          have hmem : g ∈ names.filterMap (refField target) := List.mem_filterMap.mpr ⟨n, hn, hg⟩
          obtain ⟨i, hi, rfl⟩ := List.mem_iff_getElem.mp hmem
          have hi' : i < (ref.fields.filterMap (fkField ownerModel)).length := by
            rw [not_ne_iff.mp hlength]
            exact hi
          have hzip := List.getElem_mem (l := (ref.fields.filterMap (fkField ownerModel)).zip
            (names.filterMap (refField target))) (n := i) (by rw [List.length_zip]; omega)
          rw [List.getElem_zip] at hzip
          have hkind : ((ref.fields.filterMap (fkField ownerModel))[i]).kind =
              ((names.filterMap (refField target))[i]).kind := by
            by_contra hne
            exact absurd (warning_of_errors hclean (List.mem_append_left _
              (List.mem_filterMap.mpr ⟨_, hzip, if_pos hne⟩))) Bool.false_ne_true
          obtain ⟨n', _, hfk⟩ := List.mem_filterMap.mp (List.of_mem_zip hzip).1
          rw [Field.hasColumn, ← hkind]
          exact (List.mem_filter.mp (fkField_eq_some hfk).2).2
        · cases hr
          show (names.filterMap (refField target)).map Field.column = joinColumns target names
          rw [joinColumns, List.map_filterMap]
          apply List.filterMap_congr
          intro n hn
          obtain ⟨g, hg, hget⟩ := hfound n hn
          rw [hg, hget]

variable {declared models : IndexMap ModelName Model} {s : Side} {r : ResolvedRelation}
  {old new mid : List ResolvedRelation} {owners owners' : List Side} {ends ends' : List ModelName}

-- The relation refers to what is written at a place, by the models as declared.
def WrittenKey (declared : IndexMap ModelName Model) (e : Place) (r : ResolvedRelation) : Prop :=
  ∃ ref target, refAt declared e = some ref ∧ declared.get? ref.target = some target ∧
    target.Columned (referenceNames target ref) ∧ r.target = ref.target ∧
    r.targetCols = joinColumns target (referenceNames target ref)

-- The relation of a made-up join model refers to the first key field of an end.
def ImplicitEnd (declared : IndexMap ModelName Model) (name : ModelName) (r : ResolvedRelation) : Prop :=
  ∃ key, implicitKey declared name = some key ∧ r.target = name ∧ r.targetCols = [key.2.2.column]

-- A side stands for a relation as declared, with a known target.
def Declared (declared : IndexMap ModelName Model) (s : Side) : Prop :=
  ∃ ref, refAt declared s.place = some ref ∧ s.target = ref.target ∧ ref.target ∈ declared.keys

-- The foreign keys that are added: one for every owner and one for every end.
structure Adds (declared : IndexMap ModelName Model) (owners : List Side) (ends : List ModelName)
    (old new : List ResolvedRelation) : Prop where
  kept : old ⊆ new
  sound : ∀ r ∈ new, r.kind ≠ .manyToMany → r ∈ old ∨ (∃ s ∈ owners, WrittenKey declared s.place r) ∨
    ∃ m ∈ ends, ImplicitEnd declared m r
  written : ∀ s ∈ owners, ∃ r ∈ new, r.kind ≠ .manyToMany ∧ WrittenKey declared s.place r
  implicit : ∀ m ∈ ends, ∃ r ∈ new, r.kind ≠ .manyToMany ∧ ImplicitEnd declared m r

namespace Adds

theorem refl : Adds declared [] [] old old :=
  ⟨List.Subset.refl _, fun _ hr _ => Or.inl hr, fun _ hs => absurd hs List.not_mem_nil,
    fun _ hm => absurd hm List.not_mem_nil⟩

theorem trans (h : Adds declared owners ends old mid) (h' : Adds declared owners' ends' mid new) :
    Adds declared (owners ++ owners') (ends ++ ends') old new := by
  refine ⟨List.Subset.trans h.kept h'.kept, fun r hr hkind => ?_, fun s hs => ?_, fun m hm => ?_⟩
  · rcases h'.sound r hr hkind with hmid | ⟨s, hs, hw⟩ | ⟨m, hm, hi⟩
    · rcases h.sound r hmid hkind with hold | ⟨s, hs, hw⟩ | ⟨m, hm, hi⟩
      · exact Or.inl hold
      · exact Or.inr (Or.inl ⟨s, List.mem_append_left _ hs, hw⟩)
      · exact Or.inr (Or.inr ⟨m, List.mem_append_left _ hm, hi⟩)
    · exact Or.inr (Or.inl ⟨s, List.mem_append_right _ hs, hw⟩)
    · exact Or.inr (Or.inr ⟨m, List.mem_append_right _ hm, hi⟩)
  · rcases List.mem_append.mp hs with hs | hs
    · obtain ⟨r, hr, hrest⟩ := h.written s hs
      exact ⟨r, h'.kept hr, hrest⟩
    · exact h'.written s hs
  · rcases List.mem_append.mp hm with hm | hm
    · obtain ⟨r, hr, hrest⟩ := h.implicit m hm
      exact ⟨r, h'.kept hr, hrest⟩
    · exact h'.implicit m hm

-- A relation of one of the two kinds, or a many-to-many.
theorem owner (hkind : r.kind ≠ .manyToMany) (h : WrittenKey declared s.place r) :
    Adds declared [s] [] old (old ++ [r]) := by
  refine ⟨List.subset_append_left _ _, fun q hq _ => ?_, fun q hq => ?_, fun _ hm => absurd hm List.not_mem_nil⟩
  · rcases List.mem_append.mp hq with hq | hq
    · exact Or.inl hq
    · exact Or.inr (Or.inl ⟨s, List.mem_singleton.mpr rfl, List.mem_singleton.mp hq ▸ h⟩)
  · rw [List.mem_singleton.mp hq]
    exact ⟨r, List.mem_append_right _ (List.mem_singleton.mpr rfl), hkind, h⟩

theorem end_ {m : ModelName} (hkind : r.kind ≠ .manyToMany) (h : ImplicitEnd declared m r) :
    Adds declared [] [m] old (old ++ [r]) := by
  refine ⟨List.subset_append_left _ _, fun q hq _ => ?_, fun _ hs => absurd hs List.not_mem_nil, fun q hq => ?_⟩
  · rcases List.mem_append.mp hq with hq | hq
    · exact Or.inl hq
    · exact Or.inr (Or.inr ⟨m, List.mem_singleton.mpr rfl, List.mem_singleton.mp hq ▸ h⟩)
  · rw [List.mem_singleton.mp hq]
    exact ⟨r, List.mem_append_right _ (List.mem_singleton.mpr rfl), hkind, h⟩

theorem manyToMany (hkind : r.kind = .manyToMany) : Adds declared [] [] old (old ++ [r]) := by
  refine ⟨List.subset_append_left _ _, fun q hq hne => ?_, fun _ hs => absurd hs List.not_mem_nil,
    fun _ hm => absurd hm List.not_mem_nil⟩
  rcases List.mem_append.mp hq with hq | hq
  · exact Or.inl hq
  · exact absurd (List.mem_singleton.mp hq ▸ hkind) hne

theorem congr (h : Adds declared owners ends old new) (howners : ∀ s, s ∈ owners ↔ s ∈ owners')
    (hends : ∀ m, m ∈ ends ↔ m ∈ ends') : Adds declared owners' ends' old new := by
  refine ⟨h.kept, fun r hr hkind => ?_, fun s hs => h.written s ((howners s).mpr hs),
    fun m hm => h.implicit m ((hends m).mpr hm)⟩
  rcases h.sound r hr hkind with hold | ⟨s, hs, hw⟩ | ⟨m, hm, hi⟩
  · exact Or.inl hold
  · exact Or.inr (Or.inl ⟨s, (howners s).mp hs, hw⟩)
  · exact Or.inr (Or.inr ⟨m, (hends m).mp hm, hi⟩)

end Adds

-- A relation built from a side refers to what the side declares.
theorem buildRelation_written {back : Option Side} (hext : Extends declared models)
    (hs : Declared declared s) (hclean : Diagnostics.errors (buildRelation s back models).2 = []) :
    ∃ r, (buildRelation s back models).1 = some r ∧ r.kind ≠ .manyToMany ∧ WrittenKey declared s.place r := by
  obtain ⟨ref, href, htarget, hknown⟩ := hs
  obtain ⟨target, hget⟩ := IndexMap.mem_keys_iff_get?.mp hknown
  obtain ⟨ref', href', hsame⟩ := hext.refAt href
  obtain ⟨target', hget', hbare⟩ := hext _ _ hget
  rw [← htarget] at hget'
  obtain ⟨r, hr, hbuilt⟩ := buildRelation_built href' (IndexMap.mem_keys_iff_get?.mpr ⟨target', hget'⟩) hclean
  obtain ⟨hcolumned, hcols⟩ := buildRelation_references href' hget' hclean
  have hnames : referenceNames target' ref' = referenceNames target ref := by
    have hreferences : ref'.references = ref.references := (congrArg RelationRef.references hsame :)
    have hkey : target'.primaryKey = target.primaryKey := (congrArg Model.primaryKey hbare :)
    unfold referenceNames
    rw [hreferences, hkey]
  rw [hnames] at hcolumned hcols
  refine ⟨r, hr, hbuilt.kind, ref, target, href, hget, ?_, hbuilt.target.trans htarget, ?_⟩
  · rw [← Model.columned_bare, ← hbare, Model.columned_bare]
    exact hcolumned
  · rw [hcols r hr, joinColumns_bare hbare]

-- The ends of a group that gets a made-up join model.
def implicitEnds (group : List Side) : List ModelName :=
  if (implicitJoin group).isSome then group.map Side.model else []

theorem implicitKey_column (hext : Extends declared models) {name : ModelName} {key : Model × FieldName × Field}
    (h : implicitKey declared name = some key) :
    ∃ m f, implicitKey models name = some (m, key.2.1, f) ∧ f.column = key.2.2.column := by
  obtain ⟨m, n, f⟩ := key
  obtain ⟨hm, hn, hf⟩ := implicitKey_spec h
  obtain ⟨m', hm', hbare⟩ := hext name m hm
  have hkey : m'.primaryKey = m.primaryKey := (congrArg Model.primaryKey hbare :)
  have hget := congrArg (fun m : Model => m.fields.get? n) hbare
  simp only [Model.bare, IndexMap.get?_mapValues, hf, Option.map_some] at hget
  obtain ⟨f', hf', hsame⟩ := Option.map_eq_some_iff.mp hget
  have hcolumn : f'.column = f.column := (congrArg Field.column hsame :)
  exact ⟨m', f', by simp [implicitKey, hm', hkey, hn, hf'], hcolumn⟩

theorem joinForeignKey_end {join : ModelName} {suffix column : String} {name : ModelName}
    {key : Model × FieldName × Field} {m : Model} {f : Field} (h : implicitKey declared name = some key)
    (hcolumn : f.column = key.2.2.column) :
    Adds declared [] [name] old (old ++ [joinForeignKey join suffix column m name f]) := by
  refine Adds.end_ (by simp [joinForeignKey]) ⟨key, h, rfl, ?_⟩
  rw [← hcolumn]
  rfl

theorem relations_push (p : Pass) (r : ResolvedRelation) (ends : List Place) :
    (p.push r ends).relations = p.relations ++ [r] := rfl

theorem resolveImplicitManyToMany_adds {p : Pass} {a b : Side} (hext : Extends declared p.models)
    (hkey : ∀ s ∈ [a, b], ∃ key, implicitKey declared s.model = some key) :
    Adds declared [] [a.model, b.model] p.relations (resolveImplicitManyToMany p a b).relations := by
  have hends : ∀ m, m = (joinEnds a b).1 ∨ m = (joinEnds a b).2 ↔ m ∈ [a.model, b.model] := by
    intro m
    rw [List.mem_cons, List.mem_singleton]
    rcases joinEnds_cases a b with h | h
    · rw [h]
    · rw [h]
      exact or_comm
  have hfound : ∀ m ∈ [a.model, b.model], ∃ key, implicitKey declared m = some key := by
    intro m hm
    rcases List.mem_cons.mp hm with rfl | hm
    · exact hkey a (by simp)
    · rw [List.mem_singleton.mp hm]
      exact hkey b (by simp)
  obtain ⟨keyA, hA⟩ := hfound _ ((hends _).mp (Or.inl rfl))
  obtain ⟨keyB, hB⟩ := hfound _ ((hends _).mp (Or.inr rfl))
  obtain ⟨modelA, pkA, hA', hcolA⟩ := implicitKey_column hext hA
  obtain ⟨modelB, pkB, hB', hcolB⟩ := implicitKey_column hext hB
  rw [resolveImplicitManyToMany_eq hA' hB']
  dsimp only
  rw [relations_push, relations_push, relations_push, relations_push]
  refine Adds.congr ((((joinForeignKey_end hA hcolA).trans (joinForeignKey_end hB hcolB)).trans
    (Adds.manyToMany rfl)).trans (Adds.manyToMany rfl)) (fun s => by simp) fun m => ?_
  rw [← hends m]
  simp

theorem resolveGroup_adds {p : Pass} {group : List Side} (hext : Extends declared p.models)
    (hside : ∀ s ∈ group, Declared declared s)
    (hkey : (implicitJoin group).isSome = true → ∀ s ∈ group, ∃ key, implicitKey declared s.model = some key)
    (hclean : Diagnostics.errors (resolveGroup p group).diags = []) :
    Adds declared (group.filter Side.isOwner) (implicitEnds group) p.relations
      (resolveGroup p group).relations := by
  have hbad : ∀ (d : SchemaError), d.isWarning = false →
      Diagnostics.errors (p.report [d]).diags = [] → False := by
    intro d hd herr
    rw [Pass.report, Diagnostics.errors_append, List.append_eq_nil_iff] at herr
    have := warning_of_errors herr.2 (List.mem_singleton.mpr rfl)
    simp [hd] at this
  revert hclean
  unfold resolveGroup
  split
  · exact fun hc => (hbad _ rfl hc).elim
  · exact fun hc => (hbad _ rfl hc).elim
  · exact fun hc => (hbad _ rfl hc).elim
  · rename_i a b hnone
    split
    · rename_i hlists
      intro hclean
      have hjoin : implicitJoin [a, b] = some (joinModelName a b) := by
        simp only [List.filter_cons, List.filter_nil] at hnone
        cases ha : a.isOwner <;> cases hb : b.isOwner <;> simp_all [implicitJoin]
      have hends : implicitEnds [a, b] = [a.model, b.model] := by
        unfold implicitEnds
        rw [hjoin]
        rfl
      rw [hnone, hends]
      exact resolveImplicitManyToMany_adds hext (hkey (by rw [hjoin]; rfl))
    · exact fun hc => (hbad _ rfl hc).elim
  · exact fun hc => (hbad _ rfl hc).elim
  · rename_i a b owner tail hsingle howner
    obtain rfl : tail = [] := by
      by_contra hmore
      obtain ⟨second, rest, rfl⟩ := List.exists_cons_of_ne_nil hmore
      exact hsingle second rest rfl
    have hwhich : (a.isOwner = true ∧ owner = a) ∨ (a.isOwner = false ∧ owner = b) := by
      simp only [List.filter_cons, List.filter_nil] at howner
      cases ha : a.isOwner <;> cases hb : b.isOwner <;> simp_all
    have hends : implicitEnds [a, b] = [] := by
      have hany : owner.isOwner = true := (List.mem_filter.mp (howner ▸ List.mem_cons_self)).2
      unfold implicitEnds implicitJoin
      rcases hwhich with ⟨ha, rfl⟩ | ⟨ha, rfl⟩
      · simp [ha]
      · simp [hany]
    have hin : owner ∈ [a, b] := (List.mem_filter.mp (howner ▸ List.mem_cons_self)).1
    rw [howner, hends]
    dsimp only
    split
    · rename_i r hr
      intro hclean
      rw [Pass.push, Pass.report, Diagnostics.errors_append, List.append_eq_nil_iff] at hclean
      obtain ⟨r', hr', hkind, hwritten⟩ := buildRelation_written hext (hside owner hin) hclean.2
      obtain rfl : r = r' := Option.some.inj (hr.symm.trans hr')
      exact Adds.owner hkind hwritten
    · rename_i hr
      intro hclean
      rw [Pass.report, Diagnostics.errors_append, List.append_eq_nil_iff] at hclean
      obtain ⟨r', hr', _⟩ := buildRelation_written hext (hside owner hin) hclean.2
      rw [hr] at hr'
      cases hr'
  · exact fun hc => (hbad _ rfl hc).elim
  · exact fun _ => Adds.refl

theorem relations_pushBuilt_eq (p : Pass) (s : Side) (built : Option ResolvedRelation × Diagnostics) :
    (p.pushBuilt s built).relations = p.relations ++ built.1.toList := by
  unfold Pass.pushBuilt
  cases built.1 with
  | none => exact (List.append_nil _).symm
  | some r => rfl

theorem buildManyToManyRelation_kind {a b : Side} {fks : List Side} {r : ResolvedRelation}
    (h : (buildManyToManyRelation a b fks models).1 = some r) : r.kind = .manyToMany := by
  unfold buildManyToManyRelation at h
  split at h
  · cases h
  · split at h
    · cases h
    · cases h
    · split at h
      · cases h
        rfl
      · cases h

theorem pushBuilt_manyToMany {p : Pass} {a b : Side} {fks : List Side} :
    Adds declared [] [] p.relations (p.pushBuilt a (buildManyToManyRelation a b fks models)).relations := by
  rw [relations_pushBuilt_eq]
  cases h : (buildManyToManyRelation a b fks models).1 with
  | none => exact (List.append_nil p.relations).symm ▸ Adds.refl
  | some r => exact Adds.manyToMany (buildManyToManyRelation_kind h)

theorem pushBuilt_owner {p : Pass} {back : Option Side} (hext : Extends declared p.models)
    (hs : Declared declared s)
    (hclean : Diagnostics.errors (p.pushBuilt s (buildRelation s back p.models)).diags = []) :
    Adds declared [s] [] p.relations (p.pushBuilt s (buildRelation s back p.models)).relations := by
  obtain ⟨r, hr, hkind, hwritten⟩ := buildRelation_written hext hs (clean_pushBuilt hclean).2
  rw [relations_pushBuilt_eq, hr]
  exact Adds.owner hkind hwritten

theorem resolveJoin_adds {p : Pass} {a b f g : Side} (hext : Extends declared p.models)
    (hf : Declared declared f) (hg : Declared declared g)
    (hclean : Diagnostics.errors (resolveJoin p a b f g).diags = []) :
    Adds declared [f, g] [] p.relations (resolveJoin p a b f g).relations := by
  unfold resolveJoin at hclean ⊢
  dsimp only at hclean ⊢
  have hclean3 := (clean_pushBuilt hclean).1
  have hclean2 := (clean_pushBuilt hclean3).1
  have hclean1 := (clean_pushBuilt hclean2).1
  have hfirst := pushBuilt_owner hext hf hclean1
  have hext1 := hext.trans (extends_pushBuilt p f
    (buildRelation f ([a, b].find? (fun s => s.model = f.target)) p.models))
  have hsecond := pushBuilt_owner hext1 hg hclean2
  exact ((hfirst.trans hsecond).trans pushBuilt_manyToMany).trans pushBuilt_manyToMany

theorem resolveThroughGroup_adds {p : Pass} {group : List Side} (hext : Extends declared p.models)
    (hside : ∀ s ∈ group, Declared declared s)
    (hclean : Diagnostics.errors (resolveThroughGroup p group).diags = []) :
    Adds declared (group.filter Side.isOwner) [] p.relations (resolveThroughGroup p group).relations := by
  rcases resolveThroughGroup_cases p group with
    ⟨rfl, heq⟩ | ⟨d, hd, heq⟩ | ⟨a, b, f, g, _, hfks, _, _, heq⟩
  · rw [heq]
    exact Adds.refl
  · rw [heq, Pass.report, Diagnostics.errors_append, List.append_eq_nil_iff] at hclean
    have := warning_of_errors hclean.2 (List.mem_singleton.mpr rfl)
    simp [hd] at this
  · rw [heq] at hclean ⊢
    have hin : ∀ s ∈ [f, g], s ∈ group := fun s hs => (List.mem_filter.mp (hfks ▸ hs)).1
    rw [hfks]
    exact resolveJoin_adds hext (hside f (hin f (by simp))) (hside g (hin g (by simp))) hclean

theorem foldl_resolveGroup_adds {gs : List (List Side)} {p : Pass} (hext : Extends declared p.models)
    (hnodup : (p.models.keys ++ gs.filterMap implicitJoin).Nodup)
    (hside : ∀ g ∈ gs, ∀ s ∈ g, Declared declared s)
    (hkey : ∀ g ∈ gs, (implicitJoin g).isSome = true → ∀ s ∈ g,
      ∃ key, implicitKey declared s.model = some key)
    (hclean : Diagnostics.errors (gs.foldl resolveGroup p).diags = []) :
    Adds declared (gs.flatMap fun g => g.filter Side.isOwner) (gs.flatMap implicitEnds) p.relations
      (gs.foldl resolveGroup p).relations := by
  induction gs generalizing p with
  | nil => exact Adds.refl
  | cons g gs ih =>
      rw [filterMap_cons_toList] at hnodup
      have hnext := resolveGroup_adds hext (hside g (by simp)) (hkey g (by simp))
        (errors_of_extension (foldl_diags resolveGroup_diags gs _) hclean)
      refine hnext.trans (ih (hext.trans (resolveGroup_extends (fresh_of_nodup hnodup)).1)
        (nodup_resolveGroup hnodup) (fun g' hg' => hside g' (by simp [hg']))
        (fun g' hg' => hkey g' (by simp [hg'])) hclean)

theorem foldl_resolveThroughGroup_adds {gs : List (List Side)} {p : Pass} (hext : Extends declared p.models)
    (hside : ∀ g ∈ gs, ∀ s ∈ g, Declared declared s)
    (hclean : Diagnostics.errors (gs.foldl resolveThroughGroup p).diags = []) :
    Adds declared (gs.flatMap fun g => g.filter Side.isOwner) [] p.relations
      (gs.foldl resolveThroughGroup p).relations := by
  induction gs generalizing p with
  | nil => exact Adds.refl
  | cons g gs ih =>
      have hnext := resolveThroughGroup_adds hext (hside g (by simp))
        (errors_of_extension (foldl_diags resolveThroughGroup_diags gs _) hclean)
      exact hnext.trans (ih (hext.trans (resolveThroughGroup_extends p g))
        (fun g' hg' => hside g' (by simp [hg'])) hclean)

theorem refAt_placed (hnamed : Named models) {mf : Model × Field} (hmf : mf ∈ placed models) :
    refAt models (mf.1.name, mf.2.name) = mf.2.relation := by
  obtain ⟨m, hm, hmf⟩ := List.mem_flatMap.mp hmf
  obtain ⟨f, hf, rfl⟩ := List.mem_map.mp hmf
  obtain ⟨k, hk⟩ := IndexMap.mem_values.mp hm
  obtain ⟨n, hn⟩ := IndexMap.mem_values.mp hf
  obtain ⟨hname, hfields⟩ := hnamed k m hk
  simp only [refAt, hname, hfields n f hn, IndexMap.get?_eq_some.mpr hk, Option.bind_some,
    IndexMap.get?_eq_some.mpr hn]

-- An owner is a side whose relation names its fields.
theorem side_owner {model : Model} {field : Field} {rel : RelationRef}
    (h : side models model field rel = .inl s) : s.isOwner = true ↔ rel.fields ≠ [] := by
  unfold side at h
  split at h
  · split at h
    · cases h
    · split at h
      · cases h
      · rename_i hempty
        cases h
        simpa using hempty
  · cases h
    simp

theorem mem_groups_iff {κ : Type} [DecidableEq κ] (key : Side → κ) (sides : List Side) :
    (∃ g ∈ groups key sides, s ∈ g) ↔ s ∈ sides := by
  rw [← List.mem_flatten]
  exact (groups_perm key sides).mem_iff

-- The owners of all groups are the places whose relations name their fields.
theorem owners_iff (h : Unresolved models) (hclean : Diagnostics.errors (collectSides models).2 = [])
    (e : Place) :
    (∃ s, ((∃ g ∈ regularGroups models, s ∈ g) ∨ ∃ g ∈ throughGroups models, s ∈ g) ∧ s.isOwner = true ∧
        s.place = e) ↔
      ∃ ref, refAt models e = some ref ∧ ref.fields ≠ [] := by
  have hall : ∀ s, ((∃ g ∈ regularGroups models, s ∈ g) ∨ ∃ g ∈ throughGroups models, s ∈ g) ↔
      s ∈ (collectSides models).1 := by
    intro s
    unfold regularGroups throughGroups
    rw [mem_groups_iff, mem_groups_iff, List.mem_filter, List.mem_filter, ← and_or_left]
    refine and_iff_left ?_
    cases s.joinModel with
    | none => exact Or.inl rfl
    | some t => exact Or.inr rfl
  simp only [hall]
  have hsided := collectSides_sided h.named hclean
  have hplaced : ∀ mf ∈ placed models, refAt models (mf.1.name, mf.2.name) = mf.2.relation :=
    fun mf hmf => refAt_placed h.named hmf
  obtain ⟨hsides, _⟩ := collectSides_of_clean hclean
  have howner : ∀ s ∈ (collectSides models).1, ∃ ref, refAt models s.place = some ref ∧
      (s.isOwner = true ↔ ref.fields ≠ []) := by
    intro s hs
    rw [hsides] at hs
    obtain ⟨mf, hmf, hside⟩ := List.mem_filterMap.mp hs
    obtain ⟨rel, hrel, hleft⟩ := Option.bind_eq_some_iff.mp hside
    have hinl := Sum.getLeft?_eq_some_iff.mp hleft
    exact ⟨rel, by rw [(side_inl hinl).1, hplaced mf hmf, hrel], side_owner hinl⟩
  constructor
  · intro ⟨s, hs, ho, hplace⟩
    obtain ⟨ref, href, hiff⟩ := howner s hs
    exact ⟨ref, hplace ▸ href, hiff.mp ho⟩
  · intro ⟨ref, href, hfields⟩
    obtain ⟨s, hs, hplace⟩ := List.mem_map.mp ((hsided.place_iff e).mp ⟨ref, href⟩)
    obtain ⟨ref', href', hiff⟩ := howner s hs
    rw [hplace, href] at href'
    obtain rfl := Option.some.inj href'
    exact ⟨s, hs, hiff.mpr hfields, hplace⟩

end Lower

-- The law: a foreign key refers to one whole key of its target.
def Schema.ReferencesKeys (s : Schema) : Prop :=
  ∀ r ∈ s.relations, r.kind ≠ .manyToMany →
    ∃ target, s.models.get? r.target = some target ∧ target.HasKey r.targetCols

-- What is declared: each relation that names its fields refers to the primary key or
-- names all fields of one key, and the first key field at an end of an implicit
-- many-to-many is a key by itself.
structure Ast.WholeKeys (ast : Ast) : Prop where
  written : ∀ e ref, refAt ast.declared e = some ref → ref.fields ≠ [] →
    ∀ target ∈ ast.declared.get? ref.target, target.NamesKey (Lower.referenceNames target ref)
  implicit : ∀ g ∈ Lower.regularGroups ast.declared, (Lower.implicitJoin g).isSome = true →
    ∀ s ∈ g, ∀ key ∈ Lower.implicitKey ast.declared s.model, key.1.HasKey [key.2.2.column]

-- What an accepted schema has been made of.
structure Ast.Yields (ast : Ast) (s : Schema) : Prop where
  ext : Extends ast.declared s.models
  columns : ∀ name m, ast.declared.get? name = some m → (m.scalarFields.map Field.column).Nodup ∧
    ∀ n f, (n, f) ∈ m.fields.entries → f.name = n
  owned : ∀ e ref, refAt ast.declared e = some ref → ref.fields ≠ [] →
    ∃ r ∈ s.relations, r.kind ≠ .manyToMany ∧ Lower.WrittenKey ast.declared e r
  ended : ∀ g ∈ Lower.regularGroups ast.declared, (Lower.implicitJoin g).isSome = true → ∀ side ∈ g,
    ∃ r ∈ s.relations, r.kind ≠ .manyToMany ∧ Lower.ImplicitEnd ast.declared side.model r
  sound : ∀ r ∈ s.relations, r.kind ≠ .manyToMany →
    (∃ e ref, refAt ast.declared e = some ref ∧ ref.fields ≠ [] ∧ Lower.WrittenKey ast.declared e r) ∨
    ∃ g ∈ Lower.regularGroups ast.declared, (Lower.implicitJoin g).isSome = true ∧ ∃ side ∈ g,
      Lower.ImplicitEnd ast.declared side.model r

theorem mem_implicitEnds {gs : List (List Lower.Side)} {m : ModelName} :
    m ∈ gs.flatMap Lower.implicitEnds ↔
      ∃ g ∈ gs, (Lower.implicitJoin g).isSome = true ∧ ∃ side ∈ g, side.model = m := by
  rw [List.mem_flatMap]
  refine exists_congr fun g => and_congr_right fun _ => ?_
  unfold Lower.implicitEnds
  by_cases hjoin : (Lower.implicitJoin g).isSome = true
  · rw [if_pos hjoin, List.mem_map, and_iff_right hjoin]
  · rw [if_neg hjoin]
    exact iff_of_false List.not_mem_nil fun hor => hjoin hor.1

-- What resolving the relations of an accepted schema has given.
theorem parse_resolved {ast : Ast} {s : Schema} (h : parse ast = .ok s) :
    s.models = (Lower.resolveRelations ast.declared).models ∧
      s.relations = (Lower.resolveRelations ast.declared).relations ∧
      Diagnostics.errors (Lower.resolveRelations ast.declared).diags = [] ∧
      ∀ m ∈ s.models.values, m.primaryKey.fields ≠ [] := by
  obtain ⟨diags, hlower, herrors⟩ := parse_eq_ok h
  simp only [Lower.lower, Prod.mk.injEq] at hlower
  obtain ⟨rfl, rfl⟩ := hlower
  simp only [Diagnostics.errors_append, List.append_eq_nil_iff] at herrors
  obtain ⟨⟨_, hclean⟩, hvalid⟩ := herrors
  refine ⟨rfl, rfl, hclean, fun m hm => ?_⟩
  simp only [Validate.validate, Diagnostics.errors_append, List.append_eq_nil_iff] at hvalid
  have hmodel := Validate.errors_flatMap_eq_nil hvalid.1.2 hm
  simp only [Diagnostics.errors_append, List.append_eq_nil_iff] at hmodel
  exact Validate.keyed_of_errors hmodel.1.1.1

theorem parse_yields {ast : Ast} {s : Schema} (h : parse ast = .ok s)
    (hjoins : (ast.declared.keys ++ Lower.joinNames ast.declared).Nodup) : ast.Yields s := by
  have hwell := Accepted.wellFormed ⟨ast, h⟩
  obtain ⟨hmodels, hrelations, hclean, hkeyed⟩ := parse_resolved h
  have hext := Lower.resolveRelations_extends hjoins
  rw [← hmodels] at hext
  have hstart := Lower.lowerModels_unresolved ast (Lower.lowerEnums ast).1
  have hregular : ∀ g ∈ Lower.regularGroups ast.declared, ∀ side ∈ g,
      side ∈ (Lower.collectSides ast.declared).1 :=
    fun g hg side hside => (List.mem_filter.mp (Lower.mem_groups hg hside)).1
  have hthrough : ∀ g ∈ Lower.throughGroups ast.declared, ∀ side ∈ g,
      side ∈ (Lower.collectSides ast.declared).1 :=
    fun g hg side hside => (List.mem_filter.mp (Lower.mem_groups hg hside)).1
  have hkey : ∀ g ∈ Lower.regularGroups ast.declared, (Lower.implicitJoin g).isSome = true → ∀ side ∈ g,
      ∃ key, Lower.implicitKey ast.declared side.model = some key := fun g hg _ side hside =>
    implicitKey_of_extends hext hkeyed hwell.keyFields
      (Lower.collectSides_model hstart.named (hregular g hg side hside))
  have hrun := hclean
  rw [Lower.resolveRelations_eq] at hrun
  have hclean1 := Lower.errors_of_extension (Lower.foldl_diags Lower.resolveThroughGroup_diags _ _) hrun
  have hclean0 := Lower.errors_of_extension (Lower.foldl_diags Lower.resolveGroup_diags _ _) hclean1
  have hsided := Lower.collectSides_sided hstart.named hclean0
  have hdeclared : ∀ side ∈ (Lower.collectSides ast.declared).1, Lower.Declared ast.declared side := by
    intro side hside
    obtain ⟨ref, href, heq⟩ := hsided.target side hside
    exact ⟨ref, href, heq, hstart.known side.place ref href⟩
  have hfirst := Lower.foldl_resolveGroup_adds (p := ⟨ast.declared, [], _⟩) (Extends.refl _) hjoins
    (fun g hg side hside => hdeclared side (hregular g hg side hside)) hkey hclean1
  have hsecond := Lower.foldl_resolveThroughGroup_adds
    (Lower.foldl_resolveGroup_extends (p := ⟨ast.declared, [], _⟩) hjoins)
    (fun g hg side hside => hdeclared side (hthrough g hg side hside)) hrun
  have hadds := hfirst.trans hsecond
  rw [← Lower.resolveRelations_eq, ← hrelations] at hadds
  have howners := Lower.owners_iff hstart hclean0
  have hmem : ∀ side, side ∈ ((Lower.regularGroups ast.declared).flatMap fun g => g.filter Lower.Side.isOwner) ++
      ((Lower.throughGroups ast.declared).flatMap fun g => g.filter Lower.Side.isOwner) ↔
      ((∃ g ∈ Lower.regularGroups ast.declared, side ∈ g) ∨
        ∃ g ∈ Lower.throughGroups ast.declared, side ∈ g) ∧ side.isOwner = true := by
    intro side
    simp only [List.mem_append, List.mem_flatMap, List.mem_filter]
    constructor
    · intro hor
      rcases hor with ⟨g, hg, hin, ho⟩ | ⟨g, hg, hin, ho⟩
      · exact ⟨Or.inl ⟨g, hg, hin⟩, ho⟩
      · exact ⟨Or.inr ⟨g, hg, hin⟩, ho⟩
    · intro ⟨hor, ho⟩
      rcases hor with ⟨g, hg, hin⟩ | ⟨g, hg, hin⟩
      · exact Or.inl ⟨g, hg, hin, ho⟩
      · exact Or.inr ⟨g, hg, hin, ho⟩
  refine ⟨hext, fun name m hm => ?_, fun e ref href hfields => ?_, fun g hg hjoin side hside => ?_,
    fun r hr hkind => ?_⟩
  · obtain ⟨m', hm', hbare⟩ := hext name m hm
    refine ⟨?_, (hstart.named name m (IndexMap.get?_eq_some.mp hm)).2⟩
    rw [← scalarFields_bare m, ← hbare, scalarFields_bare]
    exact hwell.columns m' (IndexMap.mem_values_of_get? hm')
  · obtain ⟨side, hgroups, ho, rfl⟩ := (howners e).mpr ⟨ref, href, hfields⟩
    exact hadds.written side ((hmem side).mpr ⟨hgroups, ho⟩)
  · refine hadds.implicit side.model (List.mem_append_left _ ?_)
    exact mem_implicitEnds.mpr ⟨g, hg, hjoin, side, hside, rfl⟩
  · rcases hadds.sound r hr hkind with hnone | ⟨side, hside, hw⟩ | ⟨m, hm, hi⟩
    · exact absurd hnone List.not_mem_nil
    · obtain ⟨hgroups, ho⟩ := (hmem side).mp hside
      obtain ⟨ref, href, hfields⟩ := (howners side.place).mp ⟨side, hgroups, ho, rfl⟩
      exact Or.inl ⟨side.place, ref, href, hfields, hw⟩
    · rw [List.append_nil] at hm
      obtain ⟨g, hg, hjoin, side, hside, rfl⟩ := mem_implicitEnds.mp hm
      exact Or.inr ⟨g, hg, hjoin, side, hside, hi⟩

theorem references_keys_iff {ast : Ast} {s : Schema} (h : parse ast = .ok s)
    (hjoins : (ast.declared.keys ++ Lower.joinNames ast.declared).Nodup) :
    s.ReferencesKeys ↔ ast.WholeKeys := by
  have hyields := parse_yields h hjoins
  -- A key of the finished model is one of the declared model.
  have hlaw : ∀ {name target cols}, ast.declared.get? name = some target →
      ((∃ m, s.models.get? name = some m ∧ m.HasKey cols) ↔ target.HasKey cols) := by
    intro name target cols htarget
    obtain ⟨m', hm', hbare⟩ := hyields.ext _ _ htarget
    rw [hm']
    constructor
    · intro ⟨m, hm, hkey⟩
      obtain rfl := Option.some.inj hm
      exact (Model.hasKey_congr hbare).mp hkey
    · intro hkey
      exact ⟨m', rfl, (Model.hasKey_congr hbare).mpr hkey⟩
  have hwritten : ∀ {ref target}, ast.declared.get? ref.target = some target →
      target.Columned (Lower.referenceNames target ref) →
      (target.HasKey (Lower.joinColumns target (Lower.referenceNames target ref)) ↔
        target.NamesKey (Lower.referenceNames target ref)) := by
    intro ref target htarget hcolumned
    obtain ⟨hcols, hnamed⟩ := hyields.columns _ _ htarget
    exact Model.hasKey_iff hnamed hcols hcolumned
  constructor
  · intro hall
    refine ⟨fun e ref href hfields target htarget => ?_, fun g hg hjoin side hside key hkey => ?_⟩
    · obtain ⟨r, hr, hkind, ref', target', href', htarget', hcolumned, hname, hcols⟩ :=
        hyields.owned e ref href hfields
      obtain rfl : ref = ref' := Option.some.inj (href.symm.trans href')
      obtain rfl : target = target' := Option.some.inj (htarget.symm.trans htarget')
      have hkey := hall r hr hkind
      rw [hname, hcols, hlaw htarget] at hkey
      exact (hwritten htarget hcolumned).mp hkey
    · obtain ⟨r, hr, hkind, key', hkey', hname, hcols⟩ := hyields.ended g hg hjoin side hside
      obtain rfl : key = key' := Option.some.inj (hkey.symm.trans hkey')
      have hkey := hall r hr hkind
      rw [hname, hcols, hlaw (Lower.implicitKey_spec hkey').1] at hkey
      exact hkey
  · intro hwhole r hr hkind
    rcases hyields.sound r hr hkind with ⟨e, ref, href, hfields, ref', target, href', htarget, hcolumned, hname, hcols⟩ |
      ⟨g, hg, hjoin, side, hside, key, hkey, hname, hcols⟩
    · obtain rfl : ref = ref' := Option.some.inj (href.symm.trans href')
      rw [hname, hcols, hlaw htarget]
      exact (hwritten htarget hcolumned).mpr (hwhole.written e ref href hfields target htarget)
    · rw [hname, hcols, hlaw (Lower.implicitKey_spec hkey).1]
      exact hwhole.implicit g hg hjoin side hside key hkey

open Build

theorem references_keys_blog : blog.lowered.ReferencesKeys ↔ blog.WholeKeys :=
  references_keys_iff (parse_lowered (by decide +kernel)) (by decide +kernel)

-- A key of two columns, of which a relation names one, and which the join table of an
-- implicit many-to-many refers to by its first column.
def halfKey : Ast := schema "postgres"
  [model "Order" [field "shop" "Int" .required [], field "number" "Int" .required [],
      field "items" "Item" .list [], field "tags" "Tag" .list []]
    [attr "id" [.positional (names ["shop", "number"])]],
   model "Item" [idField, field "orderNumber" "Int" .required [],
     field "order" "Order" .required [relation ["orderNumber"] ["number"] []]] [],
   model "Tag" [idField, field "orders" "Order" .list []] []]

theorem half_key : Accepted halfKey.lowered ∧ ¬ halfKey.lowered.ReferencesKeys := by
  refine ⟨accepted_lowered (by decide +kernel), fun h => ?_⟩
  have hall : ∃ r ∈ halfKey.lowered.relations, r.kind ≠ .manyToMany ∧
      ∀ target ∈ halfKey.lowered.models.get? r.target, ∀ key ∈ target.keys,
        ∃ c ∈ Lower.joinColumns target key, c ∉ r.targetCols := by
    decide +kernel
  obtain ⟨r, hr, hkind, hnone⟩ := hall
  obtain ⟨target, htarget, key, hkey, _, hcols⟩ := h r hr hkind
  obtain ⟨c, hc, hout⟩ := hnone target htarget key hkey
  exact hout ((hcols c).mpr hc)

end Ruprizzle
