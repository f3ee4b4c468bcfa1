import Ruprizzle.Parser.Places

namespace Ruprizzle

namespace ResolvedRelation

-- The field that owns the relation, and the one that navigates it back.
def ownerPlace (r : ResolvedRelation) : Place := (r.owner, r.ownerField)

def targetPlace (r : ResolvedRelation) : Option Place := r.targetField.map fun f => (r.target, f)

def Names (r : ResolvedRelation) (e : Place) : Prop := e = r.ownerPlace ∨ some e = r.targetPlace

instance (r : ResolvedRelation) (e : Place) : Decidable (r.Names e) :=
  inferInstanceAs (Decidable (_ ∨ _))

-- Where the actions are written: a many-to-many has those of the join model's
-- key to its owner.
def keyPlace (r : ResolvedRelation) : Place :=
  match r.joinModel, r.joinOwnerField with
  | some join, some field => (join, field)
  | _, _ => r.ownerPlace

-- The key's columns exist and match those they reference one by one.
def Keyed (models : IndexMap ModelName Model) (r : ResolvedRelation) : Prop :=
  ∃ owner ∈ models.get? r.owner, ∃ target ∈ models.get? r.target,
    List.Forall₂ (fun ownerCol targetCol => ∃ f ∈ owner.scalarFields, ∃ g ∈ target.scalarFields,
      f.column = ownerCol ∧ g.column = targetCol ∧ f.kind = g.kind) r.ownerCols r.targetCols

instance (models : IndexMap ModelName Model) (r : ResolvedRelation) : Decidable (r.Keyed models) :=
  inferInstanceAs (Decidable (∃ owner ∈ models.get? r.owner, ∃ target ∈ models.get? r.target, _))

-- A many-to-many has the columns of the join model's two foreign keys.
def Joined (models : IndexMap ModelName Model) (relations : List ResolvedRelation)
    (r : ResolvedRelation) : Prop :=
  ∃ join model, r.joinModel = some join ∧ models.get? join = some model ∧
    r.targetTable = model.table ∧
    ∃ toOwner ∈ relations, ∃ toTarget ∈ relations,
      toOwner.kind ≠ .manyToMany ∧ toTarget.kind ≠ .manyToMany ∧
      toOwner.owner = join ∧ toTarget.owner = join ∧
      r.joinOwnerField = some toOwner.ownerField ∧ r.joinTargetField = some toTarget.ownerField ∧
      toOwner.target = r.owner ∧ toTarget.target = r.target ∧
      toOwner.ownerCols = r.ownerCols ∧ toTarget.ownerCols = r.targetCols

def SetsNull (r : ResolvedRelation) : Prop := r.onDelete = .setNull ∨ r.onUpdate = .setNull

instance (r : ResolvedRelation) : Decidable r.SetsNull := inferInstanceAs (Decidable (_ ∨ _))

def Nullable (models : IndexMap ModelName Model) (r : ResolvedRelation) : Prop :=
  ∃ owner ∈ models.get? r.owner,
    ∀ c ∈ r.ownerCols, ∃ f ∈ owner.scalarFields, f.column = c ∧ f.optional = true

instance (models : IndexMap ModelName Model) (r : ResolvedRelation) :
    Decidable (r.Nullable models) :=
  inferInstanceAs (Decidable (∃ owner ∈ models.get? r.owner, _))

-- What a resolved relation is known to be. A SetNull that the schema does not
-- write comes from an optional key.
structure Wired (models : IndexMap ModelName Model) (relations : List ResolvedRelation)
    (r : ResolvedRelation) : Prop where
  apart : r.targetPlace ≠ some r.ownerPlace
  keyed : r.kind ≠ .manyToMany → r.Keyed models
  joined : r.kind = .manyToMany → r.Joined models relations
  nullable : ∃ ref, refAt models r.keyPlace = some ref ∧
    (ref.onDelete ≠ some .setNull → ref.onUpdate ≠ some .setNull → r.SetsNull → r.Nullable models)

variable {models models' : IndexMap ModelName Model} {relations relations' : List ResolvedRelation}

theorem Keyed.mono {r : ResolvedRelation} (hext : Extends models models') (h : r.Keyed models) :
    r.Keyed models' := by
  obtain ⟨owner, howner, target, htarget, hcols⟩ := h
  obtain ⟨owner', howner', hbareOwner⟩ := hext _ _ howner
  obtain ⟨target', htarget', hbareTarget⟩ := hext _ _ htarget
  refine ⟨owner', howner', target', htarget', ?_⟩
  rw [← scalarFields_bare owner', ← scalarFields_bare target', hbareOwner, hbareTarget,
    scalarFields_bare, scalarFields_bare]
  exact hcols

theorem Nullable.mono {r : ResolvedRelation} (hext : Extends models models')
    (h : r.Nullable models) : r.Nullable models' := by
  obtain ⟨owner, howner, hcols⟩ := h
  obtain ⟨owner', howner', hbare⟩ := hext _ _ howner
  refine ⟨owner', howner', ?_⟩
  rw [← scalarFields_bare owner', hbare, scalarFields_bare]
  exact hcols

theorem Joined.mono {r : ResolvedRelation} (hext : Extends models models')
    (hsub : relations ⊆ relations') (h : r.Joined models relations) :
    r.Joined models' relations' := by
  obtain ⟨join, model, hjoin, hmodel, htable, a, ha, b, hb, hrest⟩ := h
  obtain ⟨model', hmodel', hbare⟩ := hext _ _ hmodel
  have htable' : model'.table = model.table := (congrArg Model.table hbare :)
  exact ⟨join, model', hjoin, hmodel', htable.trans htable'.symm, a, hsub ha, b, hsub hb, hrest⟩

theorem Wired.mono {r : ResolvedRelation} (hext : Extends models models')
    (hsub : relations ⊆ relations') (h : r.Wired models relations) :
    r.Wired models' relations' := by
  refine ⟨h.apart, fun hk => (h.keyed hk).mono hext, fun hk => (h.joined hk).mono hext hsub, ?_⟩
  obtain ⟨ref, href, hnull⟩ := h.nullable
  obtain ⟨ref', href', hbare⟩ := hext.refAt href
  have hdelete : ref'.onDelete = ref.onDelete := (congrArg RelationRef.onDelete hbare :)
  have hupdate : ref'.onUpdate = ref.onUpdate := (congrArg RelationRef.onUpdate hbare :)
  refine ⟨ref', href', ?_⟩
  rw [hdelete, hupdate]
  exact fun hd hu hs => (hnull hd hu hs).mono hext

end ResolvedRelation

namespace Lower

def Side.place (s : Side) : Place := (s.model, s.field)

-- The pass midway: the fields still without a relation are those in pending.
structure Pass.Resolving (p : Pass) (pending : List Place) : Prop where
  nodup : pending.Nodup
  pending_iff : ∀ e, (∃ ref, refAt p.models e = some ref ∧ ref.resolved = none) ↔ e ∈ pending
  marks : ∀ e ref i, refAt p.models e = some ref → ref.resolved = some i →
    ∃ r, p.relations[i]? = some r ∧ r.Names e
  owned : ∀ i r, p.relations[i]? = some r →
    ∃ ref, refAt p.models r.ownerPlace = some ref ∧ ref.resolved = some i
  wired : ∀ r ∈ p.relations, r.Wired p.models p.relations

theorem refAt_markResolved (models : IndexMap ModelName Model) (m : ModelName) (f : FieldName)
    (index : Nat) (e : Place) :
    refAt (markResolved models m f index) e =
      if e = (m, f) then (refAt models e).map (fun r => { r with resolved := some index })
      else refAt models e :=
  refAt_modifyRelation models m f _ e

theorem refAt_foldl_markResolved (index : Nat) (ends : List Place)
    (models : IndexMap ModelName Model) (e : Place) :
    refAt (ends.foldl (fun models (m, f) => markResolved models m f index) models) e =
      if e ∈ ends then (refAt models e).map (fun r => { r with resolved := some index })
      else refAt models e := by
  induction ends generalizing models with
  | nil => simp
  | cons a rest ih =>
      obtain ⟨m, f⟩ := a
      rw [List.foldl_cons, ih, refAt_markResolved]
      by_cases ha : e = (m, f)
      · subst ha
        cases refAt models (m, f) <;> simp
      · simp [ha]

theorem refAt_push (p : Pass) (r : ResolvedRelation) (ends : List Place) (e : Place) :
    refAt (p.push r ends).models e =
      if e ∈ ends then (refAt p.models e).map (fun ref => { ref with resolved := some p.relations.length })
      else refAt p.models e :=
  refAt_foldl_markResolved _ _ _ _

theorem extends_push (p : Pass) (r : ResolvedRelation) (ends : List Place) :
    Extends p.models (p.push r ends).models := by
  have hfold : ∀ (ends : List Place) (models : IndexMap ModelName Model), Extends models
      (ends.foldl (fun models (m, f) => markResolved models m f p.relations.length) models) := by
    intro ends
    induction ends with
    | nil => exact fun models => Extends.refl models
    | cons a rest ih =>
        intro models
        have hmark : Extends models (markResolved models a.1 a.2 p.relations.length) :=
          Extends.modifyRelation models a.1 a.2 _ fun _ => rfl
        exact hmark.trans (ih _)
  exact hfold ends p.models

-- A relation recorded with the fields that navigate it settles those fields.
theorem Pass.Resolving.push {p : Pass} {ends rest : List Place} (h : p.Resolving (ends ++ rest))
    {r : ResolvedRelation} (howner : r.ownerPlace ∈ ends) (hends : ∀ e ∈ ends, r.Names e)
    (hwired : r.Wired p.models p.relations) : (p.push r ends).Resolving rest := by
  obtain ⟨hends', hrest', hdisjoint⟩ := List.nodup_append.mp h.nodup
  have hext := extends_push p r ends
  have hsub : p.relations ⊆ (p.push r ends).relations := List.subset_append_left _ _
  have hopen : ∀ e ∈ ends, ∃ ref, refAt p.models e = some ref ∧ ref.resolved = none :=
    fun e he => (h.pending_iff e).mpr (List.mem_append_left _ he)
  have hold : ∀ (i : Nat) (q : ResolvedRelation), p.relations[i]? = some q →
      (p.push r ends).relations[i]? = some q := by
    intro i q hq
    have hi : i < p.relations.length := (List.getElem?_eq_some_iff.mp hq).1
    rw [show (p.push r ends).relations = p.relations ++ [r] from rfl,
      List.getElem?_append_left hi, hq]
  have hnew : (p.push r ends).relations[p.relations.length]? = some r := by
    simp [Pass.push]
  refine ⟨hrest', ?_, ?_, ?_, ?_⟩
  · intro e
    rw [refAt_push]
    by_cases he : e ∈ ends
    · have hr : e ∉ rest := fun hr => hdisjoint e he e hr rfl
      simp [he, hr]
    · rw [if_neg he, h.pending_iff e]
      simp [he]
  · intro e ref i href hres
    rw [refAt_push] at href
    split at href
    · rename_i he
      obtain ⟨ref', _, rfl⟩ := Option.map_eq_some_iff.mp href
      cases hres
      exact ⟨r, hnew, hends e he⟩
    · obtain ⟨q, hq, hnames⟩ := h.marks e ref i href hres
      exact ⟨q, hold i q hq, hnames⟩
  · intro i q hq
    rw [show (p.push r ends).relations = p.relations ++ [r] from rfl] at hq
    rw [refAt_push]
    by_cases hi : i < p.relations.length
    · rw [List.getElem?_append_left hi] at hq
      obtain ⟨ref, href, hres⟩ := h.owned i q hq
      have hne : q.ownerPlace ∉ ends := by
        intro hmem
        obtain ⟨ref', href', hnone⟩ := hopen _ hmem
        rw [href] at href'
        cases href'
        rw [hres] at hnone
        cases hnone
      exact ⟨ref, by rw [if_neg hne, href], hres⟩
    · have hi' : i = p.relations.length := by
        have := (List.getElem?_eq_some_iff.mp hq).1
        simp only [List.length_append, List.length_singleton] at this
        omega
      subst hi'
      simp only [List.getElem?_concat_length, Option.some.injEq] at hq
      subst hq
      obtain ⟨ref, href, _⟩ := hopen _ howner
      rw [if_pos howner, href]
      exact ⟨_, rfl, rfl⟩
  · intro q hq
    rcases List.mem_append.mp hq with hq | hq
    · exact (h.wired q hq).mono hext hsub
    · rw [List.mem_singleton.mp hq]
      exact hwired.mono hext hsub

theorem Pass.Resolving.pushOwned {p : Pass} {e : Place} {rest : List Place}
    (h : p.Resolving (e :: rest)) {r : ResolvedRelation} (hplace : r.ownerPlace = e)
    (hwired : r.Wired p.models p.relations) : (p.push r [e]).Resolving rest :=
  Pass.Resolving.push h (by simp [hplace])
    (fun _ he => Or.inl ((List.mem_singleton.mp he).trans hplace.symm)) hwired

-- What a foreign key built from a side is.
structure Built (models : IndexMap ModelName Model) (owner : Side) (back : Option Side)
    (ref : RelationRef) (r : ResolvedRelation) : Prop where
  kind : r.kind ≠ .manyToMany
  place : r.ownerPlace = owner.place
  target : r.target = owner.target
  targetField : r.targetField = back.map Side.field
  joinModel : r.joinModel = none
  keyed : r.Keyed models
  nullable : ref.onDelete ≠ some .setNull → ref.onUpdate ≠ some .setNull → r.SetsNull →
    r.Nullable models
  columns : ∃ model, models.get? owner.model = some model ∧
    r.ownerCols = joinColumns model ref.fields

theorem warning_of_errors {diags : Diagnostics} (h : Diagnostics.errors diags = [])
    {d : SchemaError} (hd : d ∈ diags) : d.isWarning = true := by
  simpa using List.filter_eq_nil_iff.mp h d hd

theorem fkField_eq_some {model : Model} {n : FieldName} {f : Field}
    (h : fkField model n = some f) : model.fields.get? n = some f ∧ f ∈ model.scalarFields := by
  obtain ⟨hget, hf⟩ := Option.filter_eq_some_iff.mp h
  simp only [Bool.and_eq_true] at hf
  exact ⟨hget, List.mem_filter.mpr ⟨IndexMap.mem_values_of_get? hget, hf.1⟩⟩

theorem filterMap_fkField {model : Model} {names : List FieldName}
    (h : ∀ n ∈ names, (fkField model n).isSome = true) :
    (names.filterMap (fkField model)).map Field.column = joinColumns model names := by
  rw [joinColumns, List.map_filterMap]
  apply List.filterMap_congr
  intro n hn
  obtain ⟨f, hf⟩ := Option.isSome_iff_exists.mp (h n hn)
  rw [hf, (fkField_eq_some hf).1]

theorem buildRelation_built {models : IndexMap ModelName Model} {owner : Side}
    {back : Option Side} {ref : RelationRef} (href : refAt models owner.place = some ref)
    (htarget : owner.target ∈ models.keys)
    (hclean : Diagnostics.errors (buildRelation owner back models).2 = []) :
    ∃ r, (buildRelation owner back models).1 = some r ∧ Built models owner back ref r := by
  obtain ⟨field, hfield, hrel⟩ := Option.bind_eq_some_iff.mp href
  obtain ⟨ownerModel, howner, hget⟩ := Option.bind_eq_some_iff.mp hfield
  obtain ⟨targetModel, htarget⟩ := IndexMap.mem_keys_iff_get?.mp htarget
  simp only [Side.place] at howner hget
  generalize hres : buildRelation owner back models = res at hclean ⊢
  unfold buildRelation at hres
  simp only [howner, htarget, hget, Option.bind_some, hrel] at hres
  generalize (if ref.references.isEmpty then targetModel.primaryKey.fields
    else ref.references) = names at hres
  split at hres
  · subst hres
    cases hclean
  · rename_i hfks
    split at hres
    · subst hres
      cases hclean
    · rename_i hrefs
      split at hres
      · subst hres
        cases hclean
      · rename_i hlength
        subst hres
        have hkinds : ∀ fk g, (fk, g) ∈ (ref.fields.filterMap (fkField ownerModel)).zip
            (names.filterMap (refField targetModel)) → fk.kind = g.kind := by
          intro fk g hmem
          by_contra hne
          exact absurd (warning_of_errors hclean (List.mem_append_left _
            (List.mem_filterMap.mpr ⟨(fk, g), hmem, if_pos hne⟩))) Bool.false_ne_true
        have hoptional : owner.optional = true →
            ∀ fk ∈ ref.fields.filterMap (fkField ownerModel), fk.optional = true := by
          intro ho fk hfk
          by_contra hne
          have hreport : SchemaError.relationNullabilityMismatch owner.model.str owner.field.str
              fk.name.str (describeKind fk.kind) fk.span ∈ if owner.optional then
                ((ref.fields.filterMap (fkField ownerModel)).filter (fun fk => !fk.optional)).map
                  fun fk => SchemaError.relationNullabilityMismatch owner.model.str
                    owner.field.str fk.name.str (describeKind fk.kind) fk.span else [] := by
            rw [if_pos ho]
            exact List.mem_map.mpr ⟨fk, List.mem_filter.mpr ⟨hfk, by simpa using hne⟩, rfl⟩
          exact Bool.false_ne_true
            (warning_of_errors hclean (List.mem_append_right _ hreport))
        have hscalar : ∀ fk ∈ ref.fields.filterMap (fkField ownerModel),
            fk ∈ ownerModel.scalarFields := by
          intro fk hfk
          obtain ⟨n, _, hn⟩ := List.mem_filterMap.mp hfk
          exact (fkField_eq_some hn).2
        refine ⟨_, rfl, ?_, rfl, rfl, rfl, rfl, ?_, ?_, ?_⟩
        · dsimp only
          split <;> decide
        · refine ⟨ownerModel, howner, targetModel, htarget, ?_⟩
          simp only [List.forall₂_map_left_iff, List.forall₂_map_right_iff]
          refine List.forall₂_iff_zip.mpr ⟨not_ne_iff.mp hlength, ?_⟩
          intro fk g hmem
          obtain ⟨n, _, hn⟩ := List.mem_filterMap.mp (List.of_mem_zip hmem).2
          have hg : g ∈ targetModel.scalarFields := by
            have hfk := hscalar fk (List.of_mem_zip hmem).1
            refine List.mem_filter.mpr ⟨IndexMap.mem_values_of_get?
              (Option.filter_eq_some_iff.mp hn).1, ?_⟩
            rw [Field.hasColumn, ← hkinds fk g hmem]
            exact (List.mem_filter.mp hfk).2
          exact ⟨fk, hscalar fk (List.of_mem_zip hmem).1, g, hg, rfl, rfl, hkinds fk g hmem⟩
        · intro hdelete hupdate hsets
          refine ⟨ownerModel, howner, ?_⟩
          intro c hc
          obtain ⟨fk, hfk, rfl⟩ := List.mem_map.mp hc
          refine ⟨fk, hscalar fk hfk, rfl, hoptional ?_ fk hfk⟩
          -- Neither action is written, so SetNull is the default of an optional key.
          by_contra hreq
          rcases hsets with hsets | hsets
          · cases hd : ref.onDelete with
            | none => simp [hd, hreq] at hsets
            | some action => simp_all
          · cases hu : ref.onUpdate with
            | none => simp [hu] at hsets
            | some action => simp_all
        · refine ⟨ownerModel, howner, filterMap_fkField ?_⟩
          intro n hn
          have hsome := List.find?_eq_none.mp hfks n hn
          rw [Option.isSome_iff_ne_none]
          simpa using hsome

theorem Built.wired {models : IndexMap ModelName Model} {relations : List ResolvedRelation}
    {owner : Side} {back : Option Side} {ref : RelationRef} {r : ResolvedRelation}
    (h : Built models owner back ref r) (href : refAt models owner.place = some ref)
    (hapart : ∀ b, back = some b → (owner.target, b.field) ≠ owner.place) :
    r.Wired models relations := by
  refine ⟨?_, fun _ => h.keyed, fun hk => absurd hk h.kind, ?_⟩
  · rw [ResolvedRelation.targetPlace, h.targetField, h.target, h.place]
    intro heq
    simp only [Option.map_map, Option.map_eq_some_iff] at heq
    obtain ⟨b, hb, heq⟩ := heq
    exact hapart b hb heq
  · refine ⟨ref, ?_, h.nullable⟩
    rw [ResolvedRelation.keyPlace, h.joinModel]
    exact h.place ▸ href

-- A key of a join model that already has its relation.
def Keyholder (models : IndexMap ModelName Model) (relations : List ResolvedRelation) (fk : Side) :
    Prop :=
  ∃ q ∈ relations, q.kind ≠ .manyToMany ∧ q.ownerPlace = fk.place ∧ q.target = fk.target ∧
    ∃ model ref, models.get? fk.model = some model ∧ refAt models fk.place = some ref ∧
      q.ownerCols = joinColumns model ref.fields

theorem joinColumns_bare {m m' : Model} (h : m'.bare = m.bare) (names : List FieldName) :
    joinColumns m' names = joinColumns m names := by
  unfold joinColumns
  apply List.filterMap_congr
  intro n _
  have hget := congrArg (fun m : Model => (m.fields.get? n).map Field.column) h
  simp only [Model.bare, IndexMap.get?_mapValues, Option.map_map] at hget
  exact hget

theorem Keyholder.mono {models models' : IndexMap ModelName Model}
    {relations relations' : List ResolvedRelation} {fk : Side} (hext : Extends models models')
    (hsub : relations ⊆ relations') (h : Keyholder models relations fk) :
    Keyholder models' relations' fk := by
  obtain ⟨q, hq, hkind, hplace, htarget, model, ref, hmodel, href, hcols⟩ := h
  obtain ⟨model', hmodel', hbare⟩ := hext _ _ hmodel
  obtain ⟨ref', href', hrefBare⟩ := hext.refAt href
  have hfields : ref'.fields = ref.fields := (congrArg RelationRef.fields hrefBare :)
  refine ⟨q, hsub hq, hkind, hplace, htarget, model', ref', hmodel', href', ?_⟩
  rw [hcols, hfields, joinColumns_bare hbare]

theorem buildManyToManyRelation_wired {models : IndexMap ModelName Model}
    {relations : List ResolvedRelation} {a b : Side} {fks : List Side} {join : ModelName}
    (hjoin : a.joinModel = some join) (hkeys : join ∈ models.keys)
    (hfks : ∀ fk ∈ fks, fk.model = join ∧ Keyholder models relations fk)
    (hapart : a.place ≠ b.place)
    (hclean : Diagnostics.errors (buildManyToManyRelation a b fks models).2 = []) :
    ∃ r, (buildManyToManyRelation a b fks models).1 = some r ∧ r.ownerPlace = a.place ∧
      r.Wired models relations := by
  obtain ⟨model, hmodel⟩ := IndexMap.mem_keys_iff_get?.mp hkeys
  generalize hres : buildManyToManyRelation a b fks models = res at hclean ⊢
  unfold buildManyToManyRelation at hres
  simp only [hjoin, Option.bind_some, hmodel, Option.map_some] at hres
  split at hres
  · subst hres
    cases hclean
  · subst hres
    cases hclean
  · rename_i toOwner toTarget howner htarget
    obtain ⟨howned, hq⟩ := hfks toOwner (List.mem_of_find?_eq_some howner)
    obtain ⟨htargeted, hq'⟩ := hfks toTarget (List.mem_of_find?_eq_some htarget)
    obtain ⟨q, hq, hkind, hplace, hto, m, ref, hm, href, hcols⟩ := hq
    obtain ⟨q', hq', hkind', hplace', hto', m', ref', hm', href', hcols'⟩ := hq'
    have hmo : model = m := Option.some.inj (hmodel.symm.trans (howned ▸ hm))
    have hmt : model = m' := Option.some.inj (hmodel.symm.trans (htargeted ▸ hm'))
    subst hmo
    subst hmt
    have hrefOwner : (model.fields.get? toOwner.field).bind Field.relation = some ref := by
      simpa [refAt, Side.place, hm] using href
    have hrefTarget : (model.fields.get? toTarget.field).bind Field.relation = some ref' := by
      simpa [refAt, Side.place, hm'] using href'
    simp only [hrefOwner, hrefTarget] at hres
    subst hres
    refine ⟨_, rfl, rfl, ?_, fun hk => absurd rfl hk, fun _ => ?_, ref, ?_, ?_⟩
    · intro heq
      exact hapart (Option.some.inj heq).symm
    · refine ⟨join, model, rfl, hmodel, rfl, q, hq, q', hq', hkind, hkind', ?_, ?_, ?_, ?_, ?_, ?_,
        hcols, hcols'⟩
      · exact (congrArg Prod.fst hplace).trans howned
      · exact (congrArg Prod.fst hplace').trans htargeted
      · exact congrArg some (congrArg Prod.snd hplace).symm
      · exact congrArg some (congrArg Prod.snd hplace').symm
      · exact hto.trans (by simpa using List.find?_some howner)
      · exact hto'.trans (by simpa using List.find?_some htarget)
    · exact howned ▸ href
    · intro hdelete hupdate hsets
      rcases hsets with hsets | hsets
      · cases hd : ref.onDelete with
        | none => simp [hd] at hsets
        | some action => simp_all
      · cases hu : ref.onUpdate with
        | none => simp [hu] at hsets
        | some action => simp_all

end Lower

end Ruprizzle
