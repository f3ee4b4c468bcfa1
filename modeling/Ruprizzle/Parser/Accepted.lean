import Ruprizzle.Parser.Validate

namespace Ruprizzle

-- Every key of a map of models, and of their fields, is the name it stands for.
def Named (models : IndexMap ModelName Model) : Prop :=
  ∀ k m, (k, m) ∈ models.entries → m.name = k ∧ ∀ n f, (n, f) ∈ m.fields.entries → f.name = n

-- What downstream code may rely on in a schema the parser accepted.
structure Schema.WellFormed (s : Schema) : Prop where
  named : Named s.models
  enumNamed : ∀ k e, (k, e) ∈ s.enums.entries → e.name = k
  enumTyped : ∀ e ∈ s.enums.values, e.dbName = Naming.enumTypeName e.name.str
  columns : ∀ m ∈ s.models.values, (m.scalarFields.map Field.column).Nodup
  tables : (s.models.values.map Model.table).Nodup
  enumTypes : (s.enums.values.map EnumDef.dbName).Nodup
  keyFields : ∀ m ∈ s.models.values, ∀ n ∈ m.primaryKey.fields, n ∈ m.fields.keys
  indexable : ∀ m ∈ s.models.values, ∀ targets,
    targets ∈ m.indexes.map IndexDef.targets ++ m.uniques.map UniqueDef.targets →
      ∀ n order, IndexTarget.field n order ∈ targets →
        ∃ f, m.fields.get? n = some f ∧ f.hasColumn = true
  owners : ∀ r ∈ s.relations, r.owner ∈ s.models.keys

namespace Lower

theorem lowerField_name (decl : Ast.FieldDecl) (env : NameEnv)
    (enums : IndexMap EnumName EnumDef) : (lowerField decl env enums).1.name = ⟨decl.name⟩ := rfl

theorem lowerFields_named (decl : Ast.ModelDecl) (env : NameEnv)
    (enums : IndexMap EnumName EnumDef) (n : FieldName) (f : Field)
    (h : (n, f) ∈ (lowerFields decl env enums).1.entries) : f.name = n := by
  revert n f
  unfold lowerFields
  refine List.foldlRecOn (motive := fun (acc : IndexMap FieldName Field × Diagnostics) =>
    ∀ n f, (n, f) ∈ acc.1.entries → f.name = n) decl.fields _ (by simp) ?_
  intro acc hacc d _ n f hf
  dsimp only at hf
  split at hf
  · rcases IndexMap.mem_entries_insert.mp hf with ⟨rfl, rfl⟩ | ⟨_, hf⟩
    · rfl
    · exact hacc n f hf
  · exact hacc n f hf

theorem lowerModels_named (ast : Ast) (env : NameEnv) (enums : IndexMap EnumName EnumDef) :
    Named (lowerModels ast env enums).1 := by
  unfold lowerModels
  refine List.foldlRecOn (motive := fun (acc : IndexMap ModelName Model × Diagnostics) =>
    Named acc.1) ast.models _ (by simp [Named]) ?_
  intro acc hacc d _ k m hm
  rcases IndexMap.mem_entries_insert.mp hm with ⟨rfl, rfl⟩ | ⟨_, hm⟩
  · exact ⟨rfl, lowerFields_named d env enums⟩
  · exact hacc k m hm

theorem lowerEnums_named (ast : Ast) (k : EnumName) (e : EnumDef)
    (h : (k, e) ∈ (lowerEnums ast).1.entries) :
    e.name = k ∧ e.dbName = Naming.enumTypeName e.name.str := by
  revert k e
  unfold lowerEnums
  refine List.foldlRecOn (motive := fun (acc : IndexMap EnumName EnumDef × Diagnostics) =>
    ∀ k e, (k, e) ∈ acc.1.entries → e.name = k ∧ e.dbName = Naming.enumTypeName e.name.str)
    ast.enums _ (by simp) ?_
  intro acc hacc d _ k e he
  rcases IndexMap.mem_entries_insert.mp he with ⟨rfl, rfl⟩ | ⟨_, he⟩
  · exact ⟨rfl, rfl⟩
  · exact hacc k e he

theorem modifyRelation_named {models : IndexMap ModelName Model} (h : Named models)
    (model : ModelName) (field : FieldName) (g : RelationRef → RelationRef) :
    Named (modifyRelation models model field g) := by
  intro k m hm
  obtain ⟨v, hv, rfl⟩ := IndexMap.mem_entries_modify.mp hm
  obtain ⟨hname, hfields⟩ := h k v hv
  split
  · refine ⟨hname, ?_⟩
    intro n f hf
    obtain ⟨f', hf', rfl⟩ := IndexMap.mem_entries_modify.mp hf
    split <;> exact hfields n f' hf'
  · exact ⟨hname, hfields⟩

@[simp] theorem modifyRelation_keys (models : IndexMap ModelName Model) (model : ModelName)
    (field : FieldName) (g : RelationRef → RelationRef) :
    (modifyRelation models model field g).keys = models.keys :=
  IndexMap.keys_modify _ _ _

theorem syntheticModel_named (join a b : ModelName) (pkNameA pkNameB : FieldName) (pkA pkB : Field)
    (n : FieldName) (f : Field)
    (h : (n, f) ∈ (syntheticModel join a b pkNameA pkNameB pkA pkB).fields.entries) :
    f.name = n := by
  simp only [syntheticModel, IndexMap.mem_entries_insert, IndexMap.entries_empty] at h
  rcases h with ⟨rfl, rfl⟩ | ⟨_, ⟨rfl, rfl⟩ | ⟨_, ⟨rfl, rfl⟩ | ⟨_, ⟨rfl, rfl⟩ | ⟨_, h⟩⟩⟩⟩
  · rfl
  · rfl
  · rfl
  · rfl
  · simp at h

-- What every step of the relation pass keeps. The names are those of the
-- models the pass started from: synthesised models only add to them.
structure Pass.Sound (names : List ModelName) (p : Pass) : Prop where
  named : Named p.models
  grown : ∀ k ∈ names, k ∈ p.models.keys
  known : ∀ r ∈ p.relations, r.owner ∈ p.models.keys

theorem Pass.Sound.report {names : List ModelName} {p : Pass} (h : p.Sound names)
    (d : Diagnostics) : (p.report d).Sound names :=
  ⟨h.named, h.grown, h.known⟩

theorem foldl_markResolved (index : Nat) (ends : List (ModelName × FieldName))
    (models : IndexMap ModelName Model) (h : Named models) :
    Named (ends.foldl (fun models (m, f) => markResolved models m f index) models) ∧
      (ends.foldl (fun models (m, f) => markResolved models m f index) models).keys =
        models.keys := by
  induction ends generalizing models with
  | nil => exact ⟨h, rfl⟩
  | cons e rest ih =>
      obtain ⟨hn, hk⟩ := ih (markResolved models e.1 e.2 index) (modifyRelation_named h _ _ _)
      exact ⟨hn, hk.trans (modifyRelation_keys _ _ _ _)⟩

theorem Pass.push_keys (p : Pass) (r : ResolvedRelation) (ends : List (ModelName × FieldName))
    (h : Named p.models) : (p.push r ends).models.keys = p.models.keys :=
  (foldl_markResolved p.relations.length ends p.models h).2

theorem Pass.Sound.push {names : List ModelName} {p : Pass} (h : p.Sound names)
    (r : ResolvedRelation) (ends : List (ModelName × FieldName)) (hr : r.owner ∈ p.models.keys) :
    (p.push r ends).Sound names := by
  refine ⟨(foldl_markResolved p.relations.length ends p.models h.named).1, ?_, ?_⟩
  · intro k hk
    rw [Pass.push_keys p r ends h.named]
    exact h.grown k hk
  · intro q hq
    rw [Pass.push_keys p r ends h.named]
    rcases List.mem_append.mp hq with hq | hq
    · exact h.known q hq
    · rw [List.mem_singleton.mp hq]
      exact hr

theorem buildRelation_owner {owner : Side} {back : Option Side}
    {models : IndexMap ModelName Model} {r : ResolvedRelation}
    (h : (buildRelation owner back models).1 = some r) : r.owner ∈ models.keys := by
  unfold buildRelation at h
  split at h
  · rename_i ownerModel targetModel ho _
    have hk : owner.model ∈ models.keys := IndexMap.mem_keys_iff_get?.mpr ⟨_, ho⟩
    split at h
    · cases h
    · split at h
      · cases h
      · rename_i rel _ _ _
        dsimp only at h
        generalize (if rel.references.isEmpty then targetModel.primaryKey.fields
          else rel.references) = names at h
        split at h
        · cases h
        · split at h
          · cases h
          · cases h
            exact hk
  · cases h

theorem buildManyToManyRelation_owner {owner back : Side} {fks : List Side}
    {models : IndexMap ModelName Model} {r : ResolvedRelation}
    (h : (buildManyToManyRelation owner back fks models).1 = some r) : r.owner = owner.model := by
  unfold buildManyToManyRelation at h
  split at h
  · cases h
  · split at h
    · cases h
    · cases h
    · split at h
      · cases h
        rfl
      · cases h

theorem Pass.Sound.pushBuilt {names : List ModelName} {p : Pass} (h : p.Sound names) (s : Side)
    (built : Option ResolvedRelation × Diagnostics)
    (hb : ∀ r, built.1 = some r → r.owner ∈ p.models.keys) : (p.pushBuilt s built).Sound names := by
  unfold Pass.pushBuilt
  split
  · rename_i r hr
    exact (h.report built.2).push r _ (hb r hr)
  · exact h.report built.2

theorem Pass.Sound.pushList {names : List ModelName} {p : Pass} (h : p.Sound names)
    {a b : Side} {fks : List Side} (ha : a.model ∈ names) :
    (p.pushBuilt a (buildManyToManyRelation a b fks p.models)).Sound names :=
  h.pushBuilt a _ (fun _ hr => (buildManyToManyRelation_owner hr) ▸ h.grown _ ha)

theorem resolveImplicitManyToMany_sound {names : List ModelName} {p : Pass} (h : p.Sound names)
    (a b : Side) (ha : a.model ∈ names) (hb : b.model ∈ names) :
    (resolveImplicitManyToMany p a b).Sound names := by
  unfold resolveImplicitManyToMany
  dsimp only
  split
  · rename_i modelA pkNameA pkA modelB pkNameB pkB _ _
    generalize hj : (ModelName.mk _ : ModelName) = join
    generalize (if ¬ b.model.str < a.model.str then (a.model, b.model)
      else (b.model, a.model)) = pair
    -- The inserted model is itself an owner; every other name stays a key.
    let q : Pass := { p with
      models := modifyRelation (modifyRelation
        (p.models.insert join (syntheticModel join pair.1 pair.2 pkNameA pkNameB pkA pkB))
        a.model a.field (fun r => { r with through := some join }))
        b.model b.field (fun r => { r with through := some join }) }
    have hkeys : ∀ k, k ∈ q.models.keys ↔ k = join ∨ k ∈ p.models.keys := by
      intro k
      simp only [q, modifyRelation_keys, IndexMap.mem_keys_insert]
    have hq : q.Sound names := by
      refine ⟨modifyRelation_named (modifyRelation_named ?_ _ _ _) _ _ _, ?_, ?_⟩
      · intro k m hm
        rcases IndexMap.mem_entries_insert.mp hm with ⟨rfl, rfl⟩ | ⟨_, hm⟩
        · exact ⟨rfl, syntheticModel_named _ _ _ _ _ _ _⟩
        · exact h.named k m hm
      · exact fun k hk => (hkeys k).mpr (Or.inr (h.grown k hk))
      · exact fun r hr => (hkeys r.owner).mpr (Or.inr (h.known r hr))
    have hjoin : join ∈ q.models.keys := (hkeys join).mpr (Or.inl rfl)
    have h1 := hq.push (joinForeignKey join "a" "A" modelA pair.1 pkA) [(join, ⟨"a_rel"⟩)] hjoin
    have h2 := h1.push (joinForeignKey join "b" "B" modelB pair.2 pkB) [(join, ⟨"b_rel"⟩)]
      (by rw [Pass.push_keys _ _ _ hq.named]; exact hjoin)
    have h3 := h2.push (implicitManyToMany join pair.1 a b) [(a.model, a.field)]
      (h2.grown _ ha)
    exact h3.push (implicitManyToMany join pair.1 b a) [(b.model, b.field)] (h3.grown _ hb)
  · exact h

theorem resolveGroup_sound {names : List ModelName} {p : Pass} (h : p.Sound names)
    (group : List Side) (hg : ∀ s ∈ group, s.model ∈ names) : (resolveGroup p group).Sound names := by
  unfold resolveGroup
  split
  · exact h.report _
  · exact h.report _
  · exact h.report _
  · split
    · exact resolveImplicitManyToMany_sound h _ _ (hg _ (by simp)) (hg _ (by simp))
    · exact h.report _
  · exact h.report _
  · dsimp only
    split
    · rename_i r hr
      exact (h.report _).push r _ (buildRelation_owner hr)
    · exact h.report _
  · exact h.report _
  · exact h

theorem resolveThroughGroup_sound {names : List ModelName} {p : Pass} (h : p.Sound names)
    (group : List Side) (hg : ∀ s ∈ group, s.model ∈ names) :
    (resolveThroughGroup p group).Sound names := by
  unfold resolveThroughGroup
  dsimp only
  have hlists : ∀ s ∈ group.filter (fun s => !s.isOwner), s.model ∈ names :=
    fun s hs => hg s (List.mem_filter.mp hs).1
  generalize group.filter (fun s => !s.isOwner) = lists at hlists ⊢
  generalize group.filter Side.isOwner = fks
  split
  · rename_i a b fk₁ fk₂
    split
    · exact h.report _
    · have hfk := List.foldlRecOn (motive := fun (p : Pass) => p.Sound names) [fk₁, fk₂]
        (fun p fk => p.pushBuilt fk (buildRelation fk
          ([a, b].find? (fun s => s.model = fk.target)) p.models)) h
        (fun p hp fk _ => hp.pushBuilt fk _ (fun r hr => buildRelation_owner hr))
      exact (hfk.pushList (hlists a (by simp))).pushList (hlists b (by simp))
  · exact h.report _
  · exact h

theorem side_model {models : IndexMap ModelName Model} {model : Model} {field : Field}
    {rel : RelationRef} {s : Side} (h : side models model field rel = .inl s) :
    s.model = model.name := by
  unfold side at h
  split at h
  · split at h
    · cases h
    · split at h
      · cases h
      · cases h
        rfl
  · cases h
    rfl

theorem collectSides_model {models : IndexMap ModelName Model} (h : Named models) {s : Side}
    (hs : s ∈ (collectSides models).1) : s.model ∈ models.keys := by
  have hs := (List.mem_filter.mp hs).1
  obtain ⟨e, he, hes⟩ := List.mem_filterMap.mp hs
  obtain ⟨model, hm, he⟩ := List.mem_flatMap.mp he
  obtain ⟨field, _, he⟩ := List.mem_filterMap.mp he
  obtain ⟨rel, _, rfl⟩ := Option.map_eq_some_iff.mp he
  obtain ⟨k, hk⟩ := IndexMap.mem_values.mp hm
  have hside : side models model field rel = .inl s := by
    cases hside : side models model field rel with
    | inl t => simp_all
    | inr e => simp [hside] at hes
  rw [side_model hside, (h k model hk).1]
  exact IndexMap.mem_keys.mpr ⟨model, hk⟩

theorem mem_groups {κ α : Type} [DecidableEq κ] {key : α → κ} {items group : List α} {a : α}
    (hg : group ∈ groups key items) (ha : a ∈ group) : a ∈ items := by
  suffices h : ∀ (m : IndexMap κ (List α)), (∀ g ∈ m.values, ∀ a ∈ g, a ∈ items) →
      ∀ (rest : List α), rest ⊆ items → ∀ g ∈ (rest.foldl (fun (m : IndexMap κ (List α)) a =>
        m.insert (key a) ((m.get? (key a)).getD [] ++ [a])) m).values, ∀ a ∈ g, a ∈ items from
    h .empty (by simp) items (List.Subset.refl _) group hg a ha
  intro m hm rest
  induction rest generalizing m with
  | nil => exact fun _ => hm
  | cons b rest ih =>
      intro hsub
      refine ih _ ?_ (fun x hx => hsub (List.mem_cons_of_mem b hx))
      intro g hg' x hx
      obtain ⟨k, hk⟩ := IndexMap.mem_values.mp hg'
      rcases IndexMap.mem_entries_insert.mp hk with ⟨_, rfl⟩ | ⟨_, hk⟩
      · rcases List.mem_append.mp hx with hx | hx
        · cases hget : m.get? (key b) with
          | none => simp [hget] at hx
          | some g => exact hm g (IndexMap.mem_values_of_get? hget) x (by simpa [hget] using hx)
        · rw [List.mem_singleton.mp hx]
          exact hsub (by simp)
      · exact hm g (IndexMap.mem_values.mpr ⟨k, hk⟩) x hx

theorem resolveRelations_sound {models : IndexMap ModelName Model} (h : Named models) :
    (resolveRelations models).Sound models.keys := by
  unfold resolveRelations
  have hside : ∀ s ∈ (collectSides models).1, s.model ∈ models.keys :=
    fun s hs => collectSides_model h hs
  have hstart : (Pass.mk models [] (collectSides models).2).Sound models.keys :=
    ⟨h, fun _ hk => hk, by simp⟩
  have hregular := List.foldlRecOn (motive := fun (p : Pass) => p.Sound models.keys)
    (groups groupKey ((collectSides models).1.filter (fun s => s.joinModel.isNone)))
    resolveGroup hstart (fun p hp g hg => resolveGroup_sound hp g
      (fun s hs => hside s (List.mem_filter.mp (mem_groups hg hs)).1))
  exact List.foldlRecOn (motive := fun (p : Pass) => p.Sound models.keys) _
    resolveThroughGroup hregular (fun p hp g hg => resolveThroughGroup_sound hp g
      (fun s hs => hside s (List.mem_filter.mp (mem_groups hg hs)).1))

end Lower

namespace Validate

theorem collisions_eq_nil {α : Type} {key : α → String} {report : α → α → SchemaError}
    {seen items : List α} (h : collisions key report seen items = []) :
    (items.map key).Nodup ∧ ∀ a ∈ items, ∀ b ∈ seen, key b ≠ key a := by
  induction items generalizing seen with
  | nil => simp
  | cons a rest ih =>
      simp only [collisions, List.append_eq_nil_iff] at h
      obtain ⟨hnodup, hseen⟩ := ih h.2
      have hfresh : ∀ b ∈ seen, key b ≠ key a := by
        cases hf : seen.find? (fun b => key b = key a) with
        | none => simpa using hf
        | some first => simp [hf] at h
      refine ⟨?_, ?_⟩
      · rw [List.map_cons, List.nodup_cons]
        refine ⟨?_, hnodup⟩
        intro hmem
        obtain ⟨b, hb, hkey⟩ := List.mem_map.mp hmem
        exact hseen b hb a (by simp) hkey.symm
      · intro b hb c hc
        rcases List.mem_cons.mp hb with rfl | hb
        · exact hfresh c hc
        · exact hseen b hb c (List.mem_cons_of_mem a hc)

theorem errors_collisions {α : Type} {key : α → String} {report : α → α → SchemaError}
    (hr : ∀ a b, (report a b).isWarning = false) (seen items : List α) :
    Diagnostics.errors (collisions key report seen items) = collisions key report seen items := by
  refine List.filter_eq_self.mpr ?_
  intro d hd
  induction items generalizing seen with
  | nil => simp [collisions] at hd
  | cons a rest ih =>
      rcases List.mem_append.mp hd with hd | hd
      · split at hd
        · rw [List.mem_singleton.mp hd, hr]
          rfl
        · simp at hd
      · exact ih _ hd

-- A report without errors puts the whole of validation at rest.
theorem columns_of_errors {m : Model} (h : Diagnostics.errors (columnCollisions m) = []) :
    (m.scalarFields.map Field.column).Nodup :=
  (collisions_eq_nil ((errors_collisions (fun _ _ => rfl) _ _).symm.trans h)).1

theorem keyFields_of_errors {m : Model} (h : Diagnostics.errors (primaryKey m) = []) :
    ∀ n ∈ m.primaryKey.fields, n ∈ m.fields.keys := by
  intro n hn
  unfold primaryKey at h
  split at h
  · rename_i hempty
    simp [List.isEmpty_iff.mp hempty] at hn
  · by_contra hk
    have hmem : SchemaError.unknownIndexField m.name.str "id" n.str m.primaryKey.span ∈
        Diagnostics.errors ((m.primaryKey.fields.filter (fun n => !m.fields.contains n)).map
          fun n => .unknownIndexField m.name.str "id" n.str m.primaryKey.span) :=
      List.mem_filter.mpr ⟨List.mem_map.mpr ⟨n, List.mem_filter.mpr ⟨hn, by
        simpa [IndexMap.contains] using hk⟩, rfl⟩, rfl⟩
    rw [h] at hmem
    exact List.not_mem_nil hmem

theorem checkTargets_eq_nil {m : Model} {attr : String} {targets : List IndexTarget} {span : Span}
    (h : Diagnostics.errors (checkTargets m attr targets span) = []) {n : FieldName}
    {order : SortOrder} (hn : IndexTarget.field n order ∈ targets) :
    ∃ f, m.fields.get? n = some f ∧ f.hasColumn = true := by
  have hindexable : isIndexable m n = true := by
    by_contra hi
    have hmem : SchemaError.unknownIndexField m.name.str attr n.str span ∈
        Diagnostics.errors (checkTargets m attr targets span) :=
      List.mem_filter.mpr ⟨List.mem_filterMap.mpr ⟨_, hn, by simp [hi]⟩, rfl⟩
    rw [h] at hmem
    exact List.not_mem_nil hmem
  unfold isIndexable at hindexable
  cases hf : m.fields.get? n with
  | none => simp [hf] at hindexable
  | some f =>
      simp only [hf, Bool.and_eq_true] at hindexable
      exact ⟨f, rfl, hindexable.1⟩

theorem errors_flatMap_eq_nil {α : Type} {f : α → Diagnostics} {items : List α}
    (h : Diagnostics.errors (items.flatMap f) = []) {a : α} (ha : a ∈ items) :
    Diagnostics.errors (f a) = [] := by
  refine List.filter_eq_nil_iff.mpr ?_
  intro d hd
  exact List.filter_eq_nil_iff.mp h d (List.mem_flatMap.mpr ⟨a, ha, hd⟩)

theorem indexable_of_errors {m : Model} (h : Diagnostics.errors (indexFields m) = [])
    (targets : List IndexTarget)
    (ht : targets ∈ m.indexes.map IndexDef.targets ++ m.uniques.map UniqueDef.targets)
    (n : FieldName) (order : SortOrder) (hn : IndexTarget.field n order ∈ targets) :
    ∃ f, m.fields.get? n = some f ∧ f.hasColumn = true := by
  unfold indexFields at h
  rw [Diagnostics.errors_append, List.append_eq_nil_iff] at h
  rcases List.mem_append.mp ht with ht | ht
  · obtain ⟨ix, hix, rfl⟩ := List.mem_map.mp ht
    exact checkTargets_eq_nil (errors_flatMap_eq_nil h.1 hix) hn
  · obtain ⟨uq, huq, rfl⟩ := List.mem_map.mp ht
    exact checkTargets_eq_nil (errors_flatMap_eq_nil h.2 huq) hn

end Validate

theorem parse_eq_ok {ast : Ast} {s : Schema} (h : parse ast = .ok s) :
    ∃ diags, Lower.lower ast = (s, diags) ∧ Diagnostics.errors diags = [] := by
  unfold parse at h
  cases hl : Lower.lower ast with
  | mk schema diags =>
      simp only [hl] at h
      split at h
      · rename_i he
        cases h
        exact ⟨diags, rfl, List.isEmpty_iff.mp he⟩
      · cases h

theorem Accepted.wellFormed {s : Schema} (h : Accepted s) : s.WellFormed := by
  obtain ⟨ast, hast⟩ := h
  obtain ⟨diags, hlower, herrors⟩ := parse_eq_ok hast
  simp only [Lower.lower, Prod.mk.injEq] at hlower
  obtain ⟨rfl, rfl⟩ := hlower
  generalize hmodels : (Lower.lowerModels ast _ _).1 = models at *
  have hnamed : Named models := hmodels ▸ Lower.lowerModels_named _ _ _
  have hsound := Lower.resolveRelations_sound hnamed
  rw [Diagnostics.errors_append, List.append_eq_nil_iff] at herrors
  have hvalidate := herrors.2
  unfold Validate.validate at hvalidate
  rw [Diagnostics.errors_append, Diagnostics.errors_append, List.append_eq_nil_iff,
    List.append_eq_nil_iff] at hvalidate
  obtain ⟨⟨_, hmodel⟩, htables⟩ := hvalidate
  unfold Validate.tableCollisions at htables
  rw [Diagnostics.errors_append, List.append_eq_nil_iff] at htables
  have hperModel : ∀ m ∈ (Lower.resolveRelations models).models.values,
      Diagnostics.errors (Validate.primaryKey m) = [] ∧
      Diagnostics.errors (Validate.indexFields m) = [] ∧
      Diagnostics.errors (Validate.columnCollisions m) = [] := by
    intro m hm
    have := Validate.errors_flatMap_eq_nil hmodel hm
    simp only [Diagnostics.errors_append, List.append_eq_nil_iff] at this
    exact ⟨this.1.1.1, this.1.1.2, this.1.2⟩
  exact
    { named := hsound.named
      enumNamed := fun k e he => (Lower.lowerEnums_named ast k e he).1
      enumTyped := by
        intro e he
        obtain ⟨k, hk⟩ := IndexMap.mem_values.mp he
        exact (Lower.lowerEnums_named ast k e hk).2
      columns := fun m hm => Validate.columns_of_errors (hperModel m hm).2.2
      tables := (Validate.collisions_eq_nil
        ((Validate.errors_collisions (fun _ _ => rfl) _ _).symm.trans htables.1)).1
      enumTypes := (Validate.collisions_eq_nil
        ((Validate.errors_collisions (fun _ _ => rfl) _ _).symm.trans htables.2)).1
      keyFields := fun m hm => Validate.keyFields_of_errors (hperModel m hm).1
      indexable := fun m hm => Validate.indexable_of_errors (hperModel m hm).2.1
      owners := hsound.known }

end Ruprizzle
