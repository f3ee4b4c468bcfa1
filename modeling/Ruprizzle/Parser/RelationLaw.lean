import Ruprizzle.Parser.Build
import Ruprizzle.Parser.Groups

namespace Ruprizzle.Lower

-- The sides that go into ordinary relations, and the groups they form.
def regularGroups (models : IndexMap ModelName Model) : List (List Side) :=
  groups groupKey ((collectSides models).1.filter (fun s => s.joinModel.isNone))

def throughGroups (models : IndexMap ModelName Model) : List (List Side) :=
  groups (fun s => (s.relName, s.joinModel))
    ((collectSides models).1.filter (fun s => s.joinModel.isSome))

-- The join models the pass is going to make up.
def joinNames (models : IndexMap ModelName Model) : List ModelName :=
  (regularGroups models).filterMap implicitJoin

theorem resolveRelations_eq (models : IndexMap ModelName Model) :
    resolveRelations models = (throughGroups models).foldl resolveThroughGroup
      ((regularGroups models).foldl resolveGroup ⟨models, [], (collectSides models).2⟩) := rfl

theorem implicitKey_mono {models models' : IndexMap ModelName Model} (hext : Extends models models')
    {name : ModelName} {m : Model} {n : FieldName} {f : Field}
    (h : implicitKey models name = some (m, n, f)) :
    ∃ m' f', implicitKey models' name = some (m', n, f') ∧ f'.hasColumn = f.hasColumn := by
  obtain ⟨hm, hn, hf⟩ := implicitKey_spec h
  obtain ⟨m', hm', hbare⟩ := hext name m hm
  have hkey : m'.primaryKey = m.primaryKey := (congrArg Model.primaryKey hbare :)
  have hget := congrArg (fun m : Model => m.fields.get? n) hbare
  simp only [Model.bare, IndexMap.get?_mapValues, hf, Option.map_some] at hget
  obtain ⟨f', hf', hsame⟩ := Option.map_eq_some_iff.mp hget
  refine ⟨m', f', by simp [implicitKey, hm', hkey, hn, hf'], ?_⟩
  have hkind := congrArg (fun f : Field => f.kind.hasColumn) hsame
  simpa [Field.bare, Field.hasColumn] using hkind

theorem nodup_resolveGroup {p : Pass} {group : List Side} {joins : List ModelName}
    (h : (p.models.keys ++ ((implicitJoin group).toList ++ joins)).Nodup) :
    ((resolveGroup p group).models.keys ++ joins).Nodup := by
  rw [List.nodup_append] at h ⊢
  obtain ⟨_, hnew, hdisjoint⟩ := h
  have hfresh : ∀ join ∈ implicitJoin group, join ∉ p.models.keys :=
    fun join hj hk => hdisjoint join hk join (List.mem_append_left _ (by simpa using hj)) rfl
  refine ⟨IndexMap.keys_nodup _, (List.nodup_append.mp hnew).2.1, ?_⟩
  rintro k hk k' hk' rfl
  rcases (resolveGroup_extends hfresh).2 k hk with hk | hj
  · exact hdisjoint k hk k (List.mem_append_right _ hk') rfl
  · exact (List.nodup_append.mp hnew).2.2 k (by simpa using hj) k hk' rfl

theorem fresh_of_nodup {p : Pass} {group : List Side} {joins : List ModelName}
    (h : (p.models.keys ++ ((implicitJoin group).toList ++ joins)).Nodup) :
    ∀ join ∈ implicitJoin group, join ∉ p.models.keys := by
  intro join hj hk
  exact (List.nodup_append.mp h).2.2 join hk join (List.mem_append_left _ (by simpa using hj)) rfl

theorem filterMap_cons_toList {α β : Type} (f : α → Option β) (a : α) (l : List α) :
    (a :: l).filterMap f = (f a).toList ++ l.filterMap f := by
  rw [List.filterMap_cons]
  cases f a <;> rfl

theorem foldl_resolveGroup_extends {gs : List (List Side)} {p : Pass}
    (h : (p.models.keys ++ gs.filterMap implicitJoin).Nodup) :
    Extends p.models (gs.foldl resolveGroup p).models := by
  induction gs generalizing p with
  | nil => exact Extends.refl _
  | cons g rest ih =>
      rw [filterMap_cons_toList] at h
      exact (resolveGroup_extends (fresh_of_nodup h)).1.trans (ih (nodup_resolveGroup h))

theorem foldl_diags {step : Pass → List Side → Pass} (hstep : ∀ p g, p.diags <+: (step p g).diags)
    (gs : List (List Side)) (p : Pass) : p.diags <+: (gs.foldl step p).diags := by
  induction gs generalizing p with
  | nil => exact List.prefix_rfl
  | cons g rest ih => exact (hstep p g).trans (ih _)

theorem foldl_resolveGroup_resolving {gs : List (List Side)} {p : Pass} {rest : List Place}
    (h : p.Resolving (gs.flatMap (fun g => g.map Side.place) ++ rest))
    (hnodup : (p.models.keys ++ gs.filterMap implicitJoin).Nodup)
    (htarget : ∀ g ∈ gs, ∀ s ∈ g, s.target ∈ p.models.keys) (hface : ∀ g ∈ gs, Faces g)
    (hkey : ∀ g ∈ gs, (implicitJoin g).isSome → ∀ s ∈ g, ∃ m n f,
      implicitKey p.models s.model = some (m, n, f) ∧ f.hasColumn = true)
    (hclean : Diagnostics.errors (gs.foldl resolveGroup p).diags = []) :
    (gs.foldl resolveGroup p).Resolving rest := by
  induction gs generalizing p with
  | nil => exact h
  | cons g gs ih =>
      rw [filterMap_cons_toList] at hnodup
      have hfresh := fresh_of_nodup hnodup
      have hext := (resolveGroup_extends hfresh).1
      rw [List.flatMap_cons, List.append_assoc] at h
      have hnext := resolveGroup_resolving h (htarget g (by simp)) (hface g (by simp))
        (hkey g (by simp)) hfresh
        (errors_of_extension (foldl_diags resolveGroup_diags gs _) hclean)
      refine ih hnext (nodup_resolveGroup hnodup) ?_ (fun g' hg' => hface g' (by simp [hg'])) ?_ hclean
      · exact fun g' hg' s hs => hext.keys (htarget g' (by simp [hg']) s hs)
      · intro g' hg' hsome s hs
        obtain ⟨m, n, f, hk, hcol⟩ := hkey g' (by simp [hg']) hsome s hs
        obtain ⟨m', f', hk', hcol'⟩ := implicitKey_mono hext hk
        exact ⟨m', n, f', hk', hcol'.trans hcol⟩

theorem foldl_resolveThroughGroup_extends (gs : List (List Side)) (p : Pass) :
    Extends p.models (gs.foldl resolveThroughGroup p).models := by
  induction gs generalizing p with
  | nil => exact Extends.refl _
  | cons g rest ih => exact (resolveThroughGroup_extends p g).trans (ih _)

theorem foldl_resolveThroughGroup_resolving {gs : List (List Side)} {p : Pass}
    (h : p.Resolving (gs.flatMap (fun g => g.map Side.place)))
    (htarget : ∀ g ∈ gs, ∀ s ∈ g, s.target ∈ p.models.keys)
    (hjoin : ∀ g ∈ gs, ∃ join, ∀ s ∈ g, s.joinModel = some join)
    (howner : ∀ g ∈ gs, ∀ s ∈ g, s.isOwner = true → s.joinModel = some s.model)
    (hclean : Diagnostics.errors (gs.foldl resolveThroughGroup p).diags = []) :
    (gs.foldl resolveThroughGroup p).Resolving [] := by
  induction gs generalizing p with
  | nil => exact h
  | cons g gs ih =>
      obtain ⟨join, hjoin'⟩ := hjoin g (by simp)
      have hext := resolveThroughGroup_extends p g
      have hnext := resolveThroughGroup_resolving h (htarget g (by simp)) hjoin'
        (howner g (by simp)) (errors_of_extension (foldl_diags resolveThroughGroup_diags gs _) hclean)
      exact ih hnext (fun g' hg' s hs => hext.keys (htarget g' (by simp [hg']) s hs))
        (fun g' hg' => hjoin g' (by simp [hg'])) (fun g' hg' => howner g' (by simp [hg'])) hclean

theorem side_inl {models : IndexMap ModelName Model} {model : Model} {field : Field}
    {rel : RelationRef} {s : Side} (h : side models model field rel = .inl s) :
    s.place = (model.name, field.name) ∧ s.target = rel.target ∧
      (s.isOwner = true → s.joinModel = none ∨ s.joinModel = some s.model) := by
  unfold side at h
  split at h
  · split at h
    · cases h
    · split at h
      · cases h
      · cases h
        exact ⟨rfl, rfl, nofun⟩
  · cases h
    refine ⟨rfl, rfl, fun _ => ?_⟩
    dsimp only
    split
    · split
      · exact Or.inr rfl
      · exact Or.inl rfl
    · exact Or.inl rfl

-- The fields in declaration order, each with its model.
def placed (models : IndexMap ModelName Model) : List (Model × Field) :=
  models.values.flatMap fun m => m.fields.values.map fun f => (m, f)

theorem placed_nodup {models : IndexMap ModelName Model} (h : Named models) :
    ((placed models).map (fun mf => (mf.1.name, mf.2.name))).Nodup := by
  have heq : (placed models).map (fun mf => (mf.1.name, mf.2.name)) =
      models.entries.flatMap fun e => e.2.fields.keys.map fun n => (e.1, n) := by
    rw [placed, IndexMap.values, List.flatMap_map, List.map_flatMap]
    apply List.flatMap_congr
    intro e he
    obtain ⟨hname, hfields⟩ := h e.1 e.2 he
    rw [List.map_map, IndexMap.values, IndexMap.keys, List.map_map, List.map_map]
    apply List.map_congr_left
    intro nf hnf
    exact Prod.ext hname (hfields nf.1 nf.2 hnf)
  rw [heq, List.nodup_flatMap]
  refine ⟨fun e _ => (IndexMap.keys_nodup _).map (fun a b hab => (Prod.mk.inj hab).2), ?_⟩
  refine List.Pairwise.imp ?_ (List.pairwise_map.mp models.nodup)
  intro a b hab x hx hx'
  obtain ⟨_, _, rfl⟩ := List.mem_map.mp hx
  obtain ⟨_, _, heq⟩ := List.mem_map.mp hx'
  exact hab (Prod.mk.inj heq).1.symm

def sideOf (models : IndexMap ModelName Model) (mf : Model × Field) : Option Side :=
  mf.2.relation.bind fun rel => (side models mf.1 mf.2 rel).getLeft?

theorem side_error_of_inr {models : IndexMap ModelName Model} {model : Model} {field : Field}
    {rel : RelationRef} {t : ModelName} {e : SchemaError}
    (h : side models model field rel = .inr (t, e)) : e.isWarning = false := by
  unfold side at h
  split at h
  · split at h
    · cases h
      rfl
    · split at h
      · cases h
        rfl
      · cases h
  · cases h

-- Without a report no side is dropped.
theorem collectSides_of_clean {models : IndexMap ModelName Model}
    (hclean : Diagnostics.errors (collectSides models).2 = []) :
    (collectSides models).1 = (placed models).filterMap (sideOf models) ∧
      ∀ mf ∈ placed models, ∀ rel, mf.2.relation = some rel →
        ∃ s, side models mf.1 mf.2 rel = .inl s := by
  have hends : (models.values.flatMap fun model => model.fields.values.filterMap fun field =>
      field.relation.map fun rel => side models model field rel) =
      (placed models).filterMap fun mf => mf.2.relation.map fun rel => side models mf.1 mf.2 rel := by
    rw [placed, List.filterMap_flatMap]
    apply List.flatMap_congr
    intro m _
    rw [List.filterMap_map]
    rfl
  unfold collectSides at hclean ⊢
  rw [hends] at hclean ⊢
  dsimp only at hclean ⊢
  generalize hl : (placed models).filterMap
    (fun mf => mf.2.relation.map fun rel => side models mf.1 mf.2 rel) = ends at hclean ⊢
  have hleft : ∀ e ∈ ends, ∃ s, e = .inl s := by
    intro e he
    cases e with
    | inl s => exact ⟨s, rfl⟩
    | inr te =>
        obtain ⟨t, err⟩ := te
        have hwarn := warning_of_errors hclean (List.mem_filterMap.mpr ⟨_, he, rfl⟩)
        rw [← hl] at he
        obtain ⟨mf, _, hmf⟩ := List.mem_filterMap.mp he
        obtain ⟨rel, _, hside⟩ := Option.map_eq_some_iff.mp hmf
        simp [side_error_of_inr hside] at hwarn
  refine ⟨?_, ?_⟩
  · rw [List.filter_eq_self.mpr ?_, ← hl, List.filterMap_filterMap]
    · apply List.filterMap_congr
      intro mf _
      unfold sideOf
      cases mf.2.relation with
      | none => rfl
      | some rel =>
          simp only [Option.map_some, Option.bind_some]
          cases side models mf.1 mf.2 rel <;> rfl
    · intro s _
      split
      · rw [Bool.not_eq_true', List.contains_eq_mem, decide_eq_false_iff_not]
        intro hmem
        obtain ⟨e, he, heq⟩ := List.mem_filterMap.mp hmem
        obtain ⟨_, rfl⟩ := hleft e he
        cases heq
      · rfl
  · intro mf hmf rel hrel
    exact hleft _ (hl ▸ List.mem_filterMap.mpr ⟨mf, hmf, by rw [hrel]; rfl⟩)

theorem flatMap_groups_perm {κ : Type} [DecidableEq κ] (key : Side → κ) (sides : List Side) :
    ((groups key sides).flatMap (fun g => g.map Side.place)).Perm (sides.map Side.place) := by
  rw [List.flatMap_def, ← List.map_flatten]
  exact (groups_perm key sides).map Side.place

-- The sides stand for the relation fields one to one.
structure Sided (models : IndexMap ModelName Model) (sides : List Side) : Prop where
  nodup : (sides.map Side.place).Nodup
  place_iff : ∀ e, (∃ ref, refAt models e = some ref) ↔ e ∈ sides.map Side.place
  target : ∀ s ∈ sides, ∃ ref, refAt models s.place = some ref ∧ s.target = ref.target
  owner : ∀ s ∈ sides, s.isOwner = true → s.joinModel = none ∨ s.joinModel = some s.model

theorem collectSides_sided {models : IndexMap ModelName Model} (hnamed : Named models)
    (hclean : Diagnostics.errors (collectSides models).2 = []) :
    Sided models (collectSides models).1 := by
  obtain ⟨hsides, hleft⟩ := collectSides_of_clean hclean
  rw [hsides]
  have hspec : ∀ {mf s}, sideOf models mf = some s → ∃ rel, mf.2.relation = some rel ∧
      s.place = (mf.1.name, mf.2.name) ∧ s.target = rel.target ∧
      (s.isOwner = true → s.joinModel = none ∨ s.joinModel = some s.model) := by
    intro mf s h
    obtain ⟨rel, hrel, hs⟩ := Option.bind_eq_some_iff.mp h
    obtain ⟨hplace, htarget, howner⟩ := side_inl (Sum.getLeft?_eq_some_iff.mp hs)
    exact ⟨rel, hrel, hplace, htarget, howner⟩
  have hplaced : ∀ mf ∈ placed models, refAt models (mf.1.name, mf.2.name) = mf.2.relation := by
    intro mf hmf
    obtain ⟨m, hm, hmf⟩ := List.mem_flatMap.mp hmf
    obtain ⟨f, hf, rfl⟩ := List.mem_map.mp hmf
    obtain ⟨k, hk⟩ := IndexMap.mem_values.mp hm
    obtain ⟨n, hn⟩ := IndexMap.mem_values.mp hf
    obtain ⟨hname, hfields⟩ := hnamed k m hk
    simp only [refAt, hname, hfields n f hn, IndexMap.get?_eq_some.mpr hk, Option.bind_some,
      IndexMap.get?_eq_some.mpr hn]
  refine ⟨?_, ?_, ?_, ?_⟩
  · refine List.Nodup.sublist (sublist_map_filterMap ?_) (placed_nodup hnamed)
    intro mf _ s hs
    obtain ⟨_, _, hplace, _⟩ := hspec hs
    exact hplace
  · intro e
    constructor
    · rintro ⟨ref, href⟩
      obtain ⟨f, hf, hrel⟩ := Option.bind_eq_some_iff.mp href
      obtain ⟨m, hm, hget⟩ := Option.bind_eq_some_iff.mp hf
      obtain ⟨hname, hfields⟩ := hnamed e.1 m (IndexMap.get?_eq_some.mp hm)
      have hmf : (m, f) ∈ placed models := List.mem_flatMap.mpr ⟨m, IndexMap.mem_values_of_get? hm,
        List.mem_map.mpr ⟨f, IndexMap.mem_values_of_get? hget, rfl⟩⟩
      obtain ⟨s, hs⟩ := hleft (m, f) hmf ref hrel
      refine List.mem_map.mpr ⟨s, List.mem_filterMap.mpr ⟨(m, f), hmf, ?_⟩, ?_⟩
      · simp only [sideOf, hrel, Option.bind_some, hs]
        rfl
      · rw [(side_inl hs).1]
        exact Prod.ext hname (hfields e.2 f (IndexMap.get?_eq_some.mp hget))
    · intro he
      obtain ⟨s, hs, rfl⟩ := List.mem_map.mp he
      obtain ⟨mf, hmf, hs⟩ := List.mem_filterMap.mp hs
      obtain ⟨rel, hrel, hplace, _⟩ := hspec hs
      exact ⟨rel, by rw [hplace, hplaced mf hmf, hrel]⟩
  · intro s hs
    obtain ⟨mf, hmf, hs⟩ := List.mem_filterMap.mp hs
    obtain ⟨rel, hrel, hplace, htarget, _⟩ := hspec hs
    exact ⟨rel, by rw [hplace, hplaced mf hmf, hrel], htarget⟩
  · intro s hs
    obtain ⟨mf, hmf, hs⟩ := List.mem_filterMap.mp hs
    obtain ⟨_, _, _, _, howner⟩ := hspec hs
    exact howner

-- The models the pass starts from: nothing resolved, every target declared.
structure Unresolved (models : IndexMap ModelName Model) : Prop where
  named : Named models
  fresh : ∀ e ref, refAt models e = some ref → ref.resolved = none
  known : ∀ e ref, refAt models e = some ref → ref.target ∈ models.keys

theorem resolveRelations_extends {models : IndexMap ModelName Model}
    (hjoins : (models.keys ++ joinNames models).Nodup) :
    Extends models (resolveRelations models).models :=
  (foldl_resolveGroup_extends (p := ⟨models, [], _⟩) hjoins).trans
    (foldl_resolveThroughGroup_extends _ _)

-- Every side is in one group, of the one kind or of the other.
theorem places_perm (models : IndexMap ModelName Model) :
    ((collectSides models).1.map Side.place).Perm
      ((regularGroups models).flatMap (fun g => g.map Side.place) ++
        (throughGroups models).flatMap (fun g => g.map Side.place)) := by
  have hsplit := List.filter_append_perm (fun s : Side => s.joinModel.isNone) (collectSides models).1
  have hthrough : (collectSides models).1.filter (fun s => !s.joinModel.isNone) =
      (collectSides models).1.filter (fun s => s.joinModel.isSome) :=
    List.filter_congr fun s _ => by simp
  rw [hthrough] at hsplit
  refine (hsplit.symm.map Side.place).trans ?_
  rw [List.map_append]
  exact ((flatMap_groups_perm _ _).symm).append ((flatMap_groups_perm _ _).symm)

theorem resolveRelations_resolving {models : IndexMap ModelName Model} (h : Unresolved models)
    (hjoins : (models.keys ++ joinNames models).Nodup)
    (hface : ∀ g ∈ regularGroups models, Faces g)
    (hkey : ∀ g ∈ regularGroups models, (implicitJoin g).isSome → ∀ s ∈ g, ∃ m n f,
      implicitKey models s.model = some (m, n, f) ∧ f.hasColumn = true)
    (hclean : Diagnostics.errors (resolveRelations models).diags = []) :
    (resolveRelations models).Resolving [] := by
  rw [resolveRelations_eq] at hclean ⊢
  have hclean1 := errors_of_extension (foldl_diags resolveThroughGroup_diags _ _) hclean
  have hclean0 := errors_of_extension (foldl_diags resolveGroup_diags _ _) hclean1
  have hsided := collectSides_sided h.named hclean0
  have hperm := places_perm models
  have hregular : ∀ g ∈ regularGroups models, ∀ s ∈ g, s ∈ (collectSides models).1 :=
    fun g hg s hs => (List.mem_filter.mp (mem_groups hg hs)).1
  have hthrough : ∀ g ∈ throughGroups models, ∀ s ∈ g,
      s ∈ (collectSides models).1 ∧ s.joinModel.isSome = true :=
    fun g hg s hs => List.mem_filter.mp (mem_groups hg hs)
  have htarget : ∀ s ∈ (collectSides models).1, s.target ∈ models.keys := by
    intro s hs
    obtain ⟨ref, href, heq⟩ := hsided.target s hs
    exact heq ▸ h.known s.place ref href
  have hstart : (Pass.mk models [] (collectSides models).2).Resolving
      ((collectSides models).1.map Side.place) := by
    refine ⟨hsided.nodup, ?_, ?_, by simp, by simp⟩
    · intro e
      rw [← hsided.place_iff e]
      exact ⟨fun ⟨ref, href, _⟩ => ⟨ref, href⟩, fun ⟨ref, href⟩ => ⟨ref, href, h.fresh e ref href⟩⟩
    · intro e ref i href hres
      rw [h.fresh e ref href] at hres
      cases hres
  have hmiddle := foldl_resolveGroup_resolving (hstart.perm hperm) hjoins
    (fun g hg s hs => htarget s (hregular g hg s hs)) hface hkey hclean1
  have hext := foldl_resolveGroup_extends (p := ⟨models, [], (collectSides models).2⟩) hjoins
  refine foldl_resolveThroughGroup_resolving hmiddle ?_ ?_ ?_ hclean
  · exact fun g hg s hs => hext.keys (htarget s (hthrough g hg s hs).1)
  · intro g hg
    obtain ⟨⟨_, join⟩, hk⟩ := groups_key hg
    cases join with
    | some join => exact ⟨join, fun s hs => (Prod.mk.inj (hk s hs)).2⟩
    | none =>
        refine ⟨⟨""⟩, fun s hs => ?_⟩
        have hsome := (hthrough g hg s hs).2
        rw [(Prod.mk.inj (hk s hs)).2] at hsome
        cases hsome
  · intro g hg s hs ho
    obtain ⟨hmem, hsome⟩ := hthrough g hg s hs
    rcases hsided.owner s hmem ho with hnone | hjoin
    · simp [hnone] at hsome
    · exact hjoin

theorem collectNames_model {ast : Ast} {n : String} {span : Span}
    (h : (collectNames ast).1.get? n = some (.model, span)) : ∃ m ∈ ast.models, m.name = n := by
  revert h
  unfold collectNames
  refine List.foldlRecOn (motive := fun (acc : NameEnv × Diagnostics) =>
    acc.1.get? n = some (.model, span) → ∃ m ∈ ast.models, m.name = n) _ _ (by simp) ?_
  intro acc hacc d hd hget
  obtain ⟨name, kind, span'⟩ := d
  dsimp only at hget
  split at hget
  · rw [IndexMap.get?_insert] at hget
    split at hget
    · rename_i hname
      simp only [Option.some.injEq, Prod.mk.injEq] at hget
      obtain ⟨rfl, _⟩ := hget
      rcases List.mem_append.mp hd with hd | hd
      · obtain ⟨_, _, heq⟩ := List.mem_map.mp hd
        cases heq
      · obtain ⟨m, hm, heq⟩ := List.mem_map.mp hd
        exact ⟨m, hm, (Prod.mk.inj heq).1.trans hname.symm⟩
    · exact hacc hget
  · exact hacc hget

theorem mem_keys_foldl {α K V D : Type} [DecidableEq K] (key : α → K)
    {step : IndexMap K V × D → α → IndexMap K V × D}
    (hstep : ∀ acc a k, k ∈ (step acc a).1.keys ↔ k = key a ∨ k ∈ acc.1.keys) {a : α} {as : List α}
    (acc : IndexMap K V × D) (h : key a ∈ acc.1.keys ∨ a ∈ as) :
    key a ∈ (as.foldl step acc).1.keys := by
  induction as generalizing acc with
  | nil => exact h.resolve_right (by simp)
  | cons b rest ih =>
      refine ih _ ?_
      rw [hstep]
      rcases h with h | h
      · exact Or.inl (Or.inr h)
      · rcases List.mem_cons.mp h with rfl | h
        · exact Or.inl (Or.inl rfl)
        · exact Or.inr h

theorem lowerModels_keys {ast : Ast} {env : NameEnv} {enums : IndexMap EnumName EnumDef}
    {m : Ast.ModelDecl} (hm : m ∈ ast.models) : ⟨m.name⟩ ∈ (lowerModels ast env enums).1.keys := by
  unfold lowerModels
  refine mem_keys_foldl (fun d : Ast.ModelDecl => (⟨d.name⟩ : ModelName)) ?_ _ (Or.inr hm)
  exact fun acc d k => IndexMap.mem_keys_insert ..

-- Every field comes from its declaration.
theorem lowerModels_field {ast : Ast} {env : NameEnv} {enums : IndexMap EnumName EnumDef}
    {k : ModelName} {m : Model} {n : FieldName} {f : Field}
    (hm : (k, m) ∈ (lowerModels ast env enums).1.entries) (hf : (n, f) ∈ m.fields.entries) :
    ∃ decl, f = (lowerField decl env enums).1 := by
  have hfields : ∀ (d : Ast.ModelDecl) n f, (n, f) ∈ (lowerFields d env enums).1.entries →
      ∃ decl, f = (lowerField decl env enums).1 := by
    intro d
    unfold lowerFields
    refine List.foldlRecOn (motive := fun (acc : IndexMap FieldName Field × Diagnostics) =>
      ∀ n f, (n, f) ∈ acc.1.entries → ∃ decl, f = (lowerField decl env enums).1) d.fields _
        (by simp) ?_
    intro acc hacc decl _ n f hf
    dsimp only at hf
    split at hf
    · rcases IndexMap.mem_entries_insert.mp hf with ⟨rfl, rfl⟩ | ⟨_, hf⟩
      · exact ⟨decl, rfl⟩
      · exact hacc n f hf
    · exact hacc n f hf
  revert k m n f
  unfold lowerModels
  refine List.foldlRecOn (motive := fun (acc : IndexMap ModelName Model × Diagnostics) =>
    ∀ {k m n f}, (k, m) ∈ acc.1.entries → (n, f) ∈ m.fields.entries →
      ∃ decl, f = (lowerField decl env enums).1) ast.models _ (by simp) ?_
  intro acc hacc d _ k m n f hm hf
  rcases IndexMap.mem_entries_insert.mp hm with ⟨rfl, rfl⟩ | ⟨_, hm⟩
  · exact hfields d n f hf
  · exact hacc hm hf

theorem lowerField_relation {decl : Ast.FieldDecl} {env : NameEnv}
    {enums : IndexMap EnumName EnumDef} {ref : RelationRef}
    (h : (lowerField decl env enums).1.relation = some ref) :
    ref.resolved = none ∧ ref.target = ⟨decl.typeName⟩ ∧
      ∃ span, env.get? decl.typeName = some (.model, span) := by
  have hbase : (baseKind decl env).1.relation? = some ref := by
    have hkind : (lowerField decl env enums).1.kind =
        if decl.arity = .list then .list (baseKind decl env).1 else (baseKind decl env).1 := rfl
    rw [Field.relation, hkind] at h
    split at h
    · cases hb : (baseKind decl env).1 with
      | scalar _ | enum _ | list _ => simp [hb, FieldKind.relation?] at h
      | relation _ => simpa [hb, FieldKind.relation?] using h
    · exact h
  unfold baseKind at hbase
  split at hbase
  · cases hbase
  · split at hbase
    · cases hbase
    · rename_i hmodel
      obtain ⟨⟨kind, span⟩, hget, rfl⟩ := Option.map_eq_some_iff.mp hmodel
      cases hbase
      exact ⟨rfl, rfl, span, hget⟩
    · cases hbase

theorem lowerModels_unresolved (ast : Ast) (enums : IndexMap EnumName EnumDef) :
    Unresolved (lowerModels ast (collectNames ast).1 enums).1 := by
  have hfield : ∀ e ref, refAt (lowerModels ast (collectNames ast).1 enums).1 e = some ref →
      ∃ decl, (lowerField decl (collectNames ast).1 enums).1.relation = some ref := by
    intro e ref href
    obtain ⟨f, hf, hrel⟩ := Option.bind_eq_some_iff.mp href
    obtain ⟨m, hm, hget⟩ := Option.bind_eq_some_iff.mp hf
    obtain ⟨decl, rfl⟩ := lowerModels_field (IndexMap.get?_eq_some.mp hm)
      (IndexMap.get?_eq_some.mp hget)
    exact ⟨decl, hrel⟩
  refine ⟨lowerModels_named _ _ _, ?_, ?_⟩
  · intro e ref href
    obtain ⟨decl, hrel⟩ := hfield e ref href
    exact (lowerField_relation hrel).1
  · intro e ref href
    obtain ⟨decl, hrel⟩ := hfield e ref href
    obtain ⟨_, htarget, span, hspan⟩ := lowerField_relation hrel
    obtain ⟨m, hm, hname⟩ := collectNames_model hspan
    rw [htarget, ← hname]
    exact lowerModels_keys hm

end Ruprizzle.Lower

namespace Ruprizzle

theorem Validate.keyed_of_errors {m : Model} (h : Diagnostics.errors (Validate.primaryKey m) = []) :
    m.primaryKey.fields ≠ [] := by
  intro hempty
  unfold Validate.primaryKey at h
  rw [hempty] at h
  cases h

-- The models as declared, before any relation is resolved.
def Ast.declared (ast : Ast) : IndexMap ModelName Model :=
  (Lower.lowerModels ast (Lower.collectNames ast).1 (Lower.lowerEnums ast).1).1

-- What the pairing of relation fields takes for granted and nothing checks:
-- two ends face each other, join models have names of their own, and the key
-- a join table refers to begins with a column.
structure Ast.Paired (ast : Ast) : Prop where
  faces : ∀ g ∈ Lower.regularGroups ast.declared, Lower.Faces g
  joins : (ast.declared.keys ++ Lower.joinNames ast.declared).Nodup
  keys : ∀ g ∈ Lower.regularGroups ast.declared, (Lower.implicitJoin g).isSome = true →
    ∀ s ∈ g, ∀ key ∈ Lower.implicitKey ast.declared s.model, key.2.2.hasColumn = true

-- Every relation field leads to a relation that names it, and every relation
-- is led to by its owner field.
structure Schema.Navigable (s : Schema) : Prop where
  resolved : ∀ m ∈ s.models.values, ∀ f ∈ m.fields.values, ∀ ref ∈ f.relation,
    ∃ i ∈ ref.resolved, ∃ r ∈ s.relations[i]?, r.Names (m.name, f.name)
  owned : ∀ i r, s.relations[i]? = some r →
    ∃ ref, refAt s.models r.ownerPlace = some ref ∧ ref.resolved = some i

-- The invariant of resolved relations, with the foreign key held by the owner.
structure Schema.Resolved (s : Schema) : Prop where
  navigable : s.Navigable
  apart : ∀ r ∈ s.relations, r.targetPlace ≠ some r.ownerPlace
  keyed : ∀ r ∈ s.relations, r.Keyed s.models
  nullable : ∀ r ∈ s.relations, r.SetsNull → r.Nullable s.models

theorem Lower.Pass.Resolving.navigable {p : Lower.Pass} (h : p.Resolving []) (hnamed : Named p.models)
    {s : Schema} (hmodels : s.models = p.models) (hrelations : s.relations = p.relations) :
    s.Navigable := by
  refine ⟨?_, ?_⟩
  · rw [hmodels, hrelations]
    intro m hm f hf ref href
    obtain ⟨k, hk⟩ := IndexMap.mem_values.mp hm
    obtain ⟨n, hn⟩ := IndexMap.mem_values.mp hf
    obtain ⟨hname, hfields⟩ := hnamed k m hk
    have hplace : refAt p.models (m.name, f.name) = some ref := by
      simp only [refAt, hname, hfields n f hn, IndexMap.get?_eq_some.mpr hk, Option.bind_some,
        IndexMap.get?_eq_some.mpr hn]
      exact href
    cases hres : ref.resolved with
    | none => exact absurd ((h.pending_iff _).mp ⟨ref, hplace, hres⟩) List.not_mem_nil
    | some i =>
        obtain ⟨r, hr, hnames⟩ := h.marks _ ref i hplace hres
        exact ⟨i, rfl, r, hr, hnames⟩
  · rw [hmodels, hrelations]
    exact h.owned

-- What validation finds in the finished models was there from the start.
theorem implicitKey_of_extends {models models' : IndexMap ModelName Model}
    (hext : Extends models models')
    (hkeyed : ∀ m ∈ models'.values, m.primaryKey.fields ≠ [])
    (hfields : ∀ m ∈ models'.values, ∀ n ∈ m.primaryKey.fields, n ∈ m.fields.keys)
    {name : ModelName} (hname : name ∈ models.keys) :
    ∃ key, Lower.implicitKey models name = some key := by
  obtain ⟨m, hm⟩ := IndexMap.mem_keys_iff_get?.mp hname
  obtain ⟨m', hm', hbare⟩ := hext name m hm
  have hmem := IndexMap.mem_values_of_get? hm'
  have hkey : m'.primaryKey = m.primaryKey := (congrArg Model.primaryKey hbare :)
  obtain ⟨n, rest, hlist⟩ := List.exists_cons_of_ne_nil (hkeyed m' hmem)
  have hn : n ∈ m'.fields.keys := hfields m' hmem n (by simp [hlist])
  have hnames : m'.fields.keys = m.fields.keys := by
    have := congrArg (fun m : Model => m.fields.keys) hbare
    simpa only [Model.bare, IndexMap.keys_mapValues] using this
  rw [hnames] at hn
  obtain ⟨f, hf⟩ := IndexMap.mem_keys_iff_get?.mp hn
  refine ⟨(m, n, f), ?_⟩
  simp [Lower.implicitKey, hm, ← hkey, hlist, hf]

theorem relations_resolved {ast : Ast} {s : Schema} (h : parse ast = .ok s) (hp : ast.Paired) :
    s.Navigable ∧ ∀ r ∈ s.relations, r.Wired s.models s.relations := by
  have hwell := Accepted.wellFormed ⟨ast, h⟩
  obtain ⟨diags, hlower, herrors⟩ := parse_eq_ok h
  simp only [Lower.lower, Prod.mk.injEq] at hlower
  obtain ⟨rfl, rfl⟩ := hlower
  simp only [Diagnostics.errors_append, List.append_eq_nil_iff] at herrors
  obtain ⟨⟨_, hclean⟩, hvalid⟩ := herrors
  have hext := Lower.resolveRelations_extends hp.joins
  have hstart := Lower.lowerModels_unresolved ast (Lower.lowerEnums ast).1
  have hkeyed : ∀ m ∈ (Lower.resolveRelations ast.declared).models.values,
      m.primaryKey.fields ≠ [] := by
    intro m hm
    simp only [Validate.validate, Diagnostics.errors_append, List.append_eq_nil_iff] at hvalid
    have hmodel := Validate.errors_flatMap_eq_nil hvalid.1.2 hm
    simp only [Diagnostics.errors_append, List.append_eq_nil_iff] at hmodel
    exact Validate.keyed_of_errors hmodel.1.1.1
  have hresolving := Lower.resolveRelations_resolving hstart hp.joins hp.faces (by
    intro g hg hsome s hs
    have hside := (List.mem_filter.mp (Lower.mem_groups hg hs)).1
    obtain ⟨⟨m, n, f⟩, hkey⟩ := implicitKey_of_extends hext hkeyed hwell.keyFields
      (Lower.collectSides_model hstart.named hside)
    exact ⟨m, n, f, hkey, hp.keys g hg hsome s hs _ hkey⟩) hclean
  exact ⟨hresolving.navigable hwell.named rfl rfl, hresolving.wired⟩

open Build

-- An ordinary relation and an implicit many-to-many.
def blog : Ast := schema "postgres"
  [model "User" [idField, field "posts" "Post" .list []] [],
   model "Post" [idField, field "authorId" "Int" .optional [],
     field "author" "User" .optional [relation ["authorId"] ["id"] []],
     field "tags" "Tag" .list []] [],
   model "Tag" [idField, field "posts" "Post" .list []] []]

theorem relations_resolved_blog : blog.lowered.Navigable ∧
    ∀ r ∈ blog.lowered.relations, r.Wired blog.lowered.models blog.lowered.relations :=
  relations_resolved (parse_lowered (by decide +kernel))
    ⟨by decide +kernel, by decide +kernel, by decide +kernel⟩

-- A SetNull over a required key, two fields on one side, a declared model
-- under a join model's name, and a navigation property as a key.
def setNullOnRequired : Ast := schema "postgres"
  [model "User" [idField, field "posts" "Post" .list []] [],
   model "Post" [idField, field "authorId" "Int" .required [],
     field "author" "User" .required [relation ["authorId"] ["id"]
       [named "onDelete" (.ident "SetNull" Span.EMPTY)]]] []]

def bothOnOneSide : Ast := schema "postgres"
  [model "User" [idField] [],
   model "Post" [idField, field "authorId" "Int" .required [],
     field "author" "User" .required [relation ["authorId"] ["id"] []],
     field "authors" "User" .list []] []]

def takenJoinName : Ast := schema "postgres"
  [model "Post" [idField, field "tags" "Tag" .list []] [],
   model "Tag" [idField, field "posts" "Post" .list []] [],
   model "_PostToTag" [idField, field "userId" "Int" .required [],
     field "user" "User" .required [relation ["userId"] ["id"] []]] [],
   model "User" [idField, field "all" "_PostToTag" .list []] []]

def relationAsKey : Ast := schema "postgres"
  [model "User" [idField, field "post" "Post" .optional []] [],
   model "Post" [field "authorId" "Int" .required [attr "unique" []],
     field "author" "User" .required [relation ["authorId"] ["id"] []],
     field "tags" "Tag" .list []] [attr "id" [.positional (names ["author"])]],
   model "Tag" [idField, field "posts" "Post" .list []] []]

-- A many-to-many has no column of its own end; the other four are accepted too.
theorem relations_unresolved :
    (Accepted blog.lowered ∧ ¬ blog.lowered.Resolved) ∧
    (Accepted setNullOnRequired.lowered ∧ ¬ setNullOnRequired.lowered.Resolved) ∧
    (Accepted bothOnOneSide.lowered ∧ ¬ bothOnOneSide.lowered.Resolved) ∧
    (Accepted takenJoinName.lowered ∧ ¬ takenJoinName.lowered.Resolved) ∧
    Accepted relationAsKey.lowered ∧ ¬ relationAsKey.lowered.Resolved := by
  refine ⟨⟨accepted_lowered (by decide +kernel), fun h => ?_⟩,
    ⟨accepted_lowered (by decide +kernel), fun h => ?_⟩,
    ⟨accepted_lowered (by decide +kernel), fun h => ?_⟩,
    ⟨accepted_lowered (by decide +kernel), fun h => ?_⟩,
    accepted_lowered (by decide +kernel), fun h => ?_⟩
  · exact absurd h.keyed (by decide +kernel)
  · exact absurd h.nullable (by decide +kernel)
  · exact absurd h.navigable.resolved (by decide +kernel)
  · exact absurd h.navigable.resolved (by decide +kernel)
  · exact absurd h.navigable.resolved (by decide +kernel)

end Ruprizzle
