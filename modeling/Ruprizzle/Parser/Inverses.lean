import Ruprizzle.Parser.References

namespace Ruprizzle

namespace Lower

-- The two relations of an implicit many-to-many, and the model that joins them.

variable {p : Pass} {e : Place} {r q : ResolvedRelation} {a b : Side} {group : List Side}

-- The relation a field leads to.
def Pass.Leads (p : Pass) (e : Place) (r : ResolvedRelation) : Prop :=
  ∃ ref i, refAt p.models e = some ref ∧ ref.resolved = some i ∧ p.relations[i]? = some r

theorem Pass.Leads.push {ends : List Place} (h : p.Leads e r) (he : e ∉ ends) :
    (p.push q ends).Leads e r := by
  obtain ⟨ref, i, href, hres, hi⟩ := h
  refine ⟨ref, i, ?_, hres, ?_⟩
  · rw [refAt_push, if_neg he]
    exact href
  · obtain ⟨hlt, _⟩ := List.getElem?_eq_some_iff.mp hi
    rw [relations_push, List.getElem?_append_left hlt]
    exact hi

theorem leads_push {ends : List Place} {ref : RelationRef} (href : refAt p.models e = some ref)
    (he : e ∈ ends) : (p.push r ends).Leads e r := by
  refine ⟨{ ref with resolved := some p.relations.length }, p.relations.length, ?_, rfl, ?_⟩
  · rw [refAt_push, if_pos he, href]
    rfl
  · rw [relations_push, List.getElem?_append_right (Nat.le_refl _), Nat.sub_self]
    rfl

-- A new join model changes none of the marks elsewhere.
theorem refAt_withJoin {models : IndexMap ModelName Model} {join : Model} {ref : RelationRef}
    (he : e.1 ≠ join.name) (href : refAt models e = some ref) :
    ∃ ref', refAt (withJoin models a b join) e = some ref' ∧ ref'.resolved = ref.resolved := by
  have hinsert : refAt (models.insert join.name join) e = some ref := by
    rw [refAt_insert, if_neg he]
    exact href
  have hmark : ∀ {models : IndexMap ModelName Model} {ref : RelationRef} (s : Side),
      refAt models e = some ref →
      ∃ ref', refAt (modifyRelation models s.model s.field (fun r => { r with through := some join.name })) e =
        some ref' ∧ ref'.resolved = ref.resolved := by
    intro models ref s href
    rw [refAt_modifyRelation, href]
    by_cases hplace : e = (s.model, s.field)
    · rw [if_pos hplace]
      exact ⟨_, rfl, rfl⟩
    · rw [if_neg hplace]
      exact ⟨_, rfl, rfl⟩
  obtain ⟨refA, hrefA, hresA⟩ := hmark a hinsert
  obtain ⟨refB, hrefB, hresB⟩ := hmark b hrefA
  exact ⟨refB, hrefB, hresB.trans hresA⟩

theorem Pass.Leads.withJoin (a b : Side) (join : Model) (h : p.Leads e r) (he : e.1 ≠ join.name) :
    ({ p with models := withJoin p.models a b join } : Pass).Leads e r := by
  obtain ⟨ref, i, href, hres, hi⟩ := h
  obtain ⟨ref', href', hsame⟩ := refAt_withJoin he href
  exact ⟨ref', i, href', hsame.trans hres, hi⟩

theorem resolveImplicitManyToMany_leads (h : p.Leads e r) (ha : e ≠ a.place) (hb : e ≠ b.place)
    (hjoin : e.1 ≠ joinModelName a b) : (resolveImplicitManyToMany p a b).Leads e r := by
  cases hA : implicitKey p.models (joinEnds a b).1 with
  | none =>
      rw [resolveImplicitManyToMany_eq_self (Or.inl hA)]
      exact h
  | some keyA =>
      cases hB : implicitKey p.models (joinEnds a b).2 with
      | none =>
          rw [resolveImplicitManyToMany_eq_self (Or.inr hB)]
          exact h
      | some keyB =>
          obtain ⟨modelA, nA, pkA⟩ := keyA
          obtain ⟨modelB, nB, pkB⟩ := keyB
          have hother : ∀ n, e ∉ [(joinModelName a b, n)] := by
            intro n hin
            exact hjoin (congrArg Prod.fst (List.mem_singleton.mp hin))
          rw [resolveImplicitManyToMany_eq hA hB]
          have hstart := h.withJoin a b (syntheticModel (joinModelName a b) (joinEnds a b).1
            (joinEnds a b).2 nA nB pkA pkB) hjoin
          exact (((hstart.push (hother _)).push (hother _)).push
            (by rw [List.mem_singleton]; exact ha)).push (by rw [List.mem_singleton]; exact hb)

-- What an implicit pair becomes: its model, and a relation for either field.
structure Pass.Joins (p : Pass) (a b : Side) : Prop where
  made : ∃ model nA nB pkA pkB, p.models.get? (joinModelName a b) = some model ∧
    model.bare = (syntheticModel (joinModelName a b) (joinEnds a b).1 (joinEnds a b).2 nA nB pkA pkB).bare
  first : p.Leads a.place (implicitManyToMany (joinModelName a b) (joinEnds a b).1 a b)
  second : p.Leads b.place (implicitManyToMany (joinModelName a b) (joinEnds a b).1 b a)

theorem resolveImplicitManyToMany_joins (hfresh : joinModelName a b ∉ p.models.keys)
    (hA : ∃ key, implicitKey p.models a.model = some key) (hB : ∃ key, implicitKey p.models b.model = some key)
    (hne : a.place ≠ b.place) (ha : ∃ ref, refAt p.models a.place = some ref)
    (hb : ∃ ref, refAt p.models b.place = some ref) : (resolveImplicitManyToMany p a b).Joins a b := by
  obtain ⟨⟨modelA, nA, pkA⟩, hkeyA⟩ : ∃ key, implicitKey p.models (joinEnds a b).1 = some key := by
    rcases joinEnds_cases a b with h | h
    · rw [h]
      exact hA
    · rw [h]
      exact hB
  obtain ⟨⟨modelB, nB, pkB⟩, hkeyB⟩ : ∃ key, implicitKey p.models (joinEnds a b).2 = some key := by
    rcases joinEnds_cases a b with h | h
    · rw [h]
      exact hB
    · rw [h]
      exact hA
  rw [resolveImplicitManyToMany_eq hkeyA hkeyB]
  dsimp only
  generalize hjoin : syntheticModel (joinModelName a b) (joinEnds a b).1 (joinEnds a b).2 nA nB pkA pkB = join
  have hname : join.name = joinModelName a b := by
    rw [← hjoin]
    rfl
  have hplace : ∀ e : Place, (∃ ref, refAt p.models e = some ref) → e.1 ≠ join.name := by
    intro e ⟨ref, href⟩ heq
    exact hfresh (hname ▸ heq ▸ mem_keys_of_refAt href)
  have hext : Extends (p.models.insert join.name join) (withJoin p.models a b join) :=
    extends_withJoin p.models a b join
  obtain ⟨model, hmodel, hbare⟩ := hext join.name join (by rw [IndexMap.get?_insert, if_pos rfl])
  obtain ⟨refA, hrefA⟩ := ha
  obtain ⟨refB, hrefB⟩ := hb
  obtain ⟨refA', hrefA', _⟩ := refAt_withJoin (a := a) (b := b) (hplace _ ⟨refA, hrefA⟩) hrefA
  obtain ⟨refB', hrefB', _⟩ := refAt_withJoin (a := a) (b := b) (hplace _ ⟨refB, hrefB⟩) hrefB
  generalize hstart : ({ p with models := withJoin p.models a b join } : Pass) = start
  have hmodels : start.models = withJoin p.models a b join := by rw [← hstart]
  rw [← hmodels] at hmodel hrefA' hrefB'
  obtain ⟨keyA, hk1⟩ : ∃ keyA, keyA = joinForeignKey (joinModelName a b) "a" "A" modelA (joinEnds a b).1 pkA :=
    ⟨_, rfl⟩
  obtain ⟨keyB, hk2⟩ : ∃ keyB, keyB = joinForeignKey (joinModelName a b) "b" "B" modelB (joinEnds a b).2 pkB :=
    ⟨_, rfl⟩
  rw [← hk1, ← hk2]
  have hext1 := extends_push start keyA [(joinModelName a b, ⟨"a_rel"⟩)]
  have hext2 := hext1.trans (extends_push _ keyB [(joinModelName a b, ⟨"b_rel"⟩)])
  obtain ⟨refA2, hrefA2, _⟩ := hext2.refAt hrefA'
  have hfirst := leads_push (r := implicitManyToMany (joinModelName a b) (joinEnds a b).1 a b) hrefA2
    (List.mem_singleton.mpr rfl)
  have hext3 := hext2.trans (extends_push _ (implicitManyToMany (joinModelName a b) (joinEnds a b).1 a b)
    [a.place])
  obtain ⟨refB3, hrefB3, _⟩ := hext3.refAt hrefB'
  have hsecond := leads_push (r := implicitManyToMany (joinModelName a b) (joinEnds a b).1 b a) hrefB3
    (List.mem_singleton.mpr rfl)
  have hext4 := hext3.trans (extends_push _ (implicitManyToMany (joinModelName a b) (joinEnds a b).1 b a)
    [b.place])
  obtain ⟨model', hmodel', hbare'⟩ := hext4 _ _ hmodel
  refine ⟨⟨model', nA, nB, pkA, pkB, hname ▸ hmodel', ?_⟩, hfirst.push ?_, hsecond⟩
  · rw [hjoin, hbare', hbare]
  · rw [List.mem_singleton]
    exact hne

theorem Pass.Leads.built {s : Side} {built : Option ResolvedRelation × Diagnostics} (h : p.Leads e r)
    (hs : e ≠ s.place) : (p.pushBuilt s built).Leads e r := by
  unfold Pass.pushBuilt
  cases built.1 with
  | none => exact h
  | some q =>
      have hreport : (p.report built.2).Leads e r := h
      exact hreport.push (by rw [List.mem_singleton]; exact hs)

-- A group marks none but the fields of its own sides.
theorem resolveGroup_leads (h : p.Leads e r) (he : e ∉ group.map Side.place)
    (hjoin : ∀ join ∈ implicitJoin group, e.1 ≠ join) : (resolveGroup p group).Leads e r := by
  have hreport : ∀ d, (p.report d).Leads e r := fun d => h
  have hside : ∀ s ∈ group, e ≠ s.place := fun s hs heq => he (heq ▸ List.mem_map.mpr ⟨s, hs, rfl⟩)
  unfold resolveGroup
  split
  · exact hreport _
  · exact hreport _
  · exact hreport _
  · rename_i a b hnone
    split
    · rename_i hlists
      have hmade : implicitJoin [a, b] = some (joinModelName a b) := by
        simp only [List.filter_cons, List.filter_nil] at hnone
        cases ha : a.isOwner <;> cases hb : b.isOwner <;> simp_all [implicitJoin]
      exact resolveImplicitManyToMany_leads h (hside a (by simp)) (hside b (by simp)) (hjoin _ hmade)
    · exact hreport _
  · exact hreport _
  · rename_i a b owner tail hsingle howner
    have hin : owner ∈ [a, b] := (List.mem_filter.mp (howner ▸ List.mem_cons_self)).1
    dsimp only
    split
    · rename_i q hq
      refine (hreport _).push ?_
      rw [List.mem_cons, List.mem_singleton, not_or]
      refine ⟨hside owner hin, ?_⟩
      by_cases ha : a.isOwner = true
      · rw [if_pos ha]
        exact hside b (by simp)
      · rw [if_neg ha]
        exact hside a (by simp)
    · exact hreport _
  · exact hreport _
  · exact h

theorem resolveThroughGroup_leads (h : p.Leads e r) (he : e ∉ group.map Side.place) :
    (resolveThroughGroup p group).Leads e r := by
  rcases resolveThroughGroup_cases p group with
    ⟨rfl, heq⟩ | ⟨d, hd, heq⟩ | ⟨a, b, f, g, hlists, hfks, _, _, heq⟩
  · rw [heq]
    exact h
  · rw [heq]
    exact h
  · have hside : ∀ s ∈ group, e ≠ s.place := fun s hs heq => he (heq ▸ List.mem_map.mpr ⟨s, hs, rfl⟩)
    have hlist : ∀ s ∈ [a, b], e ≠ s.place :=
      fun s hs => hside s (List.mem_filter.mp (hlists ▸ hs)).1
    have hfk : ∀ s ∈ [f, g], e ≠ s.place := fun s hs => hside s (List.mem_filter.mp (hfks ▸ hs)).1
    rw [heq]
    exact (((h.built (hfk f (by simp))).built (hfk g (by simp))).built (hlist a (by simp))).built
      (hlist b (by simp))

-- A group that asks for a join model is two lists.
theorem resolveGroup_implicit {join : ModelName} (h : implicitJoin group = some join) :
    ∃ a b, group = [a, b] ∧ join = joinModelName a b ∧
      resolveGroup p group = resolveImplicitManyToMany p a b := by
  match group with
  | [] | [_] | _ :: _ :: _ :: _ => cases h
  | [a, b] =>
      obtain ⟨hlists, hname⟩ := Option.ite_none_right_eq_some.mp (show (if !a.isOwner && !b.isOwner &&
        a.isList && b.isList then some (joinModelName a b) else none) = some join from h)
      simp only [Bool.and_eq_true, Bool.not_eq_true'] at hlists
      obtain ⟨⟨⟨ha, hb⟩, hla⟩, hlb⟩ := hlists
      refine ⟨a, b, rfl, (Option.some.inj hname).symm, ?_⟩
      simp [resolveGroup, ha, hb, hla, hlb]

theorem Pass.Leads.model (h : p.Leads e r) : e.1 ∈ p.models.keys := by
  obtain ⟨ref, _, href, _⟩ := h
  exact mem_keys_of_refAt href

theorem Pass.Joins.of_extends {p' : Pass} (h : p.Joins a b) (hext : Extends p.models p'.models)
    (hlead : ∀ e r, (e = a.place ∨ e = b.place) → p.Leads e r → p'.Leads e r) : p'.Joins a b := by
  obtain ⟨⟨model, nA, nB, pkA, pkB, hmodel, hbare⟩, hfirst, hsecond⟩ := h
  obtain ⟨model', hmodel', hsame⟩ := hext _ _ hmodel
  exact ⟨⟨model', nA, nB, pkA, pkB, hmodel', hsame.trans hbare⟩, hlead _ _ (Or.inl rfl) hfirst,
    hlead _ _ (Or.inr rfl) hsecond⟩

theorem Pass.Joins.resolveGroup (h : p.Joins a b)
    (hfresh : ∀ join ∈ implicitJoin group, join ∉ p.models.keys)
    (ha : a.place ∉ group.map Side.place) (hb : b.place ∉ group.map Side.place) :
    (resolveGroup p group).Joins a b := by
  refine h.of_extends (resolveGroup_extends hfresh).1 fun e r he hlead => ?_
  refine resolveGroup_leads hlead ?_ fun join hjoin heq => hfresh join hjoin (heq ▸ hlead.model)
  rcases he with rfl | rfl
  · exact ha
  · exact hb

theorem Pass.Joins.resolveThroughGroup (h : p.Joins a b) (ha : a.place ∉ group.map Side.place)
    (hb : b.place ∉ group.map Side.place) : (resolveThroughGroup p group).Joins a b := by
  refine h.of_extends (resolveThroughGroup_extends p group) fun e r he hlead => ?_
  refine resolveThroughGroup_leads hlead ?_
  rcases he with rfl | rfl
  · exact ha
  · exact hb

theorem Pass.Joins.foldl_resolveGroup {gs : List (List Side)} (h : p.Joins a b)
    (hnodup : (p.models.keys ++ gs.filterMap implicitJoin).Nodup)
    (ha : a.place ∉ gs.flatMap fun g => g.map Side.place)
    (hb : b.place ∉ gs.flatMap fun g => g.map Side.place) : (gs.foldl Lower.resolveGroup p).Joins a b := by
  induction gs generalizing p with
  | nil => exact h
  | cons g gs ih =>
      rw [filterMap_cons_toList] at hnodup
      rw [List.flatMap_cons, List.mem_append, not_or] at ha hb
      exact ih (h.resolveGroup (fresh_of_nodup hnodup) ha.1 hb.1) (nodup_resolveGroup hnodup) ha.2 hb.2

theorem Pass.Joins.foldl_resolveThroughGroup {gs : List (List Side)} (h : p.Joins a b)
    (ha : a.place ∉ gs.flatMap fun g => g.map Side.place)
    (hb : b.place ∉ gs.flatMap fun g => g.map Side.place) :
    (gs.foldl Lower.resolveThroughGroup p).Joins a b := by
  induction gs generalizing p with
  | nil => exact h
  | cons g gs ih =>
      rw [List.flatMap_cons, List.mem_append, not_or] at ha hb
      exact ih (h.resolveThroughGroup ha.1 hb.1) ha.2 hb.2

-- Where the names and the places are all different, every pair gets its own.
theorem foldl_resolveGroup_joins {gs : List (List Side)}
    (hnodup : (p.models.keys ++ gs.filterMap implicitJoin).Nodup)
    (hplaces : (gs.flatMap fun g => g.map Side.place).Nodup)
    (hkey : ∀ g ∈ gs, (implicitJoin g).isSome = true → ∀ s ∈ g, ∃ key, implicitKey p.models s.model = some key)
    (href : ∀ g ∈ gs, ∀ s ∈ g, ∃ ref, refAt p.models s.place = some ref)
    (hin : [a, b] ∈ gs) (hjoin : (implicitJoin [a, b]).isSome = true) :
    (gs.foldl resolveGroup p).Joins a b := by
  induction gs generalizing p with
  | nil => exact absurd hin List.not_mem_nil
  | cons g gs ih =>
      rw [filterMap_cons_toList] at hnodup
      rw [List.flatMap_cons, List.nodup_append] at hplaces
      obtain ⟨hown, hrest, hapart⟩ := hplaces
      have hfresh := fresh_of_nodup hnodup
      have hext := (resolveGroup_extends hfresh).1
      rcases List.mem_cons.mp hin with rfl | hin
      · obtain ⟨join, hsome⟩ := Option.isSome_iff_exists.mp hjoin
        obtain ⟨a', b', hpair, rfl, heq⟩ := resolveGroup_implicit (p := p) hsome
        obtain ⟨rfl, hcons⟩ := List.cons.inj hpair
        obtain ⟨rfl, _⟩ := List.cons.inj hcons
        have hne : a.place ≠ b.place := by
          intro heq
          rw [List.map_cons, List.map_cons, List.nodup_cons] at hown
          exact hown.1 (heq ▸ List.mem_cons_self)
        have hmade := resolveImplicitManyToMany_joins (hfresh _ hsome) (hkey _ hin hjoin a (by simp))
          (hkey _ hin hjoin b (by simp)) hne (href _ hin a (by simp)) (href _ hin b (by simp))
        rw [← heq] at hmade
        refine hmade.foldl_resolveGroup (nodup_resolveGroup hnodup) ?_ ?_
        · exact fun hmem => hapart _ (by simp) _ hmem rfl
        · exact fun hmem => hapart _ (by simp) _ hmem rfl
      · refine ih (nodup_resolveGroup hnodup) hrest (fun g' hg' hsome s hs => ?_) (fun g' hg' s hs => ?_) hin
        · obtain ⟨⟨m, n, f⟩, hk⟩ := hkey g' (List.mem_cons_of_mem _ hg') hsome s hs
          obtain ⟨m', f', hk', _⟩ := implicitKey_mono hext hk
          exact ⟨_, hk'⟩
        · obtain ⟨ref, hr⟩ := href g' (List.mem_cons_of_mem _ hg') s hs
          obtain ⟨ref', hr', _⟩ := hext.refAt hr
          exact ⟨ref', hr'⟩

theorem keys_pushBuilt (p : Pass) (s : Side) (built : Option ResolvedRelation × Diagnostics) :
    (p.pushBuilt s built).models.keys = p.models.keys := by
  unfold Pass.pushBuilt
  split
  · rw [keys_push]
    rfl
  · rfl

theorem keys_resolveThroughGroup (p : Pass) (group : List Side) :
    (resolveThroughGroup p group).models.keys = p.models.keys := by
  rcases resolveThroughGroup_cases p group with ⟨_, h⟩ | ⟨d, _, h⟩ | ⟨a, b, f, g, _, _, _, _, h⟩
  · rw [h]
  · rw [h]
    rfl
  · rw [h]
    unfold resolveJoin
    dsimp only
    rw [keys_pushBuilt, keys_pushBuilt, keys_pushBuilt, keys_pushBuilt]

theorem keys_foldl_resolveGroup {gs : List (List Side)} {k : ModelName}
    (hnodup : (p.models.keys ++ gs.filterMap implicitJoin).Nodup)
    (hk : k ∈ (gs.foldl resolveGroup p).models.keys) :
    k ∈ p.models.keys ∨ k ∈ gs.filterMap implicitJoin := by
  induction gs generalizing p with
  | nil => exact Or.inl hk
  | cons g gs ih =>
      rw [filterMap_cons_toList] at hnodup ⊢
      rcases ih (nodup_resolveGroup hnodup) hk with hkey | hrest
      · rcases (resolveGroup_extends (fresh_of_nodup hnodup)).2 k hkey with hold | hnew
        · exact Or.inl hold
        · exact Or.inr (List.mem_append_left _ (Option.mem_toList.mpr hnew))
      · exact Or.inr (List.mem_append_right _ hrest)

theorem keys_resolveRelations {models : IndexMap ModelName Model}
    (hnodup : (models.keys ++ joinNames models).Nodup) {k : ModelName}
    (hk : k ∈ (resolveRelations models).models.keys) : k ∈ models.keys ∨ k ∈ joinNames models := by
  rw [resolveRelations_eq] at hk
  have hthrough : ∀ (gs : List (List Side)) (p : Pass),
      (gs.foldl resolveThroughGroup p).models.keys = p.models.keys := by
    intro gs
    induction gs with
    | nil => exact fun p => rfl
    | cons g gs ih => exact fun p => (ih _).trans (keys_resolveThroughGroup p g)
  rw [hthrough] at hk
  exact keys_foldl_resolveGroup (p := ⟨models, [], (collectSides models).2⟩) hnodup hk

theorem resolveRelations_joins {models : IndexMap ModelName Model} (h : Unresolved models)
    (hnodup : (models.keys ++ joinNames models).Nodup)
    (hkey : ∀ g ∈ regularGroups models, (implicitJoin g).isSome = true → ∀ s ∈ g,
      ∃ key, implicitKey models s.model = some key)
    (hclean : Diagnostics.errors (resolveRelations models).diags = [])
    (hin : [a, b] ∈ regularGroups models) (hjoin : (implicitJoin [a, b]).isSome = true) :
    (resolveRelations models).Joins a b := by
  rw [resolveRelations_eq] at hclean ⊢
  have hclean1 := errors_of_extension (foldl_diags resolveThroughGroup_diags _ _) hclean
  have hclean0 := errors_of_extension (foldl_diags resolveGroup_diags _ _) hclean1
  have hsided := collectSides_sided h.named hclean0
  have hplaces := (places_perm models).nodup_iff.mp hsided.nodup
  obtain ⟨hregular, _, hapart⟩ := List.nodup_append.mp hplaces
  have hside : ∀ g ∈ regularGroups models, ∀ s ∈ g, ∃ ref, refAt models s.place = some ref := by
    intro g hg s hs
    obtain ⟨ref, href, _⟩ := hsided.target s (List.mem_filter.mp (mem_groups hg hs)).1
    exact ⟨ref, href⟩
  have hout : ∀ s ∈ [a, b], s.place ∉ (throughGroups models).flatMap fun g => g.map Side.place :=
    fun s hs hmem => hapart _ (List.mem_flatMap.mpr ⟨_, hin, List.mem_map.mpr ⟨s, hs, rfl⟩⟩) _ hmem rfl
  have hmade : ((regularGroups models).foldl resolveGroup
      ⟨models, [], (collectSides models).2⟩).Joins a b :=
    foldl_resolveGroup_joins hnodup hregular hkey hside hin hjoin
  exact hmade.foldl_resolveThroughGroup (hout a (by simp)) (hout b (by simp))

-- The two relations of a pair at different models are each other's converse.
theorem implicitManyToMany_cols (join : ModelName) (hne : a.model ≠ b.model) :
    (implicitManyToMany join (joinEnds a b).1 b a).ownerCols =
        (implicitManyToMany join (joinEnds a b).1 a b).targetCols ∧
      (implicitManyToMany join (joinEnds a b).1 b a).targetCols =
        (implicitManyToMany join (joinEnds a b).1 a b).ownerCols := by
  rcases joinEnds_cases a b with h | h
  · rw [h]
    simp [implicitManyToMany, Ne.symm hne]
  · rw [h]
    simp [implicitManyToMany, hne]

-- At one model both take the same column for their own.
theorem implicitManyToMany_same (join : ModelName) (h : a.model = b.model) :
    (implicitManyToMany join (joinEnds a b).1 a b).ownerCols = ["A"] ∧
      (implicitManyToMany join (joinEnds a b).1 a b).targetCols = ["B"] ∧
      (implicitManyToMany join (joinEnds a b).1 b a).ownerCols = ["A"] ∧
      (implicitManyToMany join (joinEnds a b).1 b a).targetCols = ["B"] := by
  have hends : (joinEnds a b).1 = a.model := by
    rcases joinEnds_cases a b with heq | heq
    · rw [heq]
    · rw [heq, h]
  rw [hends]
  simp [implicitManyToMany, h]

-- Sides of one group at different models lie at each other's.
theorem groupKey_faces (h : groupKey a = groupKey b) (hne : a.model ≠ b.model) :
    a.target = b.model ∧ b.target = a.model := by
  have hstr : a.model.str ≠ b.model.str := fun heq => hne (congrArg ModelName.mk heq)
  have hname : ∀ {m n : ModelName}, m.str = n.str → m = n := fun heq => congrArg ModelName.mk heq
  unfold groupKey at h
  split at h
  · split at h
    · exact absurd (Prod.mk.inj (Prod.mk.inj h).2).1 hstr
    · obtain ⟨hmodel, htarget⟩ := Prod.mk.inj (Prod.mk.inj h).2
      exact ⟨hname htarget, hname hmodel.symm⟩
  · split at h
    · obtain ⟨htarget, hmodel⟩ := Prod.mk.inj (Prod.mk.inj h).2
      exact ⟨hname htarget, hname hmodel.symm⟩
    · exact absurd (Prod.mk.inj (Prod.mk.inj h).2).2 hstr

end Lower

-- The rows of a join table that link a key of the one side to a key of the other.
def ResolvedRelation.Links {V : Type} (r : ResolvedRelation) (rows : List (String → V)) (x y : List V) : Prop :=
  ∃ row ∈ rows, r.ownerCols.map row = x ∧ r.targetCols.map row = y

-- Two relations over one join table, of which each goes back where the other comes from.
structure ResolvedRelation.Inverse (r q : ResolvedRelation) : Prop where
  kind : r.kind = .manyToMany ∧ q.kind = .manyToMany
  join : r.joinModel = q.joinModel
  table : r.targetTable = q.targetTable
  ends : q.owner = r.target ∧ q.target = r.owner
  fields : r.targetField = some q.ownerField ∧ q.targetField = some r.ownerField
  links : ∀ (V : Type) (rows : List (String → V)) (x y : List V), r.Links rows x y ↔ q.Links rows y x

-- The relation a field of the finished schema leads to.
def Schema.Leads (s : Schema) (e : Place) (r : ResolvedRelation) : Prop :=
  ∃ ref i, refAt s.models e = some ref ∧ ref.resolved = some i ∧ s.relations[i]? = some r

-- The law: the declared models and one join model for each pair, and two relations for
-- the pair that are inverse over its join model.
structure Ast.Linked (ast : Ast) (s : Schema) : Prop where
  models : s.models.keys.Perm (ast.declared.keys ++ Lower.joinNames ast.declared)
  kept : Extends ast.declared s.models
  pairs : ∀ a b, [a, b] ∈ Lower.regularGroups ast.declared → (Lower.implicitJoin [a, b]).isSome = true →
    ∃ r q model nA nB pkA pkB, s.Leads a.place r ∧ s.Leads b.place q ∧ r.Inverse q ∧
      r.joinModel = some (Lower.joinModelName a b) ∧
      s.models.get? (Lower.joinModelName a b) = some model ∧
      model.bare = (Lower.syntheticModel (Lower.joinModelName a b) (Lower.joinEnds a b).1
        (Lower.joinEnds a b).2 nA nB pkA pkB).bare

-- What is declared: the names of the models and of the join models are all different,
-- and no model has both ends of an implicit many-to-many.
structure Ast.Apart (ast : Ast) : Prop where
  names : (ast.declared.keys ++ Lower.joinNames ast.declared).Nodup
  ends : ∀ g ∈ Lower.regularGroups ast.declared, (Lower.implicitJoin g).isSome = true →
    (g.map Lower.Side.model).Nodup

theorem Schema.Leads.unique {s : Schema} {e : Place} {r q : ResolvedRelation} (h : s.Leads e r)
    (h' : s.Leads e q) : r = q := by
  obtain ⟨ref, i, href, hres, hi⟩ := h
  obtain ⟨ref', i', href', hres', hi'⟩ := h'
  obtain rfl := Option.some.inj (href.symm.trans href')
  obtain rfl := Option.some.inj (hres.symm.trans hres')
  exact Option.some.inj (hi.symm.trans hi')

theorem parse_joins {ast : Ast} {s : Schema} (h : parse ast = .ok s)
    (hnames : (ast.declared.keys ++ Lower.joinNames ast.declared).Nodup) {a b : Lower.Side}
    (hin : [a, b] ∈ Lower.regularGroups ast.declared) (hjoin : (Lower.implicitJoin [a, b]).isSome = true) :
    (Lower.resolveRelations ast.declared).Joins a b := by
  have hwell := Accepted.wellFormed ⟨ast, h⟩
  obtain ⟨hmodels, _, hclean, hkeyed⟩ := parse_resolved h
  have hext := Lower.resolveRelations_extends hnames
  rw [← hmodels] at hext
  have hstart := Lower.lowerModels_unresolved ast (Lower.lowerEnums ast).1
  refine Lower.resolveRelations_joins hstart hnames (fun g hg _ side hside => ?_) hclean hin hjoin
  exact implicitKey_of_extends hext hkeyed hwell.keyFields
    (Lower.collectSides_model hstart.named (List.mem_filter.mp (Lower.mem_groups hg hside)).1)

theorem joins_linked_iff {ast : Ast} {s : Schema} (h : parse ast = .ok s) :
    ast.Linked s ↔ ast.Apart := by
  obtain ⟨hmodels, hrelations, _, _⟩ := parse_resolved h
  have hleads : ∀ {e r}, (Lower.resolveRelations ast.declared).Leads e r → s.Leads e r := by
    intro e r hlead
    unfold Schema.Leads
    rw [hmodels, hrelations]
    exact hlead
  constructor
  · intro hlinked
    have hnames := hlinked.models.nodup_iff.mp (IndexMap.keys_nodup s.models)
    refine ⟨hnames, fun g hg hsome => ?_⟩
    obtain ⟨join, hjoin⟩ := Option.isSome_iff_exists.mp hsome
    obtain ⟨a, b, rfl, _⟩ := Lower.resolveGroup_implicit (p := ⟨ast.declared, [], []⟩) hjoin
    obtain ⟨r, q, _, _, _, _, _, hr, hq, hinverse, _⟩ := hlinked.pairs a b hg hsome
    have hjoins := parse_joins h hnames hg hsome
    obtain rfl := hr.unique (hleads hjoins.first)
    obtain rfl := hq.unique (hleads hjoins.second)
    rw [List.map_cons, List.map_cons, List.map_nil, List.nodup_cons, List.mem_singleton]
    refine ⟨fun hsame => ?_, List.nodup_singleton _⟩
    -- A link from 0 to 1 leads back from 0 to 1.
    obtain ⟨hown, htarget, hown', htarget'⟩ :=
      Lower.implicitManyToMany_same (Lower.joinModelName a b) hsame
    have hlink := (hinverse.links Nat [fun c => if c = "A" then 0 else 1] [0] [1]).mp
      ⟨_, List.mem_singleton.mpr rfl, by rw [hown]; rfl, by rw [htarget]; rfl⟩
    obtain ⟨row, hrow, hx, _⟩ := hlink
    rw [List.mem_singleton.mp hrow, hown'] at hx
    exact absurd hx (by decide)
  · intro hapart
    have hmem : ∀ k, k ∈ s.models.keys ↔ k ∈ ast.declared.keys ++ Lower.joinNames ast.declared := by
      intro k
      rw [hmodels, List.mem_append]
      refine ⟨fun hk => Lower.keys_resolveRelations hapart.names hk, fun hk => ?_⟩
      rcases hk with hk | hk
      · exact (Lower.resolveRelations_extends hapart.names).keys hk
      · obtain ⟨g, hg, hjoin⟩ := List.mem_filterMap.mp hk
        obtain ⟨a, b, rfl, rfl, _⟩ := Lower.resolveGroup_implicit (p := ⟨ast.declared, [], []⟩) hjoin
        obtain ⟨model, _, _, _, _, hmodel, _⟩ := (parse_joins h hapart.names hg (by rw [hjoin]; rfl)).made
        exact IndexMap.mem_keys_iff_get?.mpr ⟨model, hmodel⟩
    refine ⟨(List.perm_ext_iff_of_nodup (IndexMap.keys_nodup _) hapart.names).mpr hmem,
      hmodels ▸ Lower.resolveRelations_extends hapart.names, fun a b hg hsome => ?_⟩
    have hjoins := parse_joins h hapart.names hg hsome
    obtain ⟨model, nA, nB, pkA, pkB, hmodel, hbare⟩ := hjoins.made
    have hne : a.model ≠ b.model := by
      have hends := hapart.ends _ hg hsome
      rw [List.map_cons, List.map_cons, List.map_nil, List.nodup_cons, List.mem_singleton] at hends
      exact hends.1
    obtain ⟨key, hkey⟩ := Lower.groups_key hg
    obtain ⟨hface, hface'⟩ := Lower.groupKey_faces
      ((hkey a (by simp)).trans (hkey b (by simp)).symm) hne
    obtain ⟨hcols, hcols'⟩ := Lower.implicitManyToMany_cols (Lower.joinModelName a b) hne
    refine ⟨_, _, model, nA, nB, pkA, pkB, hleads hjoins.first, hleads hjoins.second,
      ⟨⟨rfl, rfl⟩, rfl, rfl, ⟨hface.symm, hface'⟩, ⟨rfl, rfl⟩, fun V rows x y => ?_⟩, rfl,
      hmodels ▸ hmodel, hbare⟩
    unfold ResolvedRelation.Links
    rw [hcols, hcols']
    exact exists_congr fun row => and_congr_right fun _ => and_comm

open Build

theorem joins_linked_blog : blog.Linked blog.lowered ↔ blog.Apart :=
  joins_linked_iff (parse_lowered (by decide +kernel))

-- Friends on both sides, which are both kept under column A, and a declared model
-- that the join model of a pair replaces.
def friends : Ast := schema "postgres"
  [model "User" [idField, field "friends" "User" .list [], field "friendOf" "User" .list []] []]

theorem joins_unlinked : (Accepted friends.lowered ∧ ¬ friends.Linked friends.lowered) ∧
    Accepted takenJoinName.lowered ∧ ¬ takenJoinName.Linked takenJoinName.lowered := by
  refine ⟨⟨accepted_lowered (by decide +kernel), fun h => ?_⟩, accepted_lowered (by decide +kernel),
    fun h => ?_⟩
  · have hpair : ∃ g ∈ Lower.regularGroups friends.declared, (Lower.implicitJoin g).isSome = true := by
      decide +kernel
    have hcols : ∀ r ∈ friends.lowered.relations, r.kind = .manyToMany →
        r.ownerCols = ["A"] ∧ r.targetCols = ["B"] := by decide +kernel
    obtain ⟨g, hg, hsome⟩ := hpair
    obtain ⟨join, hjoin⟩ := Option.isSome_iff_exists.mp hsome
    obtain ⟨a, b, rfl, _⟩ := Lower.resolveGroup_implicit (p := ⟨friends.declared, [], []⟩) hjoin
    obtain ⟨r, q, _, _, _, _, _, ⟨_, _, _, _, hr⟩, ⟨_, _, _, _, hq⟩, hinverse, _⟩ := h.pairs a b hg hsome
    obtain ⟨hown, htarget⟩ := hcols r (List.mem_of_getElem? hr) hinverse.kind.1
    obtain ⟨hown', _⟩ := hcols q (List.mem_of_getElem? hq) hinverse.kind.2
    have hlink := (hinverse.links Nat [fun c => if c = "A" then 0 else 1] [0] [1]).mp
      ⟨_, List.mem_singleton.mpr rfl, by rw [hown]; rfl, by rw [htarget]; rfl⟩
    obtain ⟨row, hrow, hx, _⟩ := hlink
    rw [List.mem_singleton.mp hrow, hown'] at hx
    exact absurd hx (by decide)
  · have hnames := h.models.nodup_iff.mp (IndexMap.keys_nodup _)
    exact absurd hnames (by decide +kernel)

end Ruprizzle
