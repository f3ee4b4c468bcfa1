import Ruprizzle.Parser.Resolution

namespace Ruprizzle.Lower

-- The two models of an implicit many-to-many, in the order of their names.
def joinEnds (a b : Side) : ModelName × ModelName :=
  if ¬ b.model.str < a.model.str then (a.model, b.model) else (b.model, a.model)

def joinModelName (a b : Side) : ModelName :=
  ⟨match a.relName with
    | some name => "_" ++ (joinEnds a b).1.str ++ "To" ++ (joinEnds a b).2.str ++ "_" ++ name
    | none => "_" ++ (joinEnds a b).1.str ++ "To" ++ (joinEnds a b).2.str⟩

theorem joinEnds_cases (a b : Side) :
    joinEnds a b = (a.model, b.model) ∨ joinEnds a b = (b.model, a.model) := by
  unfold joinEnds
  split
  · exact Or.inl rfl
  · exact Or.inr rfl

-- The models with the join model in, before any field is marked.
def withJoin (models : IndexMap ModelName Model) (a b : Side) (join : Model) :
    IndexMap ModelName Model :=
  modifyRelation (modifyRelation (models.insert join.name join) a.model a.field
    (fun r => { r with through := some join.name })) b.model b.field
    (fun r => { r with through := some join.name })

theorem resolveImplicitManyToMany_eq {p : Pass} {a b : Side} {modelA modelB : Model}
    {nA nB : FieldName} {pkA pkB : Field}
    (hA : implicitKey p.models (joinEnds a b).1 = some (modelA, nA, pkA))
    (hB : implicitKey p.models (joinEnds a b).2 = some (modelB, nB, pkB)) :
    resolveImplicitManyToMany p a b =
      let join := joinModelName a b
      let (mA, mB) := joinEnds a b
      (({ p with models := withJoin p.models a b (syntheticModel join mA mB nA nB pkA pkB) } :
          Pass).push (joinForeignKey join "a" "A" modelA mA pkA) [(join, ⟨"a_rel"⟩)]
        |>.push (joinForeignKey join "b" "B" modelB mB pkB) [(join, ⟨"b_rel"⟩)]
        |>.push (implicitManyToMany join mA a b) [a.place]
        |>.push (implicitManyToMany join mA b a) [b.place]) := by
  unfold resolveImplicitManyToMany joinModelName
  unfold joinEnds at hA hB ⊢
  by_cases hle : b.model.str < a.model.str
  · simp only [hle, not_true, if_false] at hA hB ⊢
    simp only [hA, hB]
    rfl
  · simp only [hle, not_false_eq_true, if_true] at hA hB ⊢
    simp only [hA, hB]
    rfl

theorem resolveImplicitManyToMany_eq_self {p : Pass} {a b : Side}
    (h : implicitKey p.models (joinEnds a b).1 = none ∨ implicitKey p.models (joinEnds a b).2 = none) :
    resolveImplicitManyToMany p a b = p := by
  unfold resolveImplicitManyToMany
  unfold joinEnds at h
  by_cases hle : b.model.str < a.model.str
  · simp only [hle, not_true, if_false] at h ⊢
    rcases h with h | h <;> simp only [h]
    split <;> simp_all
  · simp only [hle, not_false_eq_true, if_true] at h ⊢
    rcases h with h | h <;> simp only [h]
    split <;> simp_all

theorem refAt_syntheticModel (join mA mB : ModelName) (nA nB : FieldName) {pkA pkB : Field}
    (hA : pkA.hasColumn = true) (hB : pkB.hasColumn = true) (n : FieldName) :
    ((syntheticModel join mA mB nA nB pkA pkB).fields.get? n).bind Field.relation =
      if n = ⟨"b_rel"⟩ then (joinRelation "b_rel" "b" mB nB).relation
      else if n = ⟨"a_rel"⟩ then (joinRelation "a_rel" "a" mA nA).relation else none := by
  have hnone : ∀ {pk : Field} (name column : String), pk.hasColumn = true →
      (joinColumn name column pk).relation = none := by
    intro pk name column hpk
    change pk.kind.relation? = none
    cases hk : pk.kind with
    | scalar _ | enum _ => rfl
    | relation _ => simp [Field.hasColumn, hk, FieldKind.hasColumn] at hpk
    | list inner => cases inner <;> simp_all [Field.hasColumn, FieldKind.hasColumn, FieldKind.relation?]
  simp only [syntheticModel, IndexMap.get?_insert, IndexMap.get?_empty]
  split
  · rfl
  · split
    · rfl
    · split
      · exact hnone _ _ hB
      · split
        · exact hnone _ _ hA
        · rfl

-- A model under a new name brings its own relation fields, all of them open.
theorem Pass.Resolving.insert {p : Pass} {pending : List Place} (h : p.Resolving pending)
    {k : ModelName} (hk : k ∉ p.models.keys) (m : Model) (new : List Place) (hnodup : new.Nodup)
    (hnew : ∀ n, (k, n) ∈ new ↔ ∃ ref, (m.fields.get? n).bind Field.relation = some ref)
    (hmodel : ∀ e ∈ new, e.1 = k)
    (hopen : ∀ n ref, (m.fields.get? n).bind Field.relation = some ref → ref.resolved = none) :
    ({ p with models := p.models.insert k m } : Pass).Resolving (new ++ pending) := by
  have hext : Extends p.models (p.models.insert k m) := Extends.insert_fresh hk m
  have hplace : ∀ e, refAt p.models e ≠ none → e.1 ≠ k := by
    intro e he hek
    obtain ⟨ref, href⟩ := Option.ne_none_iff_exists'.mp he
    obtain ⟨_, hf, _⟩ := Option.bind_eq_some_iff.mp href
    obtain ⟨model, hm, _⟩ := Option.bind_eq_some_iff.mp hf
    exact hk (hek ▸ IndexMap.mem_keys_iff_get?.mpr ⟨model, hm⟩)
  have hpending : ∀ e ∈ pending, e.1 ≠ k := by
    intro e he
    obtain ⟨ref, href, _⟩ := (h.pending_iff e).mpr he
    exact hplace e (by simp [href])
  refine ⟨?_, ?_, ?_, ?_, fun r hr => (h.wired r hr).mono hext (List.Subset.refl _)⟩
  · refine List.Nodup.append hnodup h.nodup ?_
    intro e he he'
    exact hpending e he' (hmodel e he)
  · intro e
    obtain ⟨k', n⟩ := e
    rw [refAt_insert, List.mem_append]
    by_cases hek : k' = k
    · subst hek
      have hout : (k', n) ∉ pending := fun hp => hpending _ hp rfl
      rw [if_pos rfl, hnew]
      constructor
      · rintro ⟨ref, href, _⟩
        exact Or.inl ⟨ref, href⟩
      · rintro (⟨ref, href⟩ | hp)
        · exact ⟨ref, href, hopen n ref href⟩
        · exact absurd hp hout
    · have hout : (k', n) ∉ new := fun hn => hek (hmodel _ hn)
      simp only [hek, if_false, hout, false_or]
      exact h.pending_iff (k', n)
  · intro e ref i href hres
    rw [refAt_insert] at href
    split at href
    · rw [hopen _ _ href] at hres
      cases hres
    · exact h.marks e ref i href hres
  · intro i r hr
    obtain ⟨ref, href, hres⟩ := h.owned i r hr
    exact ⟨ref, by rw [refAt_insert, if_neg (hplace _ (by simp [href])), href], hres⟩

-- Giving a field its join model leaves its mark alone.
theorem Pass.Resolving.modify {p : Pass} {pending : List Place} (h : p.Resolving pending)
    (model : ModelName) (field : FieldName) (g : RelationRef → RelationRef)
    (hbare : ∀ r, (g r).bare = r.bare) (hresolved : ∀ r, (g r).resolved = r.resolved) :
    ({ p with models := modifyRelation p.models model field g } : Pass).Resolving pending := by
  have hmark : ∀ e (P : Option Nat → Prop),
      (∃ ref, refAt (modifyRelation p.models model field g) e = some ref ∧ P ref.resolved) ↔
        ∃ ref, refAt p.models e = some ref ∧ P ref.resolved := by
    intro e P
    rw [refAt_modifyRelation]
    split
    · simp [Option.map_eq_some_iff, hresolved]
    · rfl
  refine ⟨h.nodup, ?_, ?_, ?_, fun r hr =>
    (h.wired r hr).mono (Extends.modifyRelation _ _ _ _ hbare) (List.Subset.refl _)⟩
  · exact fun e => (hmark e (· = none)).trans (h.pending_iff e)
  · intro e ref i href hres
    obtain ⟨ref', href', hres'⟩ := (hmark e (· = some i)).mp ⟨ref, href, hres⟩
    exact h.marks e ref' i href' hres'
  · exact fun i r hr => (hmark _ (· = some i)).mpr (h.owned i r hr)

theorem joinForeignKey_wired {models : IndexMap ModelName Model}
    {relations : List ResolvedRelation} {join targetName : ModelName} {model target found : Model}
    {suffix column : String} {pk : Field} (hjoin : models.get? join = some model)
    (hcolumn : ∃ f ∈ model.scalarFields, f.column = column ∧ f.kind = pk.kind)
    (htarget : models.get? targetName = some found) (hpk : pk ∈ found.scalarFields)
    (href : ∃ ref, refAt models (join, ⟨suffix ++ "_rel"⟩) = some ref) :
    (joinForeignKey join suffix column target targetName pk).Wired models relations := by
  obtain ⟨f, hf, hcol, hkind⟩ := hcolumn
  refine ⟨by simp [ResolvedRelation.targetPlace, joinForeignKey], fun _ => ?_, ?_, ?_⟩
  · exact ⟨model, hjoin, found, htarget,
      List.Forall₂.cons ⟨f, hf, pk, hpk, hcol, rfl, hkind⟩ List.Forall₂.nil⟩
  · intro hk
    cases hk
  · obtain ⟨ref, href⟩ := href
    refine ⟨ref, href, fun _ _ hsets => ?_⟩
    rcases hsets with hsets | hsets <;> cases hsets

theorem implicitManyToMany_wired {models : IndexMap ModelName Model}
    {relations : List ResolvedRelation} {join mA mB : ModelName} {model modelA modelB : Model}
    {pkA pkB : Field} {s other : Side} (hjoin : models.get? join = some model)
    (htable : model.table = join.str)
    (hA : joinForeignKey join "a" "A" modelA mA pkA ∈ relations)
    (hB : joinForeignKey join "b" "B" modelB mB pkB ∈ relations)
    (hfirst : s.model = mA → s.target = mB) (hsecond : s.model ≠ mA → s.model = mB ∧ s.target = mA)
    (href : ∀ n, n = ⟨"a_rel"⟩ ∨ n = ⟨"b_rel"⟩ → ∃ ref, refAt models (join, n) = some ref)
    (hapart : (s.target, other.field) ≠ s.place) :
    (implicitManyToMany join mA s other).Wired models relations := by
  refine ⟨fun heq => hapart (Option.some.inj heq), fun hk => absurd rfl hk, fun _ => ?_, ?_⟩
  · by_cases hs : s.model = mA
    · refine ⟨join, model, rfl, hjoin, htable.symm, _, hA, _, hB, nofun, nofun, rfl, rfl,
        ?_, ?_, hs.symm, (hfirst hs).symm, ?_, ?_⟩ <;>
          simp [implicitManyToMany, joinForeignKey, hs]
    · obtain ⟨hmB, ht⟩ := hsecond hs
      refine ⟨join, model, rfl, hjoin, htable.symm, _, hB, _, hA, nofun, nofun, rfl, rfl,
        ?_, ?_, hmB.symm, ht.symm, ?_, ?_⟩ <;>
          simp [implicitManyToMany, joinForeignKey, hs]
  · have hplace : ∃ n, (n = ⟨"a_rel"⟩ ∨ n = ⟨"b_rel"⟩) ∧
        (implicitManyToMany join mA s other).keyPlace = (join, n) := by
      by_cases hs : s.model = mA
      · exact ⟨_, Or.inl rfl, by simp [ResolvedRelation.keyPlace, implicitManyToMany, hs]⟩
      · exact ⟨_, Or.inr rfl, by simp [ResolvedRelation.keyPlace, implicitManyToMany, hs]⟩
    obtain ⟨n, hn, hkey⟩ := hplace
    obtain ⟨ref, href⟩ := href n hn
    refine ⟨ref, by rw [hkey, href], fun _ _ hsets => ?_⟩
    rcases hsets with hsets | hsets <;> cases hsets

theorem implicitKey_spec {models : IndexMap ModelName Model} {name : ModelName} {m : Model}
    {n : FieldName} {f : Field} (h : implicitKey models name = some (m, n, f)) :
    models.get? name = some m ∧ m.primaryKey.fields.head? = some n ∧ m.fields.get? n = some f := by
  unfold implicitKey at h
  simp only [Option.bind_eq_bind, Option.bind_eq_some_iff, Option.pure_def, Option.some.injEq,
    Prod.mk.injEq] at h
  obtain ⟨m', hm, n', hn, f', hf, rfl, rfl, rfl⟩ := h
  exact ⟨hm, hn, hf⟩

theorem extends_withJoin (models : IndexMap ModelName Model) (a b : Side) (join : Model) :
    Extends (models.insert join.name join) (withJoin models a b join) :=
  (Extends.modifyRelation _ _ _ (fun r => { r with through := some join.name }) fun _ => rfl).trans
    (Extends.modifyRelation _ _ _ (fun r => { r with through := some join.name }) fun _ => rfl)

-- The join model goes in with its two navigation fields open.
theorem withJoin_resolving {p : Pass} {pending : List Place} (h : p.Resolving pending)
    (a b : Side) {join : ModelName} (hfresh : join ∉ p.models.keys) (mA mB : ModelName)
    (nA nB : FieldName) {pkA pkB : Field} (hA : pkA.hasColumn = true) (hB : pkB.hasColumn = true) :
    ({ p with models := withJoin p.models a b (syntheticModel join mA mB nA nB pkA pkB) } :
      Pass).Resolving ((join, ⟨"a_rel"⟩) :: (join, ⟨"b_rel"⟩) :: pending) := by
  have hrel := refAt_syntheticModel join mA mB nA nB hA hB
  have hinsert := h.insert hfresh (syntheticModel join mA mB nA nB pkA pkB)
    [(join, ⟨"a_rel"⟩), (join, ⟨"b_rel"⟩)] (by simp)
    (by
      intro n
      rw [hrel]
      by_cases hb : n = ⟨"b_rel"⟩
      · simp [hb, joinRelation, Field.relation, FieldKind.relation?]
      · by_cases ha : n = ⟨"a_rel"⟩ <;>
          simp [hb, ha, joinRelation, Field.relation, FieldKind.relation?])
    (by simp)
    (by
      intro n ref href
      rw [hrel] at href
      split at href
      · cases href
        rfl
      · split at href <;> cases href
        rfl)
  exact (hinsert.modify a.model a.field (fun r => { r with through := some join }) (fun _ => rfl)
    (fun _ => rfl)).modify b.model b.field (fun r => { r with through := some join })
      (fun _ => rfl) (fun _ => rfl)

theorem scalarFields_syntheticModel (join mA mB : ModelName) (nA nB : FieldName) {pkA pkB : Field}
    (hA : pkA.hasColumn = true) (hB : pkB.hasColumn = true) :
    (∃ f ∈ (syntheticModel join mA mB nA nB pkA pkB).scalarFields,
      f.column = "A" ∧ f.kind = pkA.kind) ∧
    ∃ f ∈ (syntheticModel join mA mB nA nB pkA pkB).scalarFields,
      f.column = "B" ∧ f.kind = pkB.kind := by
  have hvalues : (syntheticModel join mA mB nA nB pkA pkB).fields.values =
      [joinColumn "a" "A" pkA, joinColumn "b" "B" pkB, joinRelation "a_rel" "a" mA nA,
        joinRelation "b_rel" "b" mB nB] := by
    simp [syntheticModel, IndexMap.insert, IndexMap.values, IndexMap.empty, IndexMap.keys]
  constructor
  · exact ⟨joinColumn "a" "A" pkA, List.mem_filter.mpr ⟨by rw [hvalues]; simp, hA⟩, rfl, rfl⟩
  · exact ⟨joinColumn "b" "B" pkB, List.mem_filter.mpr ⟨by rw [hvalues]; simp, hB⟩, rfl, rfl⟩

theorem resolveImplicitManyToMany_resolving {p : Pass} {a b : Side} {rest : List Place}
    (h : p.Resolving (a.place :: b.place :: rest)) (hab : a.target = b.model)
    (hba : b.target = a.model)
    (hkey : ∀ s, s = a ∨ s = b → ∃ m n f, implicitKey p.models s.model = some (m, n, f) ∧
      f.hasColumn = true) (hfresh : joinModelName a b ∉ p.models.keys) :
    (resolveImplicitManyToMany p a b).Resolving rest := by
  have hends : ∀ name, name = (joinEnds a b).1 ∨ name = (joinEnds a b).2 →
      ∃ m n f, implicitKey p.models name = some (m, n, f) ∧ f.hasColumn = true := by
    intro name hname
    rcases joinEnds_cases a b with he | he <;> simp only [he] at hname <;>
      rcases hname with rfl | rfl
    · exact hkey a (Or.inl rfl)
    · exact hkey b (Or.inr rfl)
    · exact hkey b (Or.inr rfl)
    · exact hkey a (Or.inl rfl)
  obtain ⟨modelA, nA, pkA, hA, hcolA⟩ := hends _ (Or.inl rfl)
  obtain ⟨modelB, nB, pkB, hB, hcolB⟩ := hends _ (Or.inr rfl)
  rw [resolveImplicitManyToMany_eq hA hB]
  obtain ⟨hgetA, _, hpkA⟩ := implicitKey_spec hA
  obtain ⟨hgetB, _, hpkB⟩ := implicitKey_spec hB
  have hfaceA : (a.model = (joinEnds a b).1 → a.target = (joinEnds a b).2) ∧
      (a.model ≠ (joinEnds a b).1 → a.model = (joinEnds a b).2 ∧ a.target = (joinEnds a b).1) := by
    rcases joinEnds_cases a b with he | he <;> simp only [he, hab] <;> grind
  have hfaceB : (b.model = (joinEnds a b).1 → b.target = (joinEnds a b).2) ∧
      (b.model ≠ (joinEnds a b).1 → b.model = (joinEnds a b).2 ∧ b.target = (joinEnds a b).1) := by
    rcases joinEnds_cases a b with he | he <;> simp only [he, hba] <;> grind
  have hapart : a.place ≠ b.place := by
    have hnodup := h.nodup
    simp only [List.nodup_cons, List.mem_cons, not_or] at hnodup
    exact hnodup.1.1
  generalize joinModelName a b = join at hfresh ⊢
  generalize joinEnds a b = ends at *
  obtain ⟨mA, mB⟩ := ends
  dsimp only at *
  have hstart := withJoin_resolving h a b hfresh mA mB nA nB hcolA hcolB
  obtain ⟨hscalarA, hscalarB⟩ := scalarFields_syntheticModel join mA mB nA nB hcolA hcolB
  have hext := extends_withJoin p.models a b (syntheticModel join mA mB nA nB pkA pkB)
  have htable : (syntheticModel join mA mB nA nB pkA pkB).table = join.str := rfl
  have hname : (syntheticModel join mA mB nA nB pkA pkB).name = join := rfl
  generalize syntheticModel join mA mB nA nB pkA pkB = J at *
  rw [hname] at hext
  -- What the four relations refer to, in the models before any mark.
  obtain ⟨J', hJ, hbareJ⟩ := hext join J (by simp [IndexMap.get?_insert])
  have htable' : J'.table = join.str := (congrArg Model.table hbareJ :).trans htable
  rw [← scalarFields_bare J, ← hbareJ, scalarFields_bare] at hscalarA hscalarB
  have hfound : ∀ {name model}, p.models.get? name = some model →
      ∃ found, (withJoin p.models a b J).get? name = some found ∧
        found.scalarFields = model.scalarFields := by
    intro name model hget
    obtain ⟨found, hfound, hbare⟩ :=
      (Extends.insert_fresh hfresh J).trans hext name model hget
    exact ⟨found, hfound, by rw [← scalarFields_bare found, hbare, scalarFields_bare]⟩
  obtain ⟨foundA, hfoundA, hsameA⟩ := hfound hgetA
  obtain ⟨foundB, hfoundB, hsameB⟩ := hfound hgetB
  have hpkA' : pkA ∈ foundA.scalarFields :=
    hsameA ▸ List.mem_filter.mpr ⟨IndexMap.mem_values_of_get? hpkA, hcolA⟩
  have hpkB' : pkB ∈ foundB.scalarFields :=
    hsameB ▸ List.mem_filter.mpr ⟨IndexMap.mem_values_of_get? hpkB, hcolB⟩
  have hrefs : ∀ n, n = ⟨"a_rel"⟩ ∨ n = ⟨"b_rel"⟩ →
      ∃ ref, refAt (withJoin p.models a b J) (join, n) = some ref := by
    intro n hn
    obtain ⟨ref, href, _⟩ := (hstart.pending_iff (join, n)).mpr (by rcases hn with rfl | rfl <;> simp)
    exact ⟨ref, href⟩
  generalize withJoin p.models a b J = M at *
  have hsubset : [joinForeignKey join "a" "A" modelA mA pkA,
      joinForeignKey join "b" "B" modelB mB pkB] ⊆
      (p.relations ++ [joinForeignKey join "a" "A" modelA mA pkA]) ++
        [joinForeignKey join "b" "B" modelB mB pkB] := by
    simp
  have hwiredA : (implicitManyToMany join mA a b).Wired M
      [joinForeignKey join "a" "A" modelA mA pkA, joinForeignKey join "b" "B" modelB mB pkB] :=
    implicitManyToMany_wired hJ htable' List.mem_cons_self
      (List.mem_cons_of_mem _ List.mem_cons_self) hfaceA.1 hfaceA.2 hrefs (hab ▸ hapart.symm)
  have hwiredB : (implicitManyToMany join mA b a).Wired M
      [joinForeignKey join "a" "A" modelA mA pkA, joinForeignKey join "b" "B" modelB mB pkB] :=
    implicitManyToMany_wired hJ htable' List.mem_cons_self
      (List.mem_cons_of_mem _ List.mem_cons_self) hfaceB.1 hfaceB.2 hrefs (hba ▸ hapart)
  -- One relation after the other, each settling the field that owns it.
  have h1 := hstart.pushOwned (r := joinForeignKey join "a" "A" modelA mA pkA) rfl
    (joinForeignKey_wired hJ hscalarA hfoundA hpkA' (hrefs _ (Or.inl rfl)))
  have he1 := extends_push { p with models := M } (joinForeignKey join "a" "A" modelA mA pkA)
    [(join, ⟨"a_rel"⟩)]
  have h2 := h1.pushOwned (r := joinForeignKey join "b" "B" modelB mB pkB) rfl
    ((joinForeignKey_wired hJ hscalarB hfoundB hpkB' (hrefs _ (Or.inr rfl))).mono he1
      (List.Subset.refl _))
  have he2 := he1.trans (extends_push _ (joinForeignKey join "b" "B" modelB mB pkB)
    [(join, ⟨"b_rel"⟩)])
  have h3 := h2.pushOwned (r := implicitManyToMany join mA a b) rfl (hwiredA.mono he2 hsubset)
  have he3 := he2.trans (extends_push _ (implicitManyToMany join mA a b) [a.place])
  exact h3.pushOwned rfl (hwiredB.mono he3
    (List.Subset.trans hsubset (List.subset_append_left _ _)))

@[simp] theorem keys_push (p : Pass) (r : ResolvedRelation) (ends : List Place) :
    (p.push r ends).models.keys = p.models.keys := by
  unfold Pass.push
  refine List.foldlRecOn
    (motive := fun models : IndexMap ModelName Model => models.keys = p.models.keys) ends _ rfl
    fun models hmodels _ _ => ?_
  rw [← hmodels]
  exact modifyRelation_keys models _ _ _

-- Whether or not the join model can be built, no model is lost to it.
theorem resolveImplicitManyToMany_extends {p : Pass} {a b : Side}
    (hfresh : joinModelName a b ∉ p.models.keys) :
    Extends p.models (resolveImplicitManyToMany p a b).models ∧
      ∀ k ∈ (resolveImplicitManyToMany p a b).models.keys,
        k ∈ p.models.keys ∨ k = joinModelName a b := by
  cases hA : implicitKey p.models (joinEnds a b).1 with
  | none =>
      rw [resolveImplicitManyToMany_eq_self (Or.inl hA)]
      exact ⟨Extends.refl _, fun _ hk => Or.inl hk⟩
  | some keyA =>
      cases hB : implicitKey p.models (joinEnds a b).2 with
      | none =>
          rw [resolveImplicitManyToMany_eq_self (Or.inr hB)]
          exact ⟨Extends.refl _, fun _ hk => Or.inl hk⟩
      | some keyB =>
          obtain ⟨modelA, nA, pkA⟩ := keyA
          obtain ⟨modelB, nB, pkB⟩ := keyB
          rw [resolveImplicitManyToMany_eq hA hB]
          dsimp only
          refine ⟨?_, ?_⟩
          · refine Extends.trans ?_ (((extends_push _ _ _).trans (extends_push _ _ _)).trans
              ((extends_push _ _ _).trans (extends_push _ _ _)))
            exact (Extends.insert_fresh hfresh _).trans (extends_withJoin p.models a b
              (syntheticModel (joinModelName a b) _ _ nA nB pkA pkB))
          · intro k hk
            simp only [keys_push, withJoin, modifyRelation_keys, IndexMap.mem_keys_insert] at hk
            exact hk.symm

end Ruprizzle.Lower
