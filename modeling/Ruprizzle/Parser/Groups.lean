import Ruprizzle.Parser.Synthesis

namespace Ruprizzle.Lower

theorem flatten_insert_perm {κ α : Type} [DecidableEq κ] (m : IndexMap κ (List α)) (k : κ) (a : α) :
    (m.insert k ((m.get? k).getD [] ++ [a])).values.flatten.Perm (m.values.flatten ++ [a]) := by
  unfold IndexMap.values
  rw [IndexMap.entries_insert]
  split
  · rename_i hk
    obtain ⟨g, hg⟩ := IndexMap.mem_keys.mp hk
    rw [IndexMap.get?_eq_some.mpr hg, Option.getD_some]
    have hnodup := m.nodup
    obtain ⟨before, after, hentries⟩ := List.append_of_mem hg
    rw [hentries] at hnodup ⊢
    simp only [List.map_append, List.map_cons, List.nodup_append, List.nodup_cons, List.mem_map,
      not_exists, not_and, List.mem_cons] at hnodup
    have hid : ∀ l : List (κ × List α), (∀ e ∈ l, e.1 ≠ k) →
        l.map (fun e => if e.1 = k then (k, g ++ [a]) else e) = l := by
      intro l hl
      refine (List.map_congr_left ?_).trans (List.map_id l)
      exact fun e he => if_neg (hl e he)
    rw [List.map_append, List.map_cons, hid before, hid after, if_pos rfl]
    · simp only [List.map_append, List.map_cons, List.flatten_append, List.flatten_cons,
        List.append_assoc]
      exact (List.perm_append_comm.append_left g).append_left _
    · exact fun e he => hnodup.2.1.1 e he
    · exact fun e he => hnodup.2.2 _ ⟨e, he, rfl⟩ k (Or.inl rfl)
  · rename_i hk
    rw [IndexMap.get?_eq_none.mpr hk]
    simp

-- Grouping moves the items around and loses none.
theorem groups_perm {κ α : Type} [DecidableEq κ] (key : α → κ) (items : List α) :
    (groups key items).flatten.Perm items := by
  suffices h : ∀ (rest : List α) (m : IndexMap κ (List α)),
      ((rest.foldl (fun (m : IndexMap κ (List α)) a =>
        m.insert (key a) ((m.get? (key a)).getD [] ++ [a])) m).values.flatten).Perm
          (m.values.flatten ++ rest) from h items .empty
  intro rest
  induction rest with
  | nil => exact fun m => by simp
  | cons a rest ih =>
      intro m
      refine (ih _).trans ?_
      rw [List.append_cons]
      exact List.Perm.append_right rest (flatten_insert_perm m (key a) a)

-- A group holds items of one key.
theorem groups_key {κ α : Type} [DecidableEq κ] {key : α → κ} {items group : List α}
    (hg : group ∈ groups key items) : ∃ k, ∀ a ∈ group, key a = k := by
  suffices h : ∀ (rest : List α) (m : IndexMap κ (List α)),
      (∀ k g, (k, g) ∈ m.entries → ∀ a ∈ g, key a = k) →
      ∀ k g, (k, g) ∈ (rest.foldl (fun (m : IndexMap κ (List α)) a =>
        m.insert (key a) ((m.get? (key a)).getD [] ++ [a])) m).entries → ∀ a ∈ g, key a = k by
    obtain ⟨k, hk⟩ := IndexMap.mem_values.mp hg
    exact ⟨k, h items .empty (by simp) k group hk⟩
  intro rest
  induction rest with
  | nil => exact fun m hm => hm
  | cons b rest ih =>
      intro m hm
      refine ih _ ?_
      intro k g hkg a ha
      rcases IndexMap.mem_entries_insert.mp hkg with ⟨rfl, rfl⟩ | ⟨_, hkg⟩
      · rcases List.mem_append.mp ha with ha | ha
        · cases hget : m.get? (key b) with
          | none => simp [hget] at ha
          | some old =>
              exact hm _ old (IndexMap.get?_eq_some.mp hget) a (by simpa [hget] using ha)
        · rw [List.mem_singleton.mp ha]
      · exact hm k g hkg a ha

-- The join model a group asks for: two list fields, neither of them an owner.
def implicitJoin : List Side → Option ModelName
  | [a, b] =>
      if !a.isOwner && !b.isOwner && a.isList && b.isList then some (joinModelName a b) else none
  | _ => none

-- Two ends of one relation lie at each other's models.
def Faces : List Side → Prop
  | [a, b] => a.target = b.model ∧ b.target = a.model
  | _ => True

instance : DecidablePred Faces
  | [a, b] => inferInstanceAs (Decidable (a.target = b.model ∧ b.target = a.model))
  | [] | [_] | _ :: _ :: _ :: _ => isTrue trivial

theorem errors_of_extension {diags diags' : Diagnostics} (h : diags <+: diags')
    (hclean : Diagnostics.errors diags' = []) : Diagnostics.errors diags = [] := by
  obtain ⟨more, rfl⟩ := h
  rw [Diagnostics.errors_append, List.append_eq_nil_iff] at hclean
  exact hclean.1

theorem resolveImplicitManyToMany_diags (p : Pass) (a b : Side) :
    (resolveImplicitManyToMany p a b).diags = p.diags := by
  unfold resolveImplicitManyToMany
  dsimp only
  split <;> rfl

theorem pushBuilt_diags (p : Pass) (s : Side) (built : Option ResolvedRelation × Diagnostics) :
    (p.pushBuilt s built).diags = p.diags ++ built.2 := by
  unfold Pass.pushBuilt
  split <;> rfl

theorem extends_pushBuilt (p : Pass) (s : Side) (built : Option ResolvedRelation × Diagnostics) :
    Extends p.models (p.pushBuilt s built).models := by
  unfold Pass.pushBuilt
  split
  · rename_i r _
    exact extends_push (p.report built.2) r _
  · exact Extends.refl _

theorem relations_pushBuilt (p : Pass) (s : Side) (built : Option ResolvedRelation × Diagnostics) :
    p.relations ⊆ (p.pushBuilt s built).relations := by
  unfold Pass.pushBuilt
  split
  · exact List.subset_append_left _ _
  · exact List.Subset.refl _

theorem resolveGroup_diags (p : Pass) (group : List Side) :
    p.diags <+: (resolveGroup p group).diags := by
  unfold resolveGroup
  split
  · exact List.prefix_append _ _
  · exact List.prefix_append _ _
  · exact List.prefix_append _ _
  · split
    · exact resolveImplicitManyToMany_diags p _ _ ▸ List.prefix_rfl
    · exact List.prefix_append _ _
  · exact List.prefix_append _ _
  · dsimp only
    split <;> exact List.prefix_append _ _
  · exact List.prefix_append _ _
  · exact List.prefix_rfl

theorem resolveGroup_extends {p : Pass} {group : List Side}
    (hfresh : ∀ join ∈ implicitJoin group, join ∉ p.models.keys) :
    Extends p.models (resolveGroup p group).models ∧
      ∀ k ∈ (resolveGroup p group).models.keys, k ∈ p.models.keys ∨ k ∈ implicitJoin group := by
  have hsame : Extends p.models p.models ∧
      ∀ k ∈ p.models.keys, k ∈ p.models.keys ∨ k ∈ implicitJoin group :=
    ⟨Extends.refl _, fun _ hk => Or.inl hk⟩
  unfold resolveGroup
  split
  · exact hsame
  · exact hsame
  · exact hsame
  · rename_i a b hnone
    split
    · rename_i hlists
      have hjoin : implicitJoin [a, b] = some (joinModelName a b) := by
        simp only [List.filter_cons, List.filter_nil] at hnone
        cases ha : a.isOwner <;> cases hb : b.isOwner <;> simp_all [implicitJoin]
      rw [hjoin] at hfresh ⊢
      obtain ⟨hext, hkeys⟩ := resolveImplicitManyToMany_extends (hfresh _ rfl)
      exact ⟨hext, fun k hk => (hkeys k hk).imp id (fun h => congrArg some h.symm)⟩
    · exact hsame
  · exact hsame
  · dsimp only
    split
    · rename_i r _
      exact ⟨extends_push (p.report _) r _,
        fun k hk => Or.inl (by rw [keys_push] at hk; exact hk)⟩
    · exact hsame
  · exact hsame
  · exact hsame

theorem Pass.Resolving.report {p : Pass} {pending : List Place} (h : p.Resolving pending)
    (d : Diagnostics) : (p.report d).Resolving pending :=
  ⟨h.nodup, h.pending_iff, h.marks, h.owned, h.wired⟩

theorem Pass.Resolving.perm {p : Pass} {pending pending' : List Place} (h : p.Resolving pending)
    (hperm : pending.Perm pending') : p.Resolving pending' :=
  ⟨hperm.nodup_iff.mp h.nodup, fun e => (h.pending_iff e).trans hperm.mem_iff, h.marks, h.owned,
    h.wired⟩

-- A pair of sides of which one owns the key: both fields lead to its relation.
theorem Pass.Resolving.pushPair {p : Pass} {owner back : Side} {rest : List Place}
    (h : p.Resolving (owner.place :: back.place :: rest)) (htarget : owner.target ∈ p.models.keys)
    (hface : owner.target = back.model) {r : ResolvedRelation}
    (hr : (buildRelation owner (some back) p.models).1 = some r)
    (hclean : Diagnostics.errors (buildRelation owner (some back) p.models).2 = []) :
    ((p.report (buildRelation owner (some back) p.models).2).push r
      [owner.place, back.place]).Resolving rest := by
  obtain ⟨ref, href, _⟩ := (h.pending_iff owner.place).mpr (by simp)
  obtain ⟨r', hr', hbuilt⟩ := buildRelation_built href htarget hclean
  rw [hr] at hr'
  cases hr'
  have hapart : owner.place ≠ back.place := by
    have hnodup := h.nodup
    simp only [List.nodup_cons, List.mem_cons, not_or] at hnodup
    exact hnodup.1.1
  refine Pass.Resolving.push (h.report _) (by simp [hbuilt.place]) ?_ (hbuilt.wired href ?_)
  · intro e he
    rcases List.mem_cons.mp he with rfl | he
    · exact Or.inl hbuilt.place.symm
    · refine Or.inr ?_
      rw [List.mem_singleton.mp he, ResolvedRelation.targetPlace, hbuilt.targetField,
        hbuilt.target, hface]
      rfl
  · intro b hb heq
    cases hb
    exact hapart (heq.symm.trans (by rw [hface]; rfl))

theorem resolveGroup_resolving {p : Pass} {group : List Side} {rest : List Place}
    (h : p.Resolving (group.map Side.place ++ rest))
    (htarget : ∀ s ∈ group, s.target ∈ p.models.keys) (hface : Faces group)
    (hkey : (implicitJoin group).isSome → ∀ s ∈ group, ∃ m n f,
      implicitKey p.models s.model = some (m, n, f) ∧ f.hasColumn = true)
    (hfresh : ∀ join ∈ implicitJoin group, join ∉ p.models.keys)
    (hclean : Diagnostics.errors (resolveGroup p group).diags = []) :
    (resolveGroup p group).Resolving rest := by
  have hbad : ∀ (d : SchemaError), d.isWarning = false →
      Diagnostics.errors (p.report [d]).diags = [] → False := by
    intro d hd herr
    rw [Pass.report, Diagnostics.errors_append, List.append_eq_nil_iff] at herr
    have := warning_of_errors herr.2 (List.mem_singleton.mpr rfl)
    simp [hd] at this
  revert hclean
  unfold resolveGroup
  split
  · exact fun hc => (hbad _ rfl hc).elim
  · exact fun hc => (hbad _ rfl hc).elim
  · exact fun hc => (hbad _ rfl hc).elim
  · rename_i a b hnone
    split
    · rename_i hlists
      intro hclean
      have hjoin : implicitJoin [a, b] = some (joinModelName a b) := by
        simp only [List.filter_cons, List.filter_nil] at hnone
        cases ha : a.isOwner <;> cases hb : b.isOwner <;> simp_all [implicitJoin]
      obtain ⟨hab, hba⟩ := hface
      refine resolveImplicitManyToMany_resolving h hab hba ?_ (hfresh _ hjoin)
      rintro s (rfl | rfl)
      · exact hkey (by simp [hjoin]) s (by simp)
      · exact hkey (by simp [hjoin]) s (by simp)
    · exact fun hc => (hbad _ rfl hc).elim
  · exact fun hc => (hbad _ rfl hc).elim
  · rename_i a b owner tail hsingle howner
    obtain ⟨hab, hba⟩ := hface
    -- The one owner is the first of the two or the second.
    have hsides : (a.isOwner = true ∧ owner = a) ∨ (a.isOwner = false ∧ owner = b) := by
      simp only [List.filter_cons, List.filter_nil] at howner
      cases ha : a.isOwner <;> cases hb : b.isOwner <;> simp_all
    dsimp only
    split
    · rename_i r hr
      intro hclean
      rw [Pass.push, Pass.report, Diagnostics.errors_append, List.append_eq_nil_iff] at hclean
      rcases hsides with ⟨ha, rfl⟩ | ⟨ha, rfl⟩
      · simp only [ha, if_true] at hr hclean ⊢
        exact Pass.Resolving.pushPair h (htarget owner (by simp)) hab hr hclean.2
      · simp only [ha] at hr hclean ⊢
        exact Pass.Resolving.pushPair (h.perm (List.Perm.swap _ _ _)) (htarget owner (by simp)) hba
          hr hclean.2
    · rename_i hr
      intro hclean
      rw [Pass.report, Diagnostics.errors_append, List.append_eq_nil_iff] at hclean
      obtain ⟨ref, href, _⟩ := (h.pending_iff owner.place).mpr (by rcases hsides with ⟨_, rfl⟩ | ⟨_, rfl⟩ <;> simp)
      obtain ⟨r, hr', _⟩ := buildRelation_built href
        (htarget owner (by rcases hsides with ⟨_, rfl⟩ | ⟨_, rfl⟩ <;> simp)) hclean.2
      rw [hr] at hr'
      cases hr'
  · exact fun hc => (hbad _ rfl hc).elim
  · exact fun _ => h

theorem clean_pushBuilt {p : Pass} {s : Side} {built : Option ResolvedRelation × Diagnostics}
    (h : Diagnostics.errors (p.pushBuilt s built).diags = []) :
    Diagnostics.errors p.diags = [] ∧ Diagnostics.errors built.2 = [] := by
  rwa [pushBuilt_diags, Diagnostics.errors_append, List.append_eq_nil_iff] at h

theorem pushBuilt_some {p : Pass} {s : Side} {built : Option ResolvedRelation × Diagnostics}
    {r : ResolvedRelation} (h : built.1 = some r) :
    p.pushBuilt s built = (p.report built.2).push r [s.place] := by
  simp [Pass.pushBuilt, h, Side.place]

-- A key of a join model gets its own relation.
theorem Pass.Resolving.pushKey {p : Pass} {fk : Side} {back : Option Side} {rest : List Place}
    (h : p.Resolving (fk.place :: rest)) (htarget : fk.target ∈ p.models.keys)
    (hback : ∀ b, back = some b → b.model = fk.target ∧ b.place ≠ fk.place)
    (hclean : Diagnostics.errors (buildRelation fk back p.models).2 = []) :
    (p.pushBuilt fk (buildRelation fk back p.models)).Resolving rest ∧
      Keyholder (p.pushBuilt fk (buildRelation fk back p.models)).models
        (p.pushBuilt fk (buildRelation fk back p.models)).relations fk := by
  obtain ⟨ref, href, _⟩ := (h.pending_iff fk.place).mpr (by simp)
  obtain ⟨r, hr, hbuilt⟩ := buildRelation_built href htarget hclean
  rw [pushBuilt_some hr]
  refine ⟨(h.report _).pushOwned hbuilt.place (hbuilt.wired href ?_), ?_⟩
  · intro b hb heq
    obtain ⟨hmodel, hne⟩ := hback b hb
    exact hne (by rw [← heq, ← hmodel]; rfl)
  · have hext := extends_push (p.report (buildRelation fk back p.models).2) r [fk.place]
    obtain ⟨model, hmodel, hcols⟩ := hbuilt.columns
    refine Keyholder.mono hext (List.Subset.refl _) ?_
    exact ⟨r, List.mem_append_right _ (List.mem_singleton.mpr rfl), hbuilt.kind, hbuilt.place,
      hbuilt.target, model, ref, hmodel, href, hcols⟩

-- A list field gets its many-to-many once both keys have their relations.
theorem Pass.Resolving.pushList {p : Pass} {a b : Side} {fks : List Side} {join : ModelName}
    {rest : List Place} (h : p.Resolving (a.place :: rest)) (hjoin : a.joinModel = some join)
    (hkeys : join ∈ p.models.keys)
    (hfks : ∀ fk ∈ fks, fk.model = join ∧ Keyholder p.models p.relations fk)
    (hapart : a.place ≠ b.place)
    (hclean : Diagnostics.errors (buildManyToManyRelation a b fks p.models).2 = []) :
    (p.pushBuilt a (buildManyToManyRelation a b fks p.models)).Resolving rest := by
  obtain ⟨r, hr, hplace, hwired⟩ := buildManyToManyRelation_wired hjoin hkeys hfks hapart hclean
  rw [pushBuilt_some hr]
  exact (h.report _).pushOwned hplace hwired

-- The four steps over a join model's group: its keys f and g, then its lists.
def resolveJoin (p : Pass) (a b f g : Side) : Pass :=
  let p := p.pushBuilt f (buildRelation f ([a, b].find? (fun s => s.model = f.target)) p.models)
  let p := p.pushBuilt g (buildRelation g ([a, b].find? (fun s => s.model = g.target)) p.models)
  let p := p.pushBuilt a (buildManyToManyRelation a b [f, g] p.models)
  p.pushBuilt b (buildManyToManyRelation b a [f, g] p.models)

theorem resolveThroughGroup_cases (p : Pass) (group : List Side) :
    (group = [] ∧ resolveThroughGroup p group = p) ∨
    (∃ d : SchemaError, d.isWarning = false ∧ resolveThroughGroup p group = p.report [d]) ∨
    ∃ a b f g, group.filter (fun s => !s.isOwner) = [a, b] ∧ group.filter Side.isOwner = [f, g] ∧
      a.model = b.target ∧ b.model = a.target ∧
      resolveThroughGroup p group = resolveJoin p a b f g := by
  unfold resolveThroughGroup
  dsimp only
  generalize group.filter (fun s => !s.isOwner) = lists
  generalize group.filter Side.isOwner = fks
  split
  · rename_i a b f g
    split
    · exact Or.inr (Or.inl ⟨_, rfl, rfl⟩)
    · rename_i hface
      rw [not_or, not_ne_iff, not_ne_iff] at hface
      exact Or.inr (Or.inr ⟨a, b, f, g, rfl, rfl, hface.1, hface.2, rfl⟩)
  · exact Or.inr (Or.inl ⟨_, rfl, rfl⟩)
  · exact Or.inl ⟨rfl, rfl⟩

theorem resolveThroughGroup_diags (p : Pass) (group : List Side) :
    p.diags <+: (resolveThroughGroup p group).diags := by
  rcases resolveThroughGroup_cases p group with ⟨_, h⟩ | ⟨d, _, h⟩ | ⟨a, b, f, g, _, _, _, _, h⟩
  · exact (congrArg Pass.diags h).symm ▸ List.prefix_rfl
  · rw [h]
    exact List.prefix_append _ _
  · simp only [h, resolveJoin, pushBuilt_diags, List.append_assoc]
    exact List.prefix_append _ _

theorem resolveThroughGroup_extends (p : Pass) (group : List Side) :
    Extends p.models (resolveThroughGroup p group).models := by
  rcases resolveThroughGroup_cases p group with ⟨_, h⟩ | ⟨d, _, h⟩ | ⟨a, b, f, g, _, _, _, _, h⟩
  · rw [h]
    exact Extends.refl _
  · rw [h]
    exact Extends.refl _
  · rw [h]
    exact ((extends_pushBuilt _ _ _).trans (extends_pushBuilt _ _ _)).trans
      ((extends_pushBuilt _ _ _).trans (extends_pushBuilt _ _ _))

theorem resolveJoin_resolving {p : Pass} {a b f g : Side} {join : ModelName} {rest : List Place}
    (h : p.Resolving (f.place :: g.place :: a.place :: b.place :: rest))
    (htarget : ∀ s ∈ [f, g], s.target ∈ p.models.keys) (hlists : ∀ s ∈ [a, b], s.joinModel = some join)
    (hfks : ∀ s ∈ [f, g], s.model = join)
    (hclean : Diagnostics.errors (resolveJoin p a b f g).diags = []) :
    (resolveJoin p a b f g).Resolving rest := by
  have hnodup := h.nodup
  simp only [List.nodup_cons, List.mem_cons, not_or] at hnodup
  obtain ⟨⟨hfg, hfa, hfb, _⟩, ⟨hga, hgb, _⟩, ⟨hab, _⟩, _⟩ := hnodup
  have hback : ∀ fk : Side, fk.place ≠ a.place → fk.place ≠ b.place → ∀ back,
      [a, b].find? (fun s => s.model = fk.target) = some back →
      back.model = fk.target ∧ back.place ≠ fk.place := by
    intro fk hna hnb back hfind
    refine ⟨by simpa using List.find?_some hfind, ?_⟩
    rcases List.mem_cons.mp (List.mem_of_find?_eq_some hfind) with rfl | hmem
    · exact fun heq => hna heq.symm
    · rw [List.mem_singleton.mp hmem]
      exact fun heq => hnb heq.symm
  unfold resolveJoin at hclean ⊢
  dsimp only at hclean ⊢
  obtain ⟨hclean3, hcleanB⟩ := clean_pushBuilt hclean
  obtain ⟨hclean2, hcleanA⟩ := clean_pushBuilt hclean3
  obtain ⟨hclean1, hcleanG⟩ := clean_pushBuilt hclean2
  obtain ⟨_, hcleanF⟩ := clean_pushBuilt hclean1
  obtain ⟨h1, hf⟩ := h.pushKey (htarget f (by simp)) (hback f hfa hfb) hcleanF
  have he1 := extends_pushBuilt p f
    (buildRelation f ([a, b].find? (fun s => s.model = f.target)) p.models)
  have hjoin : join ∈ p.models.keys := by
    obtain ⟨ref, href, _⟩ := (h.pending_iff f.place).mpr (by simp)
    exact hfks f (by simp) ▸ mem_keys_of_refAt href
  generalize p.pushBuilt f _ = p1 at *
  obtain ⟨h2, hg⟩ := h1.pushKey (he1.keys (htarget g (by simp))) (hback g hga hgb) hcleanG
  have he2 := extends_pushBuilt p1 g
    (buildRelation g ([a, b].find? (fun s => s.model = g.target)) p1.models)
  have hr2 := relations_pushBuilt p1 g
    (buildRelation g ([a, b].find? (fun s => s.model = g.target)) p1.models)
  generalize p1.pushBuilt g _ = p2 at *
  have hkeys2 : ∀ fk ∈ [f, g], fk.model = join ∧ Keyholder p2.models p2.relations fk := by
    intro fk hfk
    refine ⟨hfks fk hfk, ?_⟩
    rcases List.mem_cons.mp hfk with rfl | hfk
    · exact hf.mono he2 hr2
    · exact List.mem_singleton.mp hfk ▸ hg
  have hjoin2 : join ∈ p2.models.keys := he2.keys (he1.keys hjoin)
  have h3 := h2.pushList (hlists a (by simp)) hjoin2 hkeys2 hab hcleanA
  have he3 := extends_pushBuilt p2 a (buildManyToManyRelation a b [f, g] p2.models)
  have hr3 := relations_pushBuilt p2 a (buildManyToManyRelation a b [f, g] p2.models)
  generalize p2.pushBuilt a _ = p3 at *
  have hkeys3 : ∀ fk ∈ [f, g], fk.model = join ∧ Keyholder p3.models p3.relations fk :=
    fun fk hfk => ⟨hfks fk hfk, (hkeys2 fk hfk).2.mono he3 hr3⟩
  exact h3.pushList (hlists b (by simp)) (he3.keys hjoin2) hkeys3 (fun heq => hab heq.symm) hcleanB

theorem resolveThroughGroup_resolving {p : Pass} {group : List Side} {join : ModelName}
    {rest : List Place} (h : p.Resolving (group.map Side.place ++ rest))
    (htarget : ∀ s ∈ group, s.target ∈ p.models.keys)
    (hjoin : ∀ s ∈ group, s.joinModel = some join)
    (howner : ∀ s ∈ group, s.isOwner = true → s.joinModel = some s.model)
    (hclean : Diagnostics.errors (resolveThroughGroup p group).diags = []) :
    (resolveThroughGroup p group).Resolving rest := by
  rcases resolveThroughGroup_cases p group with
    ⟨rfl, heq⟩ | ⟨d, hd, heq⟩ | ⟨a, b, f, g, hlists, hfks, _, _, heq⟩
  · rw [heq]
    exact h
  · rw [heq, Pass.report, Diagnostics.errors_append, List.append_eq_nil_iff] at hclean
    have := warning_of_errors hclean.2 (List.mem_singleton.mpr rfl)
    simp [hd] at this
  · rw [heq] at hclean ⊢
    have hperm : group.Perm [f, g, a, b] := by
      have hsplit := List.filter_append_perm Side.isOwner group
      rw [hlists, hfks] at hsplit
      exact hsplit.symm
    have hlist : ∀ s ∈ [a, b], s ∈ group := fun s hs => (List.mem_filter.mp (hlists ▸ hs)).1
    have hfk : ∀ s ∈ [f, g], s ∈ group ∧ s.isOwner = true :=
      fun s hs => List.mem_filter.mp (hfks ▸ hs)
    refine resolveJoin_resolving (h.perm (List.Perm.append_right rest (hperm.map Side.place)))
      (fun s hs => htarget s (hfk s hs).1) (fun s hs => hjoin s (hlist s hs)) ?_ hclean
    intro s hs
    obtain ⟨hmem, ho⟩ := hfk s hs
    exact Option.some.inj ((howner s hmem ho).symm.trans (hjoin s hmem))

end Ruprizzle.Lower
