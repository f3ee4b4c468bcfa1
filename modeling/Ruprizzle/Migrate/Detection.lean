import Ruprizzle.Migrate.Components
import Ruprizzle.Migrate.Plan
import Ruprizzle.Parser.Build

namespace Ruprizzle.Cycle

open Reachability

-- What the planner reports of the cycles of a schema, by the edges of its relations.

variable {schema : Schema} {a b m : ModelName}

def RelationEdge (schema : Schema) (a b : ModelName) : Prop :=
  ∃ r ∈ schema.relations, r.owner = a ∧ r.target = b

-- A many-to-many relation has no foreign key of its own.
def FkEdge (schema : Schema) (a b : ModelName) : Prop :=
  ∃ r ∈ schema.relations, r.kind ≠ .manyToMany ∧ r.owner = a ∧ r.target = b

theorem successors_insert {graph : Graph} {v w : ModelName} {targets : List ModelName} :
    successors (graph.insert v targets) w = if w = v then targets else successors graph w := by
  unfold successors
  rw [IndexMap.get?_insert]
  by_cases h : w = v
  · rw [if_pos h, if_pos h]
    rfl
  · rw [if_neg h, if_neg h]

theorem edge_relations {graph : Graph} {relations : List ResolvedRelation} :
    Edge (relations.foldl (fun (g : Graph) r =>
      g.insert r.owner ((g.get? r.owner).getD [] ++ [r.target])) graph) a b ↔
      Edge graph a b ∨ ∃ r ∈ relations, r.owner = a ∧ r.target = b := by
  induction relations generalizing graph with
  | nil => simp
  | cons r rest ih =>
      rw [List.foldl_cons, ih]
      have hhead : Edge (graph.insert r.owner ((graph.get? r.owner).getD [] ++ [r.target])) a b ↔
          Edge graph a b ∨ r.owner = a ∧ r.target = b := by
        unfold Edge
        rw [successors_insert]
        by_cases h : a = r.owner
        · rw [if_pos h, List.mem_append, List.mem_singleton, h]
          exact or_congr Iff.rfl ⟨fun hb => ⟨rfl, hb.symm⟩, fun hb => hb.2.symm⟩
        · rw [if_neg h]
          exact (or_iff_left fun hr => h hr.1.symm).symm
      rw [hhead, or_assoc]
      simp only [List.mem_cons, exists_eq_or_imp]

theorem edge_models {graph : Graph} {names : List ModelName} :
    Edge (names.foldl (fun (g : Graph) name =>
      if g.contains name then g else g.insert name []) graph) a b ↔ Edge graph a b := by
  induction names generalizing graph with
  | nil => rfl
  | cons name rest ih =>
      rw [List.foldl_cons, ih]
      by_cases h : name ∈ graph.keys
      · rw [if_pos (IndexMap.contains_iff.mpr h)]
      · rw [if_neg (by simpa using h)]
        unfold Edge
        rw [successors_insert]
        by_cases hname : a = name
        · rw [if_pos hname, hname, successors_of_not_mem h]
        · rw [if_neg hname]

theorem edge_fkGraph : Edge (fkGraph schema) a b ↔ RelationEdge schema a b := by
  unfold fkGraph
  rw [edge_models, edge_relations]
  have hempty : ¬ Edge IndexMap.empty a b := List.not_mem_nil
  exact or_iff_right hempty

theorem edge_fkGraph_eq : Edge (fkGraph schema) = RelationEdge schema := by
  funext a b
  exact propext edge_fkGraph

theorem keys_relations {graph : Graph} {relations : List ResolvedRelation} :
    m ∈ (relations.foldl (fun (g : Graph) r =>
      g.insert r.owner ((g.get? r.owner).getD [] ++ [r.target])) graph).keys ↔
      m ∈ graph.keys ∨ ∃ r ∈ relations, r.owner = m := by
  induction relations generalizing graph with
  | nil => simp
  | cons r rest ih =>
      rw [List.foldl_cons, ih, IndexMap.mem_keys_insert]
      simp only [List.mem_cons, exists_eq_or_imp]
      rw [eq_comm, or_comm (a := r.owner = m), or_assoc]

theorem keys_models {graph : Graph} {names : List ModelName} :
    m ∈ (names.foldl (fun (g : Graph) name =>
      if g.contains name then g else g.insert name []) graph).keys ↔ m ∈ graph.keys ∨ m ∈ names := by
  induction names generalizing graph with
  | nil => simp
  | cons name rest ih =>
      rw [List.foldl_cons, ih, List.mem_cons]
      by_cases h : name ∈ graph.keys
      · rw [if_pos (IndexMap.contains_iff.mpr h)]
        constructor
        · intro hor
          exact hor.imp_right Or.inr
        · intro hor
          rcases hor with hm | rfl | hm
          · exact Or.inl hm
          · exact Or.inl h
          · exact Or.inr hm
      · rw [if_neg (by simpa using h), IndexMap.mem_keys_insert]
        tauto

-- The models of the schema, and what its relations mention.
def Mentioned (schema : Schema) (m : ModelName) : Prop :=
  m ∈ schema.models.keys ∨ ∃ r ∈ schema.relations, r.owner = m ∨ r.target = m

theorem known_fkGraph : Known (fkGraph schema) m ↔ Mentioned schema m := by
  have hkeys : m ∈ (fkGraph schema).keys ↔ m ∈ schema.models.keys ∨ ∃ r ∈ schema.relations, r.owner = m := by
    unfold fkGraph
    have hempty : m ∉ (IndexMap.empty : Graph).keys := List.not_mem_nil
    rw [keys_models, keys_relations, or_iff_right hempty, or_comm]
  unfold Known Mentioned
  rw [hkeys]
  simp only [edge_fkGraph, RelationEdge]
  constructor
  · intro hor
    rcases hor with (hm | ⟨r, hr, ho⟩) | ⟨v, r, hr, _, ht⟩
    · exact Or.inl hm
    · exact Or.inr ⟨r, hr, Or.inl ho⟩
    · exact Or.inr ⟨r, hr, Or.inr ht⟩
  · intro hor
    rcases hor with hm | ⟨r, hr, ho | ht⟩
    · exact Or.inl (Or.inl hm)
    · exact Or.inl (Or.inr ⟨r, hr, ho⟩)
    · exact Or.inr ⟨r.owner, r, hr, rfl, ht⟩

theorem tarjanScc_fkGraph {order : HashOrder} {sccs : List (List ModelName)}
    (h : tarjanScc order (fkGraph schema) = some sccs) :
    sccs.flatten.Nodup ∧ (∀ m, m ∈ sccs.flatten ↔ Mentioned schema m) ∧
      ∀ scc ∈ sccs, IsClass (RelationEdge schema) scc := by
  obtain ⟨hnodup, hknown, hclasses⟩ := tarjanScc_classes h
  rw [edge_fkGraph_eq] at hclasses
  exact ⟨hnodup, fun m => (hknown m).trans known_fkGraph, hclasses⟩

-- The cycles are the components whose members are on one.
theorem fkCycles_spec {order : HashOrder} {cycles : List (List ModelName)}
    (h : fkCycles order schema = some cycles) :
    ∃ sccs, tarjanScc order (fkGraph schema) = some sccs ∧
      ∀ scc, scc ∈ cycles ↔ scc ∈ sccs ∧ ∀ m ∈ scc, OnCycle (RelationEdge schema) m := by
  unfold fkCycles at h
  obtain ⟨sccs, hsccs, hloop⟩ := Option.bind_eq_some_iff.mp h
  obtain ⟨hnodup, _, hclasses⟩ := tarjanScc_fkGraph hsccs
  refine ⟨sccs, hsccs, ?_⟩
  have hempty : ∀ scc, scc ∈ ([] : List (List ModelName)) ↔
      scc ∈ ([] : List (List ModelName)) ∧ ∀ m ∈ scc, OnCycle (RelationEdge schema) m := by simp
  have hdone := Run.foldlM_processed
    (P := fun done cycles => ∀ scc, scc ∈ cycles ↔ scc ∈ done ∧ ∀ m ∈ scc, OnCycle (RelationEdge schema) m)
    hempty hloop ?_
  · exact hdone
  · intro done scc cycles cycles' hscc hcycles hstep other
    have hclass := hclasses scc hscc
    have hkept : cycles' = cycles ++ [scc] → (∀ m ∈ scc, OnCycle (RelationEdge schema) m) →
        (other ∈ cycles' ↔ other ∈ done ++ [scc] ∧ ∀ m ∈ other, OnCycle (RelationEdge schema) m) := by
      intro heq hall
      rw [heq, List.mem_append, List.mem_append, hcycles other, List.mem_singleton]
      constructor
      · intro hor
        rcases hor with ⟨hin, hon⟩ | rfl
        · exact ⟨Or.inl hin, hon⟩
        · exact ⟨Or.inr rfl, hall⟩
      · intro ⟨hor, hon⟩
        exact hor.imp_left fun hin => ⟨hin, hon⟩
    have hleft : cycles' = cycles → (∃ m ∈ scc, ¬ OnCycle (RelationEdge schema) m) →
        (other ∈ cycles' ↔ other ∈ done ++ [scc] ∧ ∀ m ∈ other, OnCycle (RelationEdge schema) m) := by
      intro heq hnot
      obtain ⟨m, hm, hoff⟩ := hnot
      rw [heq, hcycles other, List.mem_append, List.mem_singleton]
      constructor
      · intro ⟨hin, hon⟩
        exact ⟨Or.inl hin, hon⟩
      · intro ⟨hor, hon⟩
        refine ⟨hor.resolve_right fun hother => ?_, hon⟩
        exact hoff (hon m (hother ▸ hm))
    match scc, hclass with
    | [], hclass => exact absurd rfl hclass.filled
    | [model], hclass =>
        have hiff : OnCycle (RelationEdge schema) model ↔ Edge (fkGraph schema) model model := by
          rw [hclass.onCycle_iff List.mem_cons_self, edge_fkGraph]
          refine or_iff_right ?_
          intro ⟨other, hother, hne⟩
          exact hne (List.mem_singleton.mp hother)
        have hnext := Option.some.inj hstep
        by_cases hself : Edge (fkGraph schema) model model
        · rw [if_pos (List.contains_iff_mem.mpr hself)] at hnext
          refine hkept hnext.symm fun m hm => ?_
          rw [List.mem_singleton.mp hm]
          exact hiff.mpr hself
        · rw [if_neg (fun hin => hself (List.contains_iff_mem.mp hin))] at hnext
          exact hleft hnext.symm ⟨model, List.mem_cons_self, fun hon => hself (hiff.mp hon)⟩
    | first :: second :: rest, hclass =>
        have hne : first ≠ second := by
          have honce := (List.nodup_flatten.mp hnodup).1 _ hscc
          exact fun heq => (List.nodup_cons.mp honce).1 (heq ▸ List.mem_cons_self)
        refine hkept (Option.some.inj hstep).symm fun m hm => ?_
        rw [hclass.onCycle_iff hm]
        by_cases hm' : m = first
        · exact Or.inl ⟨second, List.mem_cons_of_mem _ List.mem_cons_self, fun heq => hne (hm'.symm.trans heq.symm)⟩
        · exact Or.inl ⟨first, List.mem_cons_self, Ne.symm hm'⟩

theorem mentioned_of_onCycle (h : OnCycle (RelationEdge schema) m) : Mentioned schema m := by
  obtain ⟨v, ⟨r, hr, howner, _⟩, _⟩ := Relation.TransGen.head'_iff.mp h
  exact Or.inr ⟨r, hr, Or.inl howner⟩

theorem mem_fkCycles {order : HashOrder} {cycles : List (List ModelName)}
    (h : fkCycles order schema = some cycles) :
    m ∈ cycles.flatten ↔ OnCycle (RelationEdge schema) m := by
  obtain ⟨sccs, hsccs, hcycles⟩ := fkCycles_spec h
  obtain ⟨_, hmentioned, hclasses⟩ := tarjanScc_fkGraph hsccs
  rw [List.mem_flatten]
  constructor
  · intro ⟨scc, hscc, hm⟩
    exact ((hcycles scc).mp hscc).2 m hm
  · intro hon
    obtain ⟨scc, hscc, hm⟩ := List.mem_flatten.mp ((hmentioned m).mpr (mentioned_of_onCycle hon))
    refine ⟨scc, (hcycles scc).mpr ⟨hscc, fun w hw => ?_⟩, hm⟩
    exact hon.of_mutual (((hclasses scc hscc).members m hm w).mp hw)

theorem sameScc_iff {order : HashOrder} {cycles : List (List ModelName)}
    (h : fkCycles order schema = some cycles) :
    sameScc cycles a b = true ↔ OnCycle (RelationEdge schema) a ∧ Mutual (RelationEdge schema) a b := by
  obtain ⟨sccs, hsccs, hcycles⟩ := fkCycles_spec h
  obtain ⟨_, _, hclasses⟩ := tarjanScc_fkGraph hsccs
  unfold sameScc
  simp only [List.any_eq_true, Bool.and_eq_true, List.contains_iff_mem]
  constructor
  · intro ⟨scc, hscc, ha, hb⟩
    obtain ⟨hin, hon⟩ := (hcycles scc).mp hscc
    exact ⟨hon a ha, ((hclasses scc hin).members a ha b).mp hb⟩
  · intro ⟨hon, hmutual⟩
    obtain ⟨scc, hscc, ha⟩ := List.mem_flatten.mp ((mem_fkCycles h).mpr hon)
    exact ⟨scc, hscc, ha, ((hclasses scc ((hcycles scc).mp hscc).1).members a ha b).mpr hmutual⟩

-- A change is matched against the foreign keys of cycles by names: of a model on a
-- cycle, of the relation field or a column of such a key, or of its relation.

def NamedBy (keys : ResolvedRelation → Prop) (model : ModelName) (name : String) : Prop :=
  ∃ r, keys r ∧ r.owner = model ∧ (name = r.ownerField.str ∨ name ∈ r.ownerCols)

def ColumnOf (keys : ResolvedRelation → Prop) (model : ModelName) (name : FieldName) (column : String) :
    Prop := NamedBy keys model name.str ∨ NamedBy keys model column

def Touches (models : ModelName → Prop) (keys : ResolvedRelation → Prop) : Change → Prop
  | .createModel m => models m.name
  | .dropModel m _ => models m
  | .renameModel fromName toName _ => models fromName ∨ models toName
  | .addColumn model field => ColumnOf keys model field.name field.column
  | .alterColumn model fromField toField _ =>
      ColumnOf keys model fromField.name fromField.column ∨ ColumnOf keys model toField.name toField.column
  | .dropColumn model column => NamedBy keys model column
  | .renameColumn model fromName toName fromColumn toColumn =>
      ColumnOf keys model fromName fromColumn ∨ ColumnOf keys model toName toColumn
  | .addForeignKey _ r | .dropForeignKey _ r => ∃ q, keys q ∧ q.name = r.name
  | _ => False

section Touches

variable {models models' : ModelName → Prop} {keys keys' : ResolvedRelation → Prop} {change : Change}

theorem NamedBy.mono (hkeys : ∀ r, keys r → keys' r) {name : String} (h : NamedBy keys m name) :
    NamedBy keys' m name := by
  obtain ⟨r, hr, hrest⟩ := h
  exact ⟨r, hkeys r hr, hrest⟩

theorem ColumnOf.mono (hkeys : ∀ r, keys r → keys' r) {name : FieldName} {column : String}
    (h : ColumnOf keys m name column) : ColumnOf keys' m name column :=
  h.imp (NamedBy.mono hkeys) (NamedBy.mono hkeys)

theorem Touches.mono (hmodels : ∀ m, models m → models' m) (hkeys : ∀ r, keys r → keys' r)
    (h : Touches models keys change) : Touches models' keys' change := by
  cases change with
  | createModel m => exact hmodels _ h
  | dropModel m _ => exact hmodels _ h
  | renameModel fromName toName _ => exact Or.imp (hmodels _) (hmodels _) h
  | addColumn model field => exact ColumnOf.mono hkeys h
  | alterColumn model fromField toField _ => exact Or.imp (ColumnOf.mono hkeys) (ColumnOf.mono hkeys) h
  | dropColumn model column => exact NamedBy.mono hkeys h
  | renameColumn model fromName toName fromColumn toColumn =>
      exact Or.imp (ColumnOf.mono hkeys) (ColumnOf.mono hkeys) h
  | addForeignKey _ r | dropForeignKey _ r =>
      obtain ⟨q, hq, hname⟩ := h
      exact ⟨q, hkeys q hq, hname⟩
  | _ => exact h

theorem Touches.on_cycle (hon : ∀ r, keys r → models r.owner) (h : Touches models keys change) :
    ∃ m, models m := by
  have hnamed : ∀ {m name}, NamedBy keys m name → ∃ m, models m := by
    intro m name ⟨r, hr, _⟩
    exact ⟨r.owner, hon r hr⟩
  have hcolumn : ∀ {m name column}, ColumnOf keys m name column → ∃ m, models m :=
    fun h => h.elim hnamed hnamed
  cases change with
  | createModel m => exact ⟨_, h⟩
  | dropModel m _ => exact ⟨_, h⟩
  | renameModel fromName toName _ => exact h.elim (fun h => ⟨_, h⟩) fun h => ⟨_, h⟩
  | addColumn model field => exact hcolumn h
  | alterColumn model fromField toField _ => exact h.elim hcolumn hcolumn
  | dropColumn model column => exact hnamed h
  | renameColumn model fromName toName fromColumn toColumn => exact h.elim hcolumn hcolumn
  | addForeignKey _ r | dropForeignKey _ r =>
      obtain ⟨q, hq, _⟩ := h
      exact ⟨q.owner, hon q hq⟩
  | _ => exact absurd h id

variable {cycle : CycleInfo} (hmodels : ∀ m, m ∈ cycle.models ↔ models m)
  (hfields : ∀ m name, (m, name) ∈ cycle.fields ↔ NamedBy keys m name)
  (hon : ∀ r, keys r → models r.owner)

include hmodels hfields hon in
theorem CycleInfo.touches_iff {name : FieldName} {column : String} :
    cycle.touches m name column = true ↔ ColumnOf keys m name column := by
  unfold CycleInfo.touches ColumnOf
  rw [Bool.and_eq_true, Bool.or_eq_true, List.contains_iff_mem, List.contains_iff_mem, List.contains_iff_mem,
    hmodels, hfields, hfields]
  refine and_iff_right_of_imp fun h => ?_
  rcases h with ⟨r, hr, rfl, _⟩ | ⟨r, hr, rfl, _⟩
  · exact hon r hr
  · exact hon r hr

include hmodels hfields hon in
theorem CycleInfo.affectedBy_iff (hrelations : ∀ name, name ∈ cycle.relations ↔ ∃ q, keys q ∧ q.name = name) :
    cycle.affectedBy change = true ↔ Touches models keys change := by
  have htouches : ∀ m name column, cycle.touches m name column = true ↔ ColumnOf keys m name column :=
    fun _ _ _ => CycleInfo.touches_iff hmodels hfields hon
  cases change with
  | createModel m => exact List.contains_iff_mem.trans (hmodels _)
  | dropModel m _ => exact List.contains_iff_mem.trans (hmodels _)
  | renameModel fromName toName _ =>
      unfold CycleInfo.affectedBy Touches
      rw [Bool.or_eq_true, List.contains_iff_mem, List.contains_iff_mem, hmodels, hmodels]
  | addColumn model field => exact htouches _ _ _
  | alterColumn model fromField toField _ =>
      unfold CycleInfo.affectedBy Touches
      rw [Bool.or_eq_true, htouches, htouches]
  | dropColumn model column =>
      unfold CycleInfo.affectedBy Touches
      rw [Bool.and_eq_true, List.contains_iff_mem, List.contains_iff_mem, hmodels, hfields]
      refine and_iff_right_of_imp fun h => ?_
      obtain ⟨r, hr, rfl, _⟩ := h
      exact hon r hr
  | renameColumn model fromName toName fromColumn toColumn =>
      unfold CycleInfo.affectedBy Touches
      rw [Bool.or_eq_true, htouches, htouches]
  | addForeignKey _ r => exact List.contains_iff_mem.trans (hrelations _)
  | dropForeignKey _ r => exact List.contains_iff_mem.trans (hrelations _)
  | _ => exact iff_of_false Bool.false_ne_true id

end Touches

-- A relation whose ends lie in one class, and a foreign key whose ends do.
def Cyclic (schema : Schema) (r : ResolvedRelation) : Prop :=
  r ∈ schema.relations ∧ Mutual (RelationEdge schema) r.owner r.target

def CyclicKey (schema : Schema) (r : ResolvedRelation) : Prop :=
  r ∈ schema.relations ∧ r.kind ≠ .manyToMany ∧ Mutual (FkEdge schema) r.owner r.target

theorem Cyclic.onCycle {r : ResolvedRelation} (h : Cyclic schema r) :
    OnCycle (RelationEdge schema) r.owner :=
  Relation.TransGen.head' ⟨r, h.1, rfl, rfl⟩ h.2.2

theorem detectCycles_spec {order : HashOrder} {info : CycleInfo} (h : detectCycles order schema = some info) :
    (∀ m, m ∈ info.models ↔ OnCycle (RelationEdge schema) m) ∧
      ∀ change, info.affectedBy change = true ↔
        Touches (OnCycle (RelationEdge schema)) (Cyclic schema) change := by
  unfold detectCycles at h
  obtain ⟨cycles, hcycles, hinfo⟩ := Option.bind_eq_some_iff.mp h
  obtain rfl := Option.some.inj hinfo
  have hinside : ∀ r, r ∈ schema.relations.filter (fun r => sameScc cycles r.owner r.target) ↔
      Cyclic schema r := by
    intro r
    rw [List.mem_filter, sameScc_iff hcycles]
    constructor
    · intro ⟨hr, _, hmutual⟩
      exact ⟨hr, hmutual⟩
    · intro hr
      exact ⟨hr.1, hr.onCycle, hr.2⟩
  refine ⟨fun m => mem_fkCycles hcycles, fun change => ?_⟩
  refine CycleInfo.affectedBy_iff (fun m => mem_fkCycles hcycles) (fun m name => ?_) (fun r hr => hr.onCycle)
    (fun name => ?_)
  · unfold NamedBy
    simp only [List.mem_flatMap, hinside, List.mem_cons, List.mem_map, Prod.mk.injEq]
    refine exists_congr fun r => and_congr_right fun _ => ?_
    constructor
    · intro hor
      rcases hor with ⟨hm, hname⟩ | ⟨c, hc, hm, hname⟩
      · exact ⟨hm.symm, Or.inl hname⟩
      · exact ⟨hm, Or.inr (hname ▸ hc)⟩
    · intro ⟨hm, hor⟩
      rcases hor with hname | hc
      · exact Or.inl ⟨hm.symm, hname⟩
      · exact Or.inr ⟨name, hc, hm, rfl⟩
  · simp only [List.mem_map, hinside]

-- No many-to-many relation closes a cycle.
def KeysOnly (schema : Schema) : Prop :=
  ∀ r ∈ schema.relations, r.kind = .manyToMany → ¬ Reach (RelationEdge schema) r.target r.owner

theorem relationEdge_of_fkEdge (h : FkEdge schema a b) : RelationEdge schema a b := by
  obtain ⟨r, hr, _, hends⟩ := h
  exact ⟨r, hr, hends⟩

theorem KeysOnly.back (h : KeysOnly schema) (hedge : RelationEdge schema a b)
    (hback : Reach (RelationEdge schema) b a) : FkEdge schema a b := by
  obtain ⟨r, hr, rfl, rfl⟩ := hedge
  exact ⟨r, hr, fun hkind => h r hr hkind hback, rfl, rfl⟩

theorem cyclic_of_key {r : ResolvedRelation} (h : CyclicKey schema r) : Cyclic schema r := by
  obtain ⟨hr, _, hto, hback⟩ := h
  have hsub : FkEdge schema ≤ RelationEdge schema := fun _ _ => relationEdge_of_fkEdge
  exact ⟨hr, Relation.ReflTransGen.mono hsub _ _ hto, Relation.ReflTransGen.mono hsub _ _ hback⟩

theorem onCycle_of_fkEdge (h : OnCycle (FkEdge schema) m) : OnCycle (RelationEdge schema) m := by
  have hsub : FkEdge schema ≤ RelationEdge schema := fun _ _ => relationEdge_of_fkEdge
  exact Relation.TransGen.mono hsub m m h

theorem KeysOnly.onCycle_iff (h : KeysOnly schema) :
    OnCycle (RelationEdge schema) m ↔ OnCycle (FkEdge schema) m :=
  onCycle_within (fun _ _ => relationEdge_of_fkEdge) fun _ _ => h.back

theorem KeysOnly.cyclic_iff (h : KeysOnly schema) {r : ResolvedRelation} :
    Cyclic schema r ↔ CyclicKey schema r := by
  constructor
  · intro ⟨hr, hmutual⟩
    refine ⟨hr, fun hkind => h r hr hkind hmutual.2, ?_⟩
    exact (mutual_within (fun _ _ => relationEdge_of_fkEdge) fun _ _ => h.back).mp hmutual
  · exact cyclic_of_key

end Ruprizzle.Cycle

namespace Ruprizzle.Planner

open Reachability Ruprizzle.Cycle

-- The schema after an up migration, and the one before a down migration.
def cycleSchema (p : Planner) : Schema := if p.down then p.prev else p.next

def MayDefer (p : Planner) : Prop :=
  ¬ (p.down = true ∧ p.dialect = .postgres) ∧
    (p.dialect.capabilities.deferrableFks = true ∨ p.dialect = .mysql)

-- A change of the plan touches a foreign key of a cycle.
def TouchesCycle (p : Planner) : Prop :=
  ∃ change ∈ p.changes, Touches (OnCycle (FkEdge p.cycleSchema)) (CyclicKey p.cycleSchema) change

theorem needsDefer_spec {p : Planner} {info : CycleInfo}
    (h : detectCycles p.host.fkGraph p.cycleSchema = some info) :
    ∃ defer, p.needsDefer = some defer ∧ (defer = true ↔ p.MayDefer ∧ ∃ change ∈ p.changes,
      Touches (OnCycle (RelationEdge p.cycleSchema)) (Cyclic p.cycleSchema) change) := by
  obtain ⟨hmodels, haffected⟩ := detectCycles_spec h
  unfold needsDefer MayDefer
  by_cases hdown : p.down = true ∧ p.dialect = .postgres
  · rw [if_pos (by simpa using hdown)]
    exact ⟨false, rfl, iff_of_false Bool.false_ne_true fun hmay => hmay.1.1 hdown⟩
  rw [if_neg (by simpa using hdown)]
  by_cases hplain : p.dialect.capabilities.deferrableFks = true ∨ p.dialect = .mysql
  · rw [if_neg (by simpa [or_iff_not_imp_left] using hplain)]
    change detectCycles p.host.fkGraph (if p.down then p.prev else p.next) = some info at h
    rw [h]
    refine ⟨_, rfl, ?_⟩
    rw [and_iff_right ⟨hdown, hplain⟩, Bool.and_eq_true, List.any_eq_true]
    simp only [haffected]
    refine and_iff_right_of_imp fun ⟨change, _, htouches⟩ => ?_
    obtain ⟨m, hm⟩ := htouches.on_cycle fun r hr => hr.onCycle
    have hin := (hmodels m).mpr hm
    cases hempty : info.models with
    | nil =>
        rw [hempty] at hin
        exact absurd hin List.not_mem_nil
    | cons first rest => rfl
  · rw [if_pos (by simpa [not_or] using hplain)]
    exact ⟨false, rfl, iff_of_false Bool.false_ne_true fun hmay => hplain hmay.1.2⟩

-- What the planner finds out of the cycles. A many-to-many relation counts as an edge,
-- so the foreign keys of cycles are found exactly where none closes a cycle.
structure Detects (p : Planner) (sccs cycles : List (List ModelName)) (info : CycleInfo) (defer : Bool) :
    Prop where
  once : sccs.flatten.Nodup
  mentioned : ∀ m, m ∈ sccs.flatten ↔ Mentioned p.cycleSchema m
  classes : ∀ scc ∈ sccs, IsClass (RelationEdge p.cycleSchema) scc
  reported : ∀ m, m ∈ cycles.flatten ↔ m ∈ info.models
  found : ∀ m, OnCycle (FkEdge p.cycleSchema) m → m ∈ info.models
  never : ¬ p.MayDefer → defer = false
  defers : p.MayDefer → p.TouchesCycle → defer = true
  keyClasses : KeysOnly p.cycleSchema → ∀ scc ∈ sccs, IsClass (FkEdge p.cycleSchema) scc
  exact : KeysOnly p.cycleSchema → ∀ m, m ∈ info.models ↔ OnCycle (FkEdge p.cycleSchema) m
  needed : KeysOnly p.cycleSchema → (defer = true ↔ p.MayDefer ∧ p.TouchesCycle)

def comments (fields : List Ast.FieldDecl) : Schema :=
  (Build.schema "postgres" [Build.model "Comment"
    ([Build.idField, Build.field "parentId" "Int" .optional []] ++ fields) []]).lowered

def threads : Schema :=
  comments [Build.field "parent" "Comment" .optional [Build.relation ["parentId"] ["id"] []],
    Build.field "replies" "Comment" .list []]

def tagged : Schema :=
  (Build.schema "postgres" [Build.model "Post" [Build.idField, Build.field "tags" "Tag" .list []] [],
    Build.model "Tag" [Build.idField, Build.field "posts" "Post" .list []] []]).lowered

end Ruprizzle.Planner
