import Ruprizzle.Migrate.Plan
import Ruprizzle.Migrate.Tarjan

namespace Ruprizzle

-- The comparison a change comes from, and the model it is looked up under.
inductive Change.Kind
  | enum
  | table
  | column
  | index
  | unique
  | foreignKey
  deriving DecidableEq

namespace Change

def kind : Change → Kind
  | createEnum _ | dropEnum _ _ | addEnumVariant _ _ | dropEnumVariant _ _ => .enum
  | createModel _ | dropModel _ _ | renameModel _ _ _ => .table
  | addColumn _ _ | dropColumn _ _ | alterColumn _ _ _ _ | renameColumn _ _ _ _ _ => .column
  | createIndex _ _ | dropIndex _ _ => .index
  | addUnique _ _ | dropUnique _ _ => .unique
  | addForeignKey _ _ | dropForeignKey _ _ => .foreignKey

def model? : Change → Option ModelName
  | addColumn m _ | dropColumn m _ | alterColumn m _ _ _ | renameColumn m _ _ _ _
  | createIndex m _ | dropIndex m _ | addUnique m _ | dropUnique m _ | addForeignKey m _
  | dropForeignKey m _ => some m
  | _ => none

end Change

namespace Diff

-- What each change of a diff says of the two schemas.

theorem mem_diffEnums {prev next : Schema} {c : Change} (h : c ∈ diffEnums prev next) :
    c.kind = .enum ∧ c.model? = none ∧
      ∀ enum v, c = .addEnumVariant enum v → enum ∈ next.enums.keys := by
  unfold diffEnums at h
  rw [List.mem_append, List.mem_append] at h
  rcases h with (h | h) | h
  · obtain ⟨e, _, rfl⟩ := List.mem_map.mp h
    exact ⟨rfl, rfl, by simp⟩
  · obtain ⟨e, _, rfl⟩ := List.mem_map.mp h
    exact ⟨rfl, rfl, by simp⟩
  · obtain ⟨⟨name, nextDef⟩, hname, h⟩ := List.mem_flatMap.mp h
    cases he : prev.enums.get? name with
    | none => simp [he] at h
    | some prevDef =>
        simp only [he, List.mem_append, List.mem_map] at h
        rcases h with ⟨v, _, rfl⟩ | ⟨v, _, rfl⟩
        · refine ⟨rfl, rfl, ?_⟩
          rintro enum w ⟨rfl, rfl⟩
          exact IndexMap.mem_keys.mpr ⟨nextDef, hname⟩
        · exact ⟨rfl, rfl, by simp⟩

theorem mem_alterIfChanged {model : ModelName} {f g : Field} {c : Change} :
    c ∈ alterIfChanged model f g ↔
      columnAspects f g ≠ [] ∧ c = .alterColumn model f g (columnAspects f g) := by
  unfold alterIfChanged
  split
  · rename_i h
    simp [h]
  · rename_i h
    simp [h]

theorem mem_hintChanges {model : ModelName} {h : Hint} {c : Change} :
    c ∈ hintChanges model h ↔
      c = .renameColumn model h.oldName h.newName h.prevField.column h.field.column ∨
        c ∈ alterIfChanged model { h.prevField with name := h.newName, column := h.field.column }
          h.field :=
  List.mem_cons

theorem mem_keptChanges {model : ModelName} {n : FieldName} {f g : Field} {c : Change} :
    c ∈ keptChanges model n f g ↔
      (f.column ≠ g.column ∧ c = .renameColumn model n n f.column g.column) ∨
        c ∈ alterIfChanged model f g := by
  unfold keptChanges
  rw [List.mem_append]
  by_cases h : f.column = g.column <;> simp [h]

theorem mem_diffColumns {model : ModelName} {m m' : Model} {c : Change} :
    c ∈ diffColumns model m m' ↔
      (∃ h ∈ hints m m', c ∈ hintChanges model h) ∨ (∃ f ∈ addedColumns m m', c = .addColumn model f) ∨
        (∃ f ∈ droppedColumns m m', c = .dropColumn model f.column) ∨
        ∃ n f g, (n, f, g) ∈ keptColumns m m' ∧ c ∈ keptChanges model n f g := by
  unfold diffColumns
  simp only [List.mem_append, List.mem_flatMap, List.mem_map, Prod.exists, or_assoc, eq_comm]

theorem kind_of_mem_diffColumns {model : ModelName} {m m' : Model} {c : Change}
    (h : c ∈ diffColumns model m m') : c.kind = .column ∧ c.model? = some model := by
  have halter : ∀ f g, c ∈ alterIfChanged model f g → c.kind = .column ∧ c.model? = some model := by
    intro f g hc
    rw [(mem_alterIfChanged.mp hc).2]
    exact ⟨rfl, rfl⟩
  rcases mem_diffColumns.mp h with ⟨hint, _, h⟩ | ⟨f, _, rfl⟩ | ⟨f, _, rfl⟩ | ⟨n, f, g, _, h⟩
  · rcases mem_hintChanges.mp h with rfl | h
    · exact ⟨rfl, rfl⟩
    · exact halter _ _ h
  · exact ⟨rfl, rfl⟩
  · exact ⟨rfl, rfl⟩
  · rcases mem_keptChanges.mp h with ⟨_, rfl⟩ | h
    · exact ⟨rfl, rfl⟩
    · exact halter _ _ h

theorem kind_of_mem_diffIndexes {model : ModelName} {m m' : Model} {c : Change}
    (h : c ∈ diffIndexes model m m') : c.kind = .index ∧ c.model? = some model := by
  unfold diffIndexes at h
  simp only [List.mem_append, List.mem_map] at h
  rcases h with ⟨ix, _, rfl⟩ | ⟨ix, _, rfl⟩ <;> exact ⟨rfl, rfl⟩

theorem kind_of_mem_diffUniques {model : ModelName} {m m' : Model} {c : Change}
    (h : c ∈ diffUniques model m m') : c.kind = .unique ∧ c.model? = some model := by
  unfold diffUniques at h
  simp only [List.mem_append, List.mem_map] at h
  rcases h with ⟨uq, _, rfl⟩ | ⟨uq, _, rfl⟩ <;> exact ⟨rfl, rfl⟩

theorem mem_diffModel {prev : Schema} {name : ModelName} {m' : Model} {c : Change} :
    c ∈ diffModel prev name m' ↔ ∃ m, (name, m) ∈ prev.models.entries ∧
      (c ∈ diffColumns name m m' ∨ c ∈ diffIndexes name m m' ∨ c ∈ diffUniques name m m') := by
  unfold diffModel
  constructor
  · intro hc
    cases hm : prev.models.get? name with
    | none => simp [hm] at hc
    | some m =>
        simp only [hm, List.mem_append, or_assoc] at hc
        exact ⟨m, IndexMap.get?_eq_some.mp hm, hc⟩
  · rintro ⟨m, hm, hc⟩
    simpa only [IndexMap.get?_eq_some.mpr hm, List.mem_append, or_assoc] using hc

theorem mem_diffModels {prev next : Schema} {c : Change} : c ∈ diffModels prev next ↔
    (∃ name m, c = .createModel m ∧ (name, m) ∈ next.models.entries ∧ name ∉ prev.models.keys) ∨
    (∃ name m, c = .dropModel name m.table ∧ (name, m) ∈ prev.models.entries ∧
      name ∉ next.models.keys) ∨
    ∃ name m m', (name, m) ∈ prev.models.entries ∧ (name, m') ∈ next.models.entries ∧
      (c ∈ diffColumns name m m' ∨ c ∈ diffIndexes name m m' ∨ c ∈ diffUniques name m m') := by
  unfold diffModels
  simp only [List.mem_append, List.mem_map, List.mem_filter, IndexMap.contains, Bool.not_eq_true',
    decide_eq_false_iff_not, List.mem_flatMap, Prod.exists, or_assoc, mem_diffModel]
  refine or_congr ?_ (or_congr ?_ ?_)
  · constructor
    · rintro ⟨name, m, ⟨hm, hn⟩, rfl⟩
      exact ⟨name, m, rfl, hm, hn⟩
    · rintro ⟨name, m, rfl, hm, hn⟩
      exact ⟨name, m, ⟨hm, hn⟩, rfl⟩
  · constructor
    · rintro ⟨name, m, ⟨hm, hn⟩, rfl⟩
      exact ⟨name, m, rfl, hm, hn⟩
    · rintro ⟨name, m, rfl, hm, hn⟩
      exact ⟨name, m, ⟨hm, hn⟩, rfl⟩
  · constructor
    · rintro ⟨name, m', hm', m, hm, hc⟩
      exact ⟨name, m, m', hm, hm', hc⟩
    · rintro ⟨name, m, m', hm, hm', hc⟩
      exact ⟨name, m', hm', m, hm, hc⟩

theorem mem_diffRelations {host : Host} {prev next : Schema} {c : Change} :
    c ∈ diffRelations host prev next ↔
      (∃ name r, c = .addForeignKey r.owner r ∧ (name, r) ∈ (relationMap next).entries ∧
        ∀ p, (name, p) ∈ (relationMap prev).entries → relationChanged p r = true) ∨
      (∃ name p, c = .dropForeignKey p.owner p ∧ (name, p) ∈ (relationMap prev).entries ∧
        ((∃ r, (name, r) ∈ (relationMap next).entries ∧ relationChanged p r = true) ∨
          (name ∉ (relationMap next).keys ∧
            (p.owner ∈ prev.models.keys → p.owner ∈ next.models.keys)))) := by
  unfold diffRelations
  simp only [List.mem_append, List.mem_flatMap, HashOrder.mem_order, Prod.exists]
  constructor
  · rintro (⟨name, r, hr, hc⟩ | ⟨name, p, hp, hc⟩)
    · cases hp : (relationMap prev).get? name with
      | none =>
          simp only [hp, List.mem_singleton] at hc
          refine Or.inl ⟨name, r, hc, hr, ?_⟩
          intro p hpe
          exact absurd (IndexMap.mem_keys.mpr ⟨p, hpe⟩) (IndexMap.get?_eq_none.mp hp)
      | some p =>
          have hpe := IndexMap.get?_eq_some.mp hp
          by_cases hch : relationChanged p r = true
          · simp only [hp, hch, ite_true, List.mem_cons, List.not_mem_nil, or_false] at hc
            rcases hc with rfl | rfl
            · exact Or.inr ⟨name, p, rfl, hpe, Or.inl ⟨r, hr, hch⟩⟩
            · refine Or.inl ⟨name, r, rfl, hr, ?_⟩
              intro q hq
              rwa [IndexMap.entry_unique hq hpe]
          · simp [hp, hch] at hc
    · by_cases howner : p.owner ∈ prev.models.keys ∧ p.owner ∉ next.models.keys
      · simp [howner] at hc
      · by_cases hname : name ∉ (relationMap next).keys
        · simp only [howner, hname, ite_true, ite_false, not_false_eq_true,
            List.mem_singleton] at hc
          refine Or.inr ⟨name, p, hc, hp, Or.inr ⟨hname, ?_⟩⟩
          intro hprev
          by_contra hnext
          exact howner ⟨hprev, hnext⟩
        · simp [howner, hname] at hc
  · rintro (⟨name, r, rfl, hr, hch⟩ | ⟨name, p, rfl, hp, ⟨r, hr, hch⟩ | ⟨hname, howner⟩⟩)
    · refine Or.inl ⟨name, r, hr, ?_⟩
      cases hp : (relationMap prev).get? name with
      | none => simp
      | some p => simp [hch p (IndexMap.get?_eq_some.mp hp)]
    · exact Or.inl ⟨name, r, hr, by simp [IndexMap.get?_eq_some.mpr hp, hch]⟩
    · refine Or.inr ⟨name, p, hp, ?_⟩
      have hne : ¬ (p.owner ∈ prev.models.keys ∧ p.owner ∉ next.models.keys) :=
        fun h => h.2 (howner h.1)
      rw [if_neg hne, if_pos hname]
      exact List.mem_singleton.mpr rfl

theorem kind_of_mem_diffRelations {host : Host} {prev next : Schema} {c : Change}
    (h : c ∈ diffRelations host prev next) : c.kind = .foreignKey := by
  rcases mem_diffRelations.mp h with ⟨_, _, rfl, _⟩ | ⟨_, _, rfl, _⟩ <;> rfl

theorem relationMap_entries {s : Schema} {name : String} {r : ResolvedRelation}
    (h : (name, r) ∈ (relationMap s).entries) : r ∈ foreignKeys s ∧ r.name = name := by
  suffices hfold : ∀ (l : List ResolvedRelation) (m : IndexMap String ResolvedRelation),
      (∀ n q, (n, q) ∈ m.entries → q ∈ foreignKeys s ∧ q.name = n) → l ⊆ foreignKeys s →
      ∀ n q, (n, q) ∈ (l.foldl (fun m r => m.insert r.name r) m).entries →
        q ∈ foreignKeys s ∧ q.name = n from
    hfold _ _ (by simp) (List.Subset.refl _) name r h
  intro l
  induction l with
  | nil => exact fun m hm _ => hm
  | cons a rest ih =>
      intro m hm hsub
      refine ih _ ?_ (fun x hx => hsub (List.mem_cons_of_mem a hx))
      intro n q hq
      rcases IndexMap.mem_entries_insert.mp hq with ⟨rfl, rfl⟩ | ⟨_, hq⟩
      · exact ⟨hsub (by simp), rfl⟩
      · exact hm n q hq

end Diff

namespace Planner

structure Yields (p : Planner) (ph : Phases) : Prop where
  defer : p.needsDefer = some ph.defer
  variants : p.enumVariantsToAdd = some ph.variants
  creates : p.modelsToCreate = some ph.creates
  adds : p.columnsToAdd = some ph.adds
  shadowed : p.shadowedColumnsToDrop = some ph.shadowed
  renames : p.columnsToRename = some ph.renames
  alters : p.columnsToAlter = some ph.alters
  fkDrops : p.foreignKeysToDrop = some ph.fkDrops
  ixDrops : p.indexesToDrop = some ph.ixDrops
  uqDrops : p.uniquesToDrop = some ph.uqDrops
  uqAdds : p.uniquesToAdd = some ph.uqAdds
  ixAdds : p.indexesToCreate = some ph.ixAdds
  fkAdds : p.foreignKeysToAdd = some ph.fkAdds
  drops : p.columnsToDrop = some ph.drops
  tables : p.modelsToDrop = some ph.tables

theorem plan_eq_some {p : Planner} {out : List Stmt} :
    p.plan = some out ↔ ∃ ph, p.Yields ph ∧ out = p.assemble ph := by
  unfold plan
  constructor
  · intro h
    obtain ⟨_, hdefer, h⟩ := Option.bind_eq_some_iff.mp h
    obtain ⟨_, hvariants, h⟩ := Option.bind_eq_some_iff.mp h
    obtain ⟨_, hcreates, h⟩ := Option.bind_eq_some_iff.mp h
    obtain ⟨_, hadds, h⟩ := Option.bind_eq_some_iff.mp h
    obtain ⟨_, hshadowed, h⟩ := Option.bind_eq_some_iff.mp h
    obtain ⟨_, hrenames, h⟩ := Option.bind_eq_some_iff.mp h
    obtain ⟨_, halters, h⟩ := Option.bind_eq_some_iff.mp h
    obtain ⟨_, hfkDrops, h⟩ := Option.bind_eq_some_iff.mp h
    obtain ⟨_, hixDrops, h⟩ := Option.bind_eq_some_iff.mp h
    obtain ⟨_, huqDrops, h⟩ := Option.bind_eq_some_iff.mp h
    obtain ⟨_, huqAdds, h⟩ := Option.bind_eq_some_iff.mp h
    obtain ⟨_, hixAdds, h⟩ := Option.bind_eq_some_iff.mp h
    obtain ⟨_, hfkAdds, h⟩ := Option.bind_eq_some_iff.mp h
    obtain ⟨_, hdrops, h⟩ := Option.bind_eq_some_iff.mp h
    obtain ⟨_, htables, h⟩ := Option.bind_eq_some_iff.mp h
    exact ⟨⟨_, _, _, _, _, _, _, _, _, _, _, _, _, _, _⟩,
      ⟨hdefer, hvariants, hcreates, hadds, hshadowed, hrenames, halters, hfkDrops, hixDrops,
        huqDrops, huqAdds, hixAdds, hfkAdds, hdrops, htables⟩, (Option.some.inj h).symm⟩
  · rintro ⟨ph, h, hout⟩
    refine Option.bind_eq_some_iff.mpr ⟨_, h.defer, ?_⟩
    refine Option.bind_eq_some_iff.mpr ⟨_, h.variants, ?_⟩
    refine Option.bind_eq_some_iff.mpr ⟨_, h.creates, ?_⟩
    refine Option.bind_eq_some_iff.mpr ⟨_, h.adds, ?_⟩
    refine Option.bind_eq_some_iff.mpr ⟨_, h.shadowed, ?_⟩
    refine Option.bind_eq_some_iff.mpr ⟨_, h.renames, ?_⟩
    refine Option.bind_eq_some_iff.mpr ⟨_, h.alters, ?_⟩
    refine Option.bind_eq_some_iff.mpr ⟨_, h.fkDrops, ?_⟩
    refine Option.bind_eq_some_iff.mpr ⟨_, h.ixDrops, ?_⟩
    refine Option.bind_eq_some_iff.mpr ⟨_, h.uqDrops, ?_⟩
    refine Option.bind_eq_some_iff.mpr ⟨_, h.uqAdds, ?_⟩
    refine Option.bind_eq_some_iff.mpr ⟨_, h.ixAdds, ?_⟩
    refine Option.bind_eq_some_iff.mpr ⟨_, h.fkAdds, ?_⟩
    refine Option.bind_eq_some_iff.mpr ⟨_, h.drops, ?_⟩
    refine Option.bind_eq_some_iff.mpr ⟨_, h.tables, ?_⟩
    rw [hout]
    rfl

theorem collect_cons (f : Change → Option (List Stmt)) (c : Change) (cs : List Change) :
    collect f (c :: cs) = (f c).bind fun stmts => (collect f cs).map (stmts ++ ·) := by
  conv_lhs => unfold collect
  cases f c with
  | none => rfl
  | some stmts => cases collect f cs <;> rfl

theorem collect_eq_some {f : Change → Option (List Stmt)} {cs : List Change} {out : List Stmt} :
    collect f cs = some out ↔
      (∀ c ∈ cs, ∃ stmts, f c = some stmts) ∧ out = cs.flatMap (fun c => (f c).getD []) := by
  induction cs generalizing out with
  | nil => simp [collect, eq_comm]
  | cons c rest ih =>
      rw [collect_cons]
      cases hf : f c with
      | none => simp [hf]
      | some stmts =>
          simp only [Option.bind_some, Option.map_eq_some_iff, List.forall_mem_cons,
            List.flatMap_cons, hf, Option.getD_some, ih]
          constructor
          · rintro ⟨others, ⟨hall, rfl⟩, rfl⟩
            exact ⟨⟨⟨stmts, rfl⟩, hall⟩, rfl⟩
          · rintro ⟨⟨_, hall⟩, rfl⟩
            exact ⟨_, ⟨hall, rfl⟩, rfl⟩

theorem collect_total {f : Change → Option (List Stmt)} {cs : List Change}
    (h : ∀ c ∈ cs, ∃ stmts, f c = some stmts) : ∃ out, collect f cs = some out :=
  ⟨_, collect_eq_some.mpr ⟨h, rfl⟩⟩

end Planner

end Ruprizzle
