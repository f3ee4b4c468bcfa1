import Ruprizzle.Migrate.Shapes

namespace Ruprizzle

-- The order in which a plan drops tables, creates them and adds foreign keys.

def Before (a b : String) (l : List String) : Prop :=
  ∃ i j : Nat, i < j ∧ l[i]? = some a ∧ l[j]? = some b

-- An element of a list joined from two is in one of them, at its place.
theorem cut_append {α : Type} {pre post a b : List α} {s : α} (h : a ++ b = pre ++ s :: post) :
    (∃ post', a = pre ++ s :: post') ∨ ∃ pre', pre = a ++ pre' ∧ b = pre' ++ s :: post := by
  rcases List.append_eq_append_iff.mp h with ⟨mid, rfl, hb⟩ | ⟨mid, rfl, hb⟩
  · exact Or.inr ⟨mid, rfl, hb⟩
  · cases mid with
    | nil => exact Or.inr ⟨[], by simp, by simpa using hb.symm⟩
    | cons t rest =>
        obtain ⟨rfl, _⟩ := List.cons.inj hb
        exact Or.inl ⟨rest, rfl⟩

namespace Sql

def droppedModel : Sql → Option String
  | dropTable table true _ => some table
  | _ => none

def createdTable : Sql → Option String
  | createTable t => some t.table
  | _ => none

-- The foreign keys a statement adds: the table they are on, the table they reference.
def addedKeys : Sql → List (String × String)
  | addForeignKey table fk => [(table, fk.target)]
  | createTable t => t.foreignKeys.map (fun fk => (t.table, fk.target))
  | _ => []

theorem droppedModel_eq_none {sql : Sql} (h : sql.shape ≠ .dropTable) : sql.droppedModel = none := by
  cases sql with
  | dropTable table ifExists cascade =>
      cases ifExists with
      | false => rfl
      | true => exact absurd rfl h
  | _ => rfl

theorem createdTable_eq_none {sql : Sql} (h : sql.shape ≠ .createTable) :
    sql.createdTable = none := by
  cases sql with
  | createTable t => exact absurd rfl h
  | _ => rfl

theorem addedKeys_eq_nil {sql : Sql} (h : sql.shape ≠ .createTable) (h' : sql.shape ≠ .foreignKey) :
    sql.addedKeys = [] := by
  cases sql with
  | createTable t => exact absurd rfl h
  | addForeignKey table fk => exact absurd rfl h'
  | _ => rfl

end Sql

theorem Shaped.filterMap_droppedModel {shapes : List Sql.Shape} {l : List Stmt}
    (h : Shaped shapes l) (hs : Sql.Shape.dropTable ∉ shapes) :
    l.filterMap (fun s => s.sql.droppedModel) = [] := by
  refine List.filterMap_eq_nil_iff.mpr fun s hmem => Sql.droppedModel_eq_none ?_
  intro heq
  exact hs (heq ▸ h s hmem)

namespace Dialect

-- A model has a body when the dialect has a type for each of its columns.
def Rendered (d : Dialect) (schema : Schema) (m : Model) : Prop :=
  ∃ stmt, d.createTableBody schema m = .ok stmt

theorem createTableBody_eq_ok {d : Dialect} {schema : Schema} {m : Model} {stmt : Stmt}
    (h : d.createTableBody schema m = .ok stmt) :
    ∃ t : TableSpec, stmt.sql = .createTable t ∧ t.table = m.table ∧ t.foreignKeys = [] := by
  unfold createTableBody at h
  cases hc : m.scalarFields.mapM (d.columnSpec schema) with
  | error e =>
      rw [hc] at h
      cases h
  | ok columns =>
      rw [hc] at h
      cases h
      exact ⟨_, rfl, rfl, rfl⟩

theorem createTableStmt_of_rendered {d : Dialect} {schema : Schema} {m : Model}
    (h : d.Rendered schema m) : ∃ t : TableSpec, (d.createTableStmt schema m).sql = .createTable t ∧
      t.table = m.table ∧ t.foreignKeys = [] := by
  obtain ⟨stmt, hs⟩ := h
  obtain ⟨t, ht⟩ := createTableBody_eq_ok hs
  refine ⟨t, ?_, ht.2⟩
  unfold createTableStmt
  rw [hs]
  exact ht.1

theorem createTableStmt_of_not_rendered {d : Dialect} {schema : Schema} {m : Model}
    (h : ¬ d.Rendered schema m) : ∃ text, (d.createTableStmt schema m).sql = .comment text := by
  unfold createTableStmt
  cases hb : d.createTableBody schema m with
  | ok stmt => exact absurd ⟨stmt, hb⟩ h
  | error e => exact ⟨_, rfl⟩

-- The foreign keys CREATE TABLE holds: all a model owns, or none.
def inlineKeys (d : Dialect) (schema : Schema) (m : Model) : List ForeignKeyClause :=
  if d.capabilities.addFkAfterCreate then [] else (schema.ownedBy m.name).map d.fkConstraint

-- The one statement that creates the table of a model.
def creation (d : Dialect) (schema : Schema) (m : Model) : Stmt :=
  if (d.inlineKeys schema m).isEmpty then d.createTableStmt schema m
  else { d.createTableStmt schema m with
    sql := (d.createTableStmt schema m).sql.embed d (d.inlineKeys schema m) "" }

theorem inline_addForeignKey {schema : Schema} {m : Model} :
    ((schema.ownedBy m.name).flatMap (addForeignKey .sqlite m)).filterMap
      (fun s => s.sql.inlineKey?) = (schema.ownedBy m.name).map (fkConstraint .sqlite) := by
  have hkind : ∀ r ∈ schema.ownedBy m.name, r.kind ≠ .manyToMany := by
    intro r hr
    have := (List.mem_filter.mp hr).2
    simp only [decide_eq_true_eq] at this
    exact this.2
  generalize schema.ownedBy m.name = owned at hkind
  induction owned with
  | nil => rfl
  | cons r rest ih =>
      have hr : addForeignKey .sqlite m r =
          [Stmt.new (.inlineForeignKey (fkConstraint .sqlite r))] := by
        simp [addForeignKey, Sqlite.addForeignKey, hkind r (by simp)]
      rw [List.flatMap_cons, hr, List.filterMap_append, ih (fun q hq => hkind q (by simp [hq]))]
      rfl

theorem create_eq_creation (d : Dialect) (schema : Schema) (m : Model) :
    (if d.capabilities.addFkAfterCreate then d.createTable schema m
      else d.fullCreateTable schema m) = [d.creation schema m] := by
  unfold creation inlineKeys
  cases d with
  | postgres => rfl
  | mysql => rfl
  | sqlite =>
      simp only [capabilities, Bool.false_eq_true, ite_false, List.isEmpty_map]
      unfold fullCreateTable
      dsimp only [capabilities]
      split
      · rfl
      · rename_i hne
        rw [inline_addForeignKey]
        simp only [List.isEmpty_map, Bool.false_eq_true, ite_false, hne]
        rfl

theorem creation_of_rendered {d : Dialect} {schema : Schema} {m : Model}
    (h : d.Rendered schema m) : (d.creation schema m).sql.createdTable = some m.table ∧
      (d.creation schema m).sql.addedKeys =
        (d.inlineKeys schema m).map (fun fk => (m.table, fk.target)) := by
  obtain ⟨t, ht, htable, hkeys⟩ := createTableStmt_of_rendered h
  unfold creation
  split
  · rename_i hempty
    rw [List.isEmpty_iff.mp hempty, ht]
    simp [Sql.createdTable, Sql.addedKeys, htable, hkeys]
  · simp only [ht, Sql.embed]
    simp [Sql.createdTable, Sql.addedKeys, htable, hkeys]

theorem creation_of_not_rendered {d : Dialect} {schema : Schema} {m : Model}
    (h : ¬ d.Rendered schema m) : (d.creation schema m).sql.createdTable = none ∧
      (d.creation schema m).sql.addedKeys = [] := by
  obtain ⟨text, ht⟩ := createTableStmt_of_not_rendered h
  have hshape : (d.creation schema m).sql.shape = .note := by
    unfold creation
    split
    · rw [ht]
      rfl
    · rw [Sql.shape_embed, ht]
      rfl
  exact ⟨Sql.createdTable_eq_none (by rw [hshape]; decide),
    Sql.addedKeys_eq_nil (by rw [hshape]; decide) (by rw [hshape]; decide)⟩

end Dialect

open Diff Planner

section Sorted

variable {α : Type} {cmp : α → α → Ordering} {l : List α}

theorem exists_before_of_lt (ht : TotalOn cmp l) (ho : InOrder cmp l) {a b : α} (ha : a ∈ l)
    (hb : b ∈ l) (hlt : cmp a b = .lt) :
    ∃ i j : Nat, i < j ∧ l[i]? = some a ∧ l[j]? = some b := by
  obtain ⟨i, hi, rfl⟩ := List.getElem_of_mem ha
  obtain ⟨j, hj, rfl⟩ := List.getElem_of_mem hb
  exact ⟨i, j, ho.before ht.swap hi hj hlt, List.getElem?_eq_getElem hi, List.getElem?_eq_getElem hj⟩

theorem lt_of_before (ho : InOrder cmp l) {a b : α} {i j : Nat} (hij : i < j)
    (hi : l[i]? = some a) (hj : l[j]? = some b) (hne : cmp a b ≠ .eq) : cmp a b = .lt := by
  obtain ⟨hli, rfl⟩ := List.getElem?_eq_some_iff.mp hi
  obtain ⟨hlj, rfl⟩ := List.getElem?_eq_some_iff.mp hj
  have hgt := List.pairwise_iff_getElem.mp ho i j hli hlj hij
  cases h : cmp l[i] l[j] with
  | lt => rfl
  | eq => exact absurd h hne
  | gt => exact absurd h hgt

end Sorted

theorem tableDependencyOrder_ne_eq {s : Schema} {a b : String} (h : a ≠ b) :
    tableDependencyOrder s a b ≠ .eq := by
  unfold tableDependencyOrder
  dsimp only
  split
  · simp
  · split
    · simp
    · simpa using h

theorem modelDependencyOrder_ne_eq {s : Schema} {a b : Model} (h : a.name ≠ b.name) :
    modelDependencyOrder s a b ≠ .eq := by
  unfold modelDependencyOrder
  dsimp only
  split
  · simp
  · split
    · simp
    · have hstr : a.name.str ≠ b.name.str := by
        intro hs
        exact h (by cases ha : a.name; cases hb : b.name; simp_all)
      simpa using hstr

theorem mem_newModels {prev next : Schema} {m : Model} : m ∈ newModels prev next ↔
    ∃ name, (name, m) ∈ next.models.entries ∧ name ∉ prev.models.keys := by
  simp [newModels, IndexMap.contains]

theorem mem_goneTables {prev next : Schema} {table : String} : table ∈ goneTables prev next ↔
    ∃ name m, (name, m) ∈ prev.models.entries ∧ name ∉ next.models.keys ∧ m.table = table := by
  simp [goneTables, IndexMap.contains, and_assoc]

-- A table stands for one model.
theorem model_of_table {s : Schema} (h : s.WellFormed) {a b : Model} (ha : a ∈ s.models.values)
    (hb : b ∈ s.models.values) (ht : a.table = b.table) : a = b :=
  List.inj_on_of_nodup_map h.tables ha hb ht

theorem mem_values_of_newModels {prev next : Schema} {m : Model} (h : m ∈ newModels prev next) :
    m ∈ next.models.values := by
  obtain ⟨name, hm, _⟩ := mem_newModels.mp h
  exact IndexMap.mem_values.mpr ⟨name, hm⟩

-- A referencing table goes before the one it references, and no foreign key
-- comes before the table it is on or the one it references.
structure TablesOrdered (d : Dialect) (prev next : Schema) (stmts : List Stmt) : Prop where
  dropped : ∀ r ∈ foreignKeys prev, ∀ a b, (r.owner, a) ∈ prev.models.entries →
    (r.target, b) ∈ prev.models.entries → r.owner ∉ next.models.keys →
      r.target ∉ next.models.keys → r.owner ≠ r.target →
        Before a.table b.table (stmts.filterMap (fun s => s.sql.droppedModel))
  created : ∀ pre s post, stmts = pre ++ s :: post → ∀ k ∈ s.sql.addedKeys,
    ∀ m ∈ newModels prev next, d.Rendered next m → m.table = k.1 ∨ m.table = k.2 →
      s.sql.createdTable = some m.table ∨ ∃ c ∈ pre, c.sql.createdTable = some m.table

-- What makes the two sorts put the tables in that order.
structure TablesSorted (d : Dialect) (prev next : Schema) : Prop where
  plannable : Plannable prev next
  dropped : ∀ r ∈ foreignKeys prev, ∀ a b, (r.owner, a) ∈ prev.models.entries →
    (r.target, b) ∈ prev.models.entries → r.owner ∉ next.models.keys →
      r.target ∉ next.models.keys → r.owner ≠ r.target →
        tableDependencyOrder prev a.table b.table = .lt
  created : d.capabilities.addFkAfterCreate = false → ∀ o ∈ newModels prev next,
    ∀ r ∈ next.ownedBy o.name, ∀ m ∈ newModels prev next, m.table = r.targetTable → m ≠ o →
      d.Rendered next o → d.Rendered next m → modelDependencyOrder next m o = .lt

namespace Planner

theorem modelsToCreate_eq_some {p : Planner} {out : List Stmt} (h : p.modelsToCreate = some out) :
    ∃ ms, p.host.sortBy.sort (modelDependencyOrder p.next) p.createdModels = some ms ∧
      out = ms.map (p.dialect.creation p.next) := by
  obtain ⟨ms, hms, h⟩ := Option.bind_eq_some_iff.mp h
  cases h
  refine ⟨ms, hms, ?_⟩
  rw [List.map_eq_flatMap]
  exact List.flatMap_congr fun m _ => Dialect.create_eq_creation p.dialect p.next m

-- A plan seen as what comes before the created tables, these, and the rest.
theorem exists_creates {p : Planner} {out : List Stmt} (hc : p.changes = diff p.host p.prev p.next)
    (h : p.plan = some out) :
    ∃ ms X Y, p.host.sortBy.sort (modelDependencyOrder p.next) (newModels p.prev p.next) = some ms ∧
      Shaped [.note, .enum] X ∧ out = X ++ (ms.map (p.dialect.creation p.next) ++ Y) := by
  obtain ⟨ph, hph, hout⟩ := plan_eq_some.mp h
  obtain ⟨ms, hms, hcreates⟩ := modelsToCreate_eq_some hph.creates
  rw [createdModels_diff hc] at hms
  refine ⟨ms, (if ph.defer then p.deferPreamble else []) ++ p.extensionsToCreate ++
    p.enumsToCreate ++ ph.variants, ph.adds ++ (ph.shadowed ++ (ph.renames ++ (ph.alters ++
      (ph.fkDrops ++ (ph.ixDrops ++ (ph.uqDrops ++ (ph.uqAdds ++ (ph.ixAdds ++ (ph.fkAdds ++
        (ph.drops ++ (ph.tables ++ (p.enumVariantsToDrop ++ (p.enumsToDrop ++
          (p.extensionsToDrop ++ (if ph.defer then p.deferPostamble else []))))))))))))))),
    hms, ?_, ?_⟩
  · refine Shaped.append (Shaped.append (Shaped.append ?_ ?_) ?_) ?_
    · split
      · exact (shaped_deferral p).1.mono (by simp)
      · exact Shaped.nil
    · exact (shaped_extensions p).1.mono (by simp)
    · exact (shaped_enums p).1.mono (by simp)
    · exact hph.shapes.variants.mono (by simp)
  · rw [hout, ← hcreates]
    unfold assemble
    simp only [List.append_assoc]

theorem droppedModels_of_plan {p : Planner} {out : List Stmt}
    (hc : p.changes = diff p.host p.prev p.next) (h : p.plan = some out) :
    ∃ ts, p.host.sortBy.sort (tableDependencyOrder p.prev) (goneTables p.prev p.next) = some ts ∧
      out.filterMap (fun s => s.sql.droppedModel) = ts := by
  obtain ⟨ph, hph, hout⟩ := plan_eq_some.mp h
  obtain ⟨ts, hts, cascades, htables⟩ := modelsToDrop_eq_some hph.tables
  rw [droppedTables_diff hc] at hts
  refine ⟨ts, hts, ?_⟩
  have hs := hph.shapes
  have hdefer : ∀ l : List Stmt, Shaped [.note] l →
      (if ph.defer then l else []).filterMap (fun s => s.sql.droppedModel) = [] := by
    intro l hl
    split
    · exact hl.filterMap_droppedModel (by decide)
    · rfl
  have hdrop : ph.tables.filterMap (fun s => s.sql.droppedModel) = ts := by
    rw [htables, List.filterMap_map]
    exact List.filterMap_some
  rw [hout]
  unfold assemble
  simp only [List.filterMap_append, hdefer _ (shaped_deferral p).1, hdefer _ (shaped_deferral p).2,
    (shaped_extensions p).1.filterMap_droppedModel (by decide),
    (shaped_extensions p).2.filterMap_droppedModel (by decide),
    (shaped_enums p).1.filterMap_droppedModel (by decide),
    (shaped_enums p).2.1.filterMap_droppedModel (by decide),
    (shaped_enums p).2.2.filterMap_droppedModel (by decide),
    hs.variants.filterMap_droppedModel (by decide), hs.creates.filterMap_droppedModel (by decide),
    hs.adds.filterMap_droppedModel (by decide), hs.shadowed.filterMap_droppedModel (by decide),
    hs.renames.filterMap_droppedModel (by decide), hs.alters.filterMap_droppedModel (by decide),
    hs.fkDrops.filterMap_droppedModel (by decide), hs.ixDrops.filterMap_droppedModel (by decide),
    hs.uqDrops.filterMap_droppedModel (by decide), hs.uqAdds.filterMap_droppedModel (by decide),
    hs.ixAdds.filterMap_droppedModel (by decide), hs.fkAdds.filterMap_droppedModel (by decide),
    hs.drops.filterMap_droppedModel (by decide), hdrop, List.append_nil, List.nil_append]

end Planner

theorem SortBy.of_sort_eq_some (b : SortBy) {α : Type} {cmp : α → α → Ordering} {l r : List α}
    (ht : TotalOn cmp l) (h : b.sort cmp l = some r) :
    InOrder cmp r ∧ TotalOn cmp r ∧ ∀ a, a ∈ r ↔ a ∈ l := by
  obtain ⟨r', hr', ho⟩ := b.sorted cmp l ht
  rw [h] at hr'
  obtain rfl := Option.some.inj hr'
  have hp := b.perm cmp l r h
  exact ⟨ho, ht.of_perm hp, fun a => hp.mem_iff⟩

theorem not_created_of_shaped {X : List Stmt} (h : Shaped [.note, .enum] X) {c : Stmt}
    (hc : c ∈ X) : c.sql.createdTable = none ∧ c.sql.addedKeys = [] := by
  have hshape := h c hc
  refine ⟨Sql.createdTable_eq_none ?_, Sql.addedKeys_eq_nil ?_ ?_⟩ <;>
    · intro heq
      rw [Stmt.shape, heq] at hshape
      simp at hshape

-- The foreign keys a creation holds are those the model owns.
theorem addedKeys_creation {d : Dialect} {schema : Schema} {m : Model} {k : String × String}
    (hk : k ∈ (d.creation schema m).sql.addedKeys) :
    d.Rendered schema m ∧ d.capabilities.addFkAfterCreate = false ∧ k.1 = m.table ∧
      ∃ r ∈ schema.ownedBy m.name, k.2 = r.targetTable := by
  by_cases hr : d.Rendered schema m
  · rw [(Dialect.creation_of_rendered hr).2] at hk
    unfold Dialect.inlineKeys at hk
    split at hk
    · simp at hk
    · rename_i hd
      obtain ⟨fk, hfk, rfl⟩ := List.mem_map.mp hk
      obtain ⟨r, hrm, rfl⟩ := List.mem_map.mp hfk
      exact ⟨hr, by simpa using hd, rfl, r, hrm, rfl⟩
  · rw [(Dialect.creation_of_not_rendered hr).2] at hk
    simp at hk

-- In sorted order, a model comes after each new model it references.
theorem tablesOrdered_of_sorted {p : Planner} (hc : p.changes = diff p.host p.prev p.next)
    (hp : p.prev.WellFormed) (hn : p.next.WellFormed)
    (h : TablesSorted p.dialect p.prev p.next) :
    ∃ out, p.plan = some out ∧ TablesOrdered p.dialect p.prev p.next out := by
  obtain ⟨out, hout⟩ := plan_isSome_of_plannable hc hp hn h.plannable
  refine ⟨out, hout, ?_, ?_⟩
  · intro r hr a b ha hb hgone hgone' hne
    obtain ⟨ts, hts, heq⟩ := droppedModels_of_plan hc hout
    obtain ⟨ho, ht, hmem⟩ := p.host.sortBy.of_sort_eq_some h.plannable.gone hts
    rw [heq]
    exact exists_before_of_lt ht ho ((hmem _).mpr (mem_goneTables.mpr ⟨_, a, ha, hgone, rfl⟩))
      ((hmem _).mpr (mem_goneTables.mpr ⟨_, b, hb, hgone', rfl⟩))
      (h.dropped r hr a b ha hb hgone hgone' hne)
  · intro pre s post hsplit k hk m hm hrm hkm
    obtain ⟨ms, X, Y, hms, hX, hall⟩ := exists_creates hc hout
    obtain ⟨ho, ht, hmem⟩ := p.host.sortBy.of_sort_eq_some h.plannable.created hms
    have hcreated := (Dialect.creation_of_rendered hrm).1
    -- The statement is none of those before the creations.
    rcases cut_append (hall.symm.trans hsplit) with ⟨post', hpost⟩ | ⟨pre', rfl, hrest⟩
    · have hs := not_created_of_shaped hX (hpost ▸ List.mem_append_right _ (List.mem_cons_self ..))
      rw [hs.2] at hk
      simp at hk
    · rcases cut_append hrest with ⟨post', hcreates⟩ | ⟨pre'', rfl, _⟩
      · -- It creates the table of a new model.
        have hlen := congrArg List.length hcreates
        simp only [List.length_map, List.length_append, List.length_cons] at hlen
        have hi : pre'.length < ms.length := by omega
        have hs : s = p.dialect.creation p.next ms[pre'.length] := by
          have := congrArg (fun l => l[pre'.length]?) hcreates
          simpa [hi] using this.symm
        rw [hs] at hk
        obtain ⟨hro, hd, hk1, r, hr, hk2⟩ := addedKeys_creation hk
        have hown : s.sql.createdTable = some ms[pre'.length].table := by
          rw [hs]
          exact (Dialect.creation_of_rendered hro).1
        by_cases hsame : m = ms[pre'.length]
        · exact Or.inl (by rw [hown, hsame])
        · rcases hkm with hkm | hkm
          · exact Or.inl (by rw [hown, hkm, hk1])
          · right
            have ho' : ms[pre'.length] ∈ newModels p.prev p.next :=
              (hmem _).mp (List.getElem_mem hi)
            have hlt := h.created hd _ ho' r hr m hm (hkm.trans hk2) hsame hro hrm
            obtain ⟨j, hj, rfl⟩ := List.getElem_of_mem ((hmem m).mpr hm)
            have hji := ho.before ht.swap hj hi hlt
            refine ⟨p.dialect.creation p.next ms[j], List.mem_append_right _ ?_, hcreated⟩
            have hget := congrArg (fun l => l[j]?) hcreates
            rw [List.getElem?_map, List.getElem?_eq_getElem hj,
              List.getElem?_append_left hji] at hget
            exact List.mem_of_getElem? hget.symm
      · -- It comes after all creations.
        right
        refine ⟨p.dialect.creation p.next m, ?_, hcreated⟩
        exact List.mem_append_right _ (List.mem_append_left _
          (List.mem_map.mpr ⟨m, (hmem m).mpr hm, rfl⟩))

theorem sorted_of_tablesOrdered {p : Planner} {out : List Stmt}
    (hc : p.changes = diff p.host p.prev p.next) (hp : p.prev.WellFormed)
    (hn : p.next.WellFormed) (hplannable : Plannable p.prev p.next) (hout : p.plan = some out)
    (h : TablesOrdered p.dialect p.prev p.next out) : TablesSorted p.dialect p.prev p.next := by
  refine ⟨hplannable, ?_, ?_⟩
  · intro r hr a b ha hb hgone hgone' hne
    obtain ⟨ts, hts, heq⟩ := droppedModels_of_plan hc hout
    obtain ⟨ho, _, _⟩ := p.host.sortBy.of_sort_eq_some hplannable.gone hts
    obtain ⟨i, j, hij, hi, hj⟩ := h.dropped r hr a b ha hb hgone hgone' hne
    rw [heq] at hi hj
    refine lt_of_before ho hij hi hj (tableDependencyOrder_ne_eq fun htable => hne ?_)
    have hab := model_of_table hp (IndexMap.mem_values.mpr ⟨_, ha⟩)
      (IndexMap.mem_values.mpr ⟨_, hb⟩) htable
    rw [← (hp.named _ _ ha).1, ← (hp.named _ _ hb).1, hab]
  · intro hd o ho' r hr m hm htable hmo hro hrm
    obtain ⟨ms, X, Y, hms, hX, hall⟩ := exists_creates hc hout
    obtain ⟨ho, _, hmem⟩ := p.host.sortBy.of_sort_eq_some hplannable.created hms
    obtain ⟨i, hi, rfl⟩ := List.getElem_of_mem ((hmem o).mpr ho')
    -- Cut the plan at the statement that creates the owner.
    have hcut : out = (X ++ (ms.take i).map (p.dialect.creation p.next)) ++
        p.dialect.creation p.next ms[i] :: ((ms.drop (i + 1)).map (p.dialect.creation p.next) ++ Y) := by
      have hsplit : ms.take i ++ ms[i] :: ms.drop (i + 1) = ms := by
        rw [List.getElem_cons_drop, List.take_append_drop]
      have hmap := congrArg (List.map (p.dialect.creation p.next)) hsplit
      rw [List.map_append, List.map_cons] at hmap
      rw [hall, ← hmap]
      simp only [List.append_assoc, List.cons_append]
    have hkey : (ms[i].table, m.table) ∈ (p.dialect.creation p.next ms[i]).sql.addedKeys := by
      rw [(Dialect.creation_of_rendered hro).2]
      refine List.mem_map.mpr ⟨p.dialect.fkConstraint r, ?_, by rw [htable]; rfl⟩
      unfold Dialect.inlineKeys
      simp only [hd, Bool.false_eq_true, ite_false]
      exact List.mem_map.mpr ⟨r, hr, rfl⟩
    have hne : m.name ≠ ms[i].name := by
      intro hname
      obtain ⟨n, hme, _⟩ := mem_newModels.mp hm
      obtain ⟨n', hoe, _⟩ := mem_newModels.mp ho'
      have hn1 := (hn.named _ _ hme).1
      have hn2 := (hn.named _ _ hoe).1
      rw [hname, hn2] at hn1
      subst hn1
      exact hmo (IndexMap.entry_unique hme hoe)
    rcases h.created _ _ _ hcut _ hkey m hm hrm (Or.inr rfl) with hself | ⟨c, hcm, hct⟩
    · rw [(Dialect.creation_of_rendered hro).1] at hself
      have heq := model_of_table hn (mem_values_of_newModels ho') (mem_values_of_newModels hm)
        (Option.some.inj hself)
      exact absurd heq.symm hmo
    · rcases List.mem_append.mp hcm with hcm | hcm
      · rw [(not_created_of_shaped hX hcm).1] at hct
        cases hct
      · obtain ⟨m', hm', rfl⟩ := List.mem_map.mp hcm
        have hrm' : p.dialect.Rendered p.next m' := by
          by_contra hnot
          rw [(Dialect.creation_of_not_rendered hnot).1] at hct
          cases hct
        rw [(Dialect.creation_of_rendered hrm').1] at hct
        have hmm : m' = m := model_of_table hn
          (mem_values_of_newModels ((hmem m').mp (List.mem_of_mem_take hm')))
          (mem_values_of_newModels hm) (Option.some.inj hct)
        subst hmm
        obtain ⟨j, hj, hget⟩ := List.getElem_of_mem hm'
        rw [List.getElem_take] at hget
        have hji : j < i := by
          rw [List.length_take] at hj
          omega
        have hlj : j < ms.length := by omega
        exact lt_of_before ho hji (by rw [List.getElem?_eq_getElem hlj, hget])
          (List.getElem?_eq_getElem hi) (modelDependencyOrder_ne_eq hne)

-- Each model references the one declared before it.
def chain (models : List String) : Ast :=
  Build.schema "postgres" ((models.zip (none :: models.map some)).map fun (name, target) =>
    let back := (models.dropWhile (fun m => m ≠ name)).tail.head?
    Build.model name (Build.idField ::
      (match target with
        | none => []
        | some t => [Build.field "refId" "Int" .required [],
            Build.field "ref" t .required [Build.relation ["refId"] ["id"] []]]) ++
      (match back with
        | none => []
        | some b => [Build.field "backs" b .list []])) [])

theorem dropped_chain :
    (upPlanner Host.std .postgres (chain ["A", "B", "C"]).lowered (chain ["D"]).lowered).plan.map
      (fun stmts => stmts.filterMap (fun s => s.sql.droppedModel)) = some ["bs", "as", "cs"] := by
  decide +kernel

end Ruprizzle
