import Ruprizzle.Dialect.Shape
import Ruprizzle.Migrate.Panic

namespace Ruprizzle

-- Which kinds of statements each phase of a plan holds.
structure Phases.Shapes (ph : Phases) : Prop where
  variants : Shaped [.enum] ph.variants
  creates : Shaped [.createTable, .note] ph.creates
  adds : Shaped [.column, .createTable, .note, .moveTable, .dropOld, .index] ph.adds
  shadowed : Shaped [.column] ph.shadowed
  renames : Shaped [.column, .createTable, .note, .moveTable, .dropOld, .index] ph.renames
  alters : Shaped [.column, .createTable, .note, .moveTable, .dropOld, .index] ph.alters
  fkDrops : Shaped [.foreignKey, .unique] ph.fkDrops
  ixDrops : Shaped [.index, .note] ph.ixDrops
  uqDrops : Shaped [.index, .unique] ph.uqDrops
  uqAdds : Shaped [.index, .unique] ph.uqAdds
  ixAdds : Shaped [.index, .note] ph.ixAdds
  fkAdds : Shaped [.foreignKey] ph.fkAdds
  drops : Shaped [.column] ph.drops
  tables : Shaped [.dropTable] ph.tables

namespace Planner

theorem shaped_collect {shapes : List Sql.Shape} {f : Change → Option (List Stmt)}
    {cs : List Change} {out : List Stmt} (h : collect f cs = some out)
    (hf : ∀ c stmts, f c = some stmts → Shaped shapes stmts) : Shaped shapes out := by
  obtain ⟨hall, rfl⟩ := collect_eq_some.mp h
  refine Shaped.flatMap fun c hc => ?_
  obtain ⟨stmts, hs⟩ := hall c hc
  rw [hs]
  exact hf c stmts hs

-- A lookup that succeeded has applied its function to a model.
theorem of_lookup {p : Planner} {model : ModelName} {f : Model → List Stmt} {stmts : List Stmt}
    (h : (do return f (← p.model model)) = some stmts) :
    ∃ m, p.model model = some m ∧ stmts = f m := by
  obtain ⟨m, hm, hs⟩ := Option.bind_eq_some_iff.mp h
  exact ⟨m, hm, (Option.some.inj hs).symm⟩

theorem shaped_dropStep {p : Planner} {model : ModelName} {column : String} {stmts : List Stmt}
    (h : p.dropStep model column = some stmts) : Shaped [.column] stmts := by
  obtain ⟨m, _, rfl⟩ := of_lookup h
  exact Shaped.single (by simp [Stmt.shape, Sql.shape])

theorem shaped_renameStep {p : Planner} {model : ModelName} {a b : FieldName} {ca cb : String}
    {stmts : List Stmt} (h : p.renameStep model a b ca cb = some stmts) :
    Shaped [.column, .createTable, .note, .moveTable, .dropOld, .index] stmts := by
  obtain ⟨m, _, rfl⟩ := of_lookup h
  split
  · exact (Dialect.shape_columnOps _ _ _ _ _).2.mono (by simp)
  · exact Dialect.shape_fullAlterColumn _ _ _ _ _ _

theorem shaped_alterStep {p : Planner} {model : ModelName} {f g : Field} {stmts : List Stmt}
    (h : p.alterStep model f g = some stmts) :
    Shaped [.column, .createTable, .note, .moveTable, .dropOld, .index] stmts := by
  obtain ⟨m, _, rfl⟩ := of_lookup h
  exact Dialect.shape_fullAlterColumn _ _ _ _ _ _

theorem shaped_addColumnWithBackfill (p : Planner) (target source : Model) (field : Field) :
    Shaped [.column, .createTable, .note, .moveTable, .dropOld, .index]
      (p.addColumnWithBackfill target source field) := by
  unfold addColumnWithBackfill
  split
  · refine Shaped.append (Shaped.append ?_ ?_) (Dialect.shape_fullAlterColumn _ _ _ _ _ _)
    · exact (Dialect.shape_columnOps _ _ _ _ field).1.mono (by simp)
    · exact Shaped.single (by simp [Stmt.shape, Sql.shape, backfillComment])
  · exact (Dialect.shape_columnOps _ _ _ _ field).1.mono (by simp)

theorem shaped_addAll {p : Planner} {current : Current} {cs : List Change} {out : List Stmt}
    (h : p.addAll current cs = some out) :
    Shaped [.column, .createTable, .note, .moveTable, .dropOld, .index] out := by
  induction cs generalizing current out with
  | nil =>
      cases h
      exact Shaped.nil
  | cons c rest ih =>
      cases c with
      | addColumn model field =>
          obtain ⟨⟨stmts, current'⟩, hs, h⟩ := Option.bind_eq_some_iff.mp h
          obtain ⟨others, ho, h⟩ := Option.bind_eq_some_iff.mp h
          cases h
          refine Shaped.append ?_ (ih ho)
          obtain ⟨target, _, hs⟩ := Option.bind_eq_some_iff.mp hs
          cases hs
          exact shaped_addColumnWithBackfill p _ _ field
      | _ => exact ih h

theorem shaped_modelsToCreate {p : Planner} {out : List Stmt} (h : p.modelsToCreate = some out) :
    Shaped [.createTable, .note] out := by
  obtain ⟨ms, _, h⟩ := Option.bind_eq_some_iff.mp h
  cases h
  refine Shaped.flatMap fun m _ => ?_
  split
  · exact Dialect.shape_createTable _ _ _
  · rename_i hd
    exact Dialect.shape_fullCreateTable _ _ _ (by simpa using hd)

-- The tables dropped are those of the sorted list, in its order.
theorem modelsToDrop_eq_some {p : Planner} {out : List Stmt} (h : p.modelsToDrop = some out) :
    ∃ ts, p.host.sortBy.sort (tableDependencyOrder p.prev) p.droppedTables = some ts ∧
      ∃ cascades : String → Bool, out = ts.map fun table =>
        Stmt.destructive (Stmt.new (.dropTable table true (cascades table))) := by
  obtain ⟨ts, hts, h⟩ := Option.bind_eq_some_iff.mp h
  obtain ⟨cycle, _, h⟩ := Option.bind_eq_some_iff.mp h
  cases h
  refine ⟨ts, hts, fun table => p.needsCascade && cycle.contains table, ?_⟩
  rw [List.map_eq_flatMap]
  refine List.flatMap_congr fun table _ => ?_
  by_cases hc : (p.needsCascade && cycle.contains table) = true
  · simp only [hc, ite_true]
    rfl
  · simp only [Bool.not_eq_true] at hc
    simp only [hc, Bool.false_eq_true, ite_false]
    rfl

theorem Yields.shapes {p : Planner} {ph : Phases} (h : p.Yields ph) : ph.Shapes where
  variants := by
    refine shaped_collect h.variants fun c stmts hc => ?_
    cases c with
    | addEnumVariant enum v =>
        obtain ⟨e, _, hs⟩ := Option.bind_eq_some_iff.mp hc
        cases hs
        exact (Dialect.shape_enumOps _ e v).2
    | _ =>
        cases hc
        exact Shaped.nil
  creates := shaped_modelsToCreate h.creates
  adds := shaped_addAll h.adds
  shadowed := by
    refine shaped_collect h.shadowed fun c stmts hc => ?_
    cases c with
    | dropColumn model column =>
        dsimp only at hc
        split at hc
        · exact shaped_dropStep hc
        · cases hc
          exact Shaped.nil
    | _ =>
        cases hc
        exact Shaped.nil
  renames := by
    refine shaped_collect h.renames fun c stmts hc => ?_
    cases c with
    | renameColumn model a b ca cb => exact shaped_renameStep hc
    | _ =>
        cases hc
        exact Shaped.nil
  alters := by
    refine shaped_collect h.alters fun c stmts hc => ?_
    cases c with
    | alterColumn model f g aspects => exact shaped_alterStep hc
    | _ =>
        cases hc
        exact Shaped.nil
  fkDrops := by
    refine shaped_collect h.fkDrops fun c stmts hc => ?_
    cases c with
    | dropForeignKey model r =>
        obtain ⟨m, _, rfl⟩ := of_lookup hc
        exact (Dialect.shape_foreignKeyOps _ m r).2
    | _ =>
        cases hc
        exact Shaped.nil
  ixDrops := by
    refine shaped_collect h.ixDrops fun c stmts hc => ?_
    cases c with
    | dropIndex model name =>
        obtain ⟨m, _, rfl⟩ := of_lookup hc
        exact (Dialect.shape_indexOps _ m ⟨"", [], none, none, Span.EMPTY⟩ ⟨"", [], Span.EMPTY⟩
          m.table name).2.1
    | _ =>
        cases hc
        exact Shaped.nil
  uqDrops := by
    refine shaped_collect h.uqDrops fun c stmts hc => ?_
    cases c with
    | dropUnique model name =>
        obtain ⟨m, _, rfl⟩ := of_lookup hc
        exact (Dialect.shape_indexOps _ m ⟨"", [], none, none, Span.EMPTY⟩ ⟨"", [], Span.EMPTY⟩
          m.table name).2.2.2
    | _ =>
        cases hc
        exact Shaped.nil
  uqAdds := by
    refine shaped_collect h.uqAdds fun c stmts hc => ?_
    cases c with
    | addUnique model uq =>
        obtain ⟨m, _, rfl⟩ := of_lookup hc
        exact (Dialect.shape_indexOps _ m ⟨"", [], none, none, Span.EMPTY⟩ uq "" "").2.2.1
    | _ =>
        cases hc
        exact Shaped.nil
  ixAdds := by
    refine shaped_collect h.ixAdds fun c stmts hc => ?_
    cases c with
    | createIndex model ix =>
        obtain ⟨m, _, rfl⟩ := of_lookup hc
        exact (Dialect.shape_indexOps _ m ix ⟨"", [], Span.EMPTY⟩ "" "").1
    | _ =>
        cases hc
        exact Shaped.nil
  fkAdds := by
    have hfk := h.fkAdds
    unfold foreignKeysToAdd at hfk
    split at hfk
    · rw [← Option.some.inj hfk]
      exact Shaped.nil
    · refine shaped_collect hfk fun c stmts hc => ?_
      cases c with
      | addForeignKey model r =>
          obtain ⟨m, _, rfl⟩ := of_lookup hc
          exact (Dialect.shape_foreignKeyOps _ m r).1
      | _ =>
          cases hc
          exact Shaped.nil
  drops := by
    refine shaped_collect h.drops fun c stmts hc => ?_
    cases c with
    | dropColumn model column =>
        dsimp only at hc
        split at hc
        · cases hc
          exact Shaped.nil
        · exact shaped_dropStep hc
    | _ =>
        cases hc
        exact Shaped.nil
  tables := by
    obtain ⟨ts, _, cascades, hout⟩ := modelsToDrop_eq_some h.tables
    rw [hout]
    intro s hs
    obtain ⟨t, _, rfl⟩ := List.mem_map.mp hs
    simp [Stmt.shape, Sql.shape]

theorem shaped_commands (texts : List String) : Shaped [.note] (commands texts) := by
  intro s hs
  obtain ⟨t, _, rfl⟩ := List.mem_map.mp hs
  simp [Stmt.shape, Sql.shape]

theorem shaped_deferral (p : Planner) :
    Shaped [.note] p.deferPreamble ∧ Shaped [.note] p.deferPostamble := by
  have hmap : ∀ texts, Shaped [.note] ((commands texts).map Stmt.nonTransactional) := by
    intro texts s hs
    obtain ⟨t, ht, rfl⟩ := List.mem_map.mp hs
    exact shaped_commands texts t ht
  unfold deferPreamble deferPostamble
  refine ⟨?_, ?_⟩ <;> split <;> first | exact shaped_commands _ | exact hmap _ | exact Shaped.nil

theorem shaped_extensions (p : Planner) :
    Shaped [.note] p.extensionsToCreate ∧ Shaped [.note] p.extensionsToDrop := by
  unfold extensionsToCreate extensionsToDrop
  refine ⟨?_, ?_⟩
  · split
    · exact Shaped.nil
    · intro s hs
      obtain ⟨e, _, rfl⟩ := List.mem_map.mp hs
      simp [Stmt.shape, Sql.shape]
  · split
    · exact Shaped.nil
    · intro s hs
      obtain ⟨e, _, rfl⟩ := List.mem_map.mp hs
      simp [Stmt.shape, Sql.shape]

theorem shaped_enums (p : Planner) : Shaped [.enum] p.enumsToCreate ∧
    Shaped [.enum] p.enumsToDrop ∧ Shaped [.note] p.enumVariantsToDrop := by
  unfold enumsToCreate enumsToDrop enumVariantsToDrop
  refine ⟨Shaped.flatMap fun c _ => ?_, Shaped.flatMap fun c _ => ?_, fun s hs => ?_⟩
  · cases c with
    | createEnum e => exact (Dialect.shape_enumOps _ e "").1
    | _ => exact Shaped.nil
  · cases c with
    | dropEnum name dbName =>
        dsimp only
        split
        · exact Shaped.single (by simp [Stmt.shape, Sql.shape])
        · exact Shaped.nil
    | _ => exact Shaped.nil
  · obtain ⟨c, _, hc⟩ := List.mem_filterMap.mp hs
    cases c with
    | dropEnumVariant enum v =>
        cases hc
        simp [Stmt.shape, Sql.shape]
    | _ => cases hc

end Planner

end Ruprizzle
