import Ruprizzle.Dialect.DbDialect

namespace Ruprizzle

-- The kinds of statements, as coarse as the order of a plan needs them.
inductive Sql.Shape
  | note
  | createTable
  | dropTable
  | dropOld
  | moveTable
  | column
  | index
  | unique
  | foreignKey
  | enum
  deriving DecidableEq

namespace Sql

-- A rebuild drops the old table without asking whether it exists.
def shape : Sql → Shape
  | comment _ | command _ => .note
  | createTable _ => .createTable
  | dropTable _ true _ => .dropTable
  | dropTable _ false _ => .dropOld
  | renameTable _ _ | insertSelect _ _ _ _ => .moveTable
  | addColumn _ _ | dropColumn _ _ | renameColumn _ _ _ | alterType _ _ _ | setDefault _ _ _
  | dropDefault _ _ | setNotNull _ _ | dropNotNull _ _ | modifyColumn _ _ | changeColumn _ _ _ =>
      .column
  | createIndex _ | dropIndex _ | dropIndexOn _ _ => .index
  | addUnique _ _ | dropConstraint _ _ => .unique
  | addForeignKey _ _ | dropForeignKey _ _ | inlineForeignKey _ => .foreignKey
  | createType _ _ | addValue _ _ | dropType _ => .enum

@[simp] theorem shape_embed (d : Dialect) (fks : List ForeignKeyClause) (closing : String)
    (sql : Sql) : (sql.embed d fks closing).shape = sql.shape := by
  cases sql with
  | comment text =>
      simp only [embed]
      split <;> rfl
  | _ => rfl

end Sql

def Stmt.shape (s : Stmt) : Sql.Shape := s.sql.shape

-- Every statement of a list has one of the shapes.
def Shaped (shapes : List Sql.Shape) (stmts : List Stmt) : Prop := ∀ s ∈ stmts, s.shape ∈ shapes

namespace Shaped

variable {shapes shapes' : List Sql.Shape} {a b : List Stmt}

theorem nil : Shaped shapes [] := by
  intro s hs
  simp at hs

theorem append (ha : Shaped shapes a) (hb : Shaped shapes b) : Shaped shapes (a ++ b) := by
  intro s hs
  rcases List.mem_append.mp hs with hs | hs
  · exact ha s hs
  · exact hb s hs

theorem mono (ha : Shaped shapes a) (h : shapes ⊆ shapes') : Shaped shapes' a :=
  fun s hs => h (ha s hs)

theorem single {s : Stmt} (h : s.shape ∈ shapes) : Shaped shapes [s] := by
  intro t ht
  rwa [List.mem_singleton.mp ht]

theorem flatMap {α : Type} {l : List α} {f : α → List Stmt} (h : ∀ x ∈ l, Shaped shapes (f x)) :
    Shaped shapes (l.flatMap f) := by
  intro s hs
  obtain ⟨x, hx, hs⟩ := List.mem_flatMap.mp hs
  exact h x hx s hs

end Shaped

namespace Dialect

theorem shape_createTableStmt (d : Dialect) (schema : Schema) (m : Model) :
    (d.createTableStmt schema m).shape ∈ [Sql.Shape.createTable, Sql.Shape.note] := by
  unfold createTableStmt
  cases h : d.createTableBody schema m with
  | error e => simp [errorStmt, Stmt.shape, Sql.shape]
  | ok stmt =>
      unfold createTableBody at h
      cases hc : m.scalarFields.mapM (d.columnSpec schema) with
      | error e =>
          rw [hc] at h
          cases h
      | ok columns =>
          rw [hc] at h
          cases h
          simp [Stmt.shape, Sql.shape]

theorem shape_createTable (d : Dialect) (schema : Schema) (m : Model) :
    Shaped [.createTable, .note] (d.createTable schema m) :=
  Shaped.single (shape_createTableStmt d schema m)

theorem shape_columnOps (d : Dialect) (schema : Schema) (m : Model) (f g : Field) :
    Shaped [.column, .note] (d.addColumn schema m f) ∧
      Shaped [.column, .note] (d.alterColumn schema m f g) := by
  cases d with
  | postgres =>
      refine ⟨?_, ?_⟩
      · dsimp only [addColumn, Postgres.addColumn]
        split <;> exact Shaped.single (by simp [Stmt.shape, Sql.shape])
      · dsimp only [alterColumn, Postgres.alterColumn]
        refine Shaped.append (Shaped.append (Shaped.append ?_ ?_) ?_) ?_
        · split
          · exact Shaped.single (by simp [Stmt.shape, Sql.shape])
          · exact Shaped.nil
        · split
          · split <;> exact Shaped.single (by simp [errorStmt, Stmt.shape, Sql.shape])
          · exact Shaped.nil
        · split
          · split <;> exact Shaped.single (by simp [Stmt.shape, Sql.shape])
          · exact Shaped.nil
        · split
          · split <;> exact Shaped.single (by simp [Stmt.shape, Sql.shape])
          · exact Shaped.nil
  | mysql =>
      refine ⟨?_, ?_⟩
      · dsimp only [addColumn, Mysql.addColumn]
        split <;> exact Shaped.single (by simp [errorStmt, Stmt.shape, Sql.shape])
      · dsimp only [alterColumn, Mysql.alterColumn]
        split
        · exact Shaped.single (by simp [errorStmt, Stmt.shape, Sql.shape])
        · split <;> exact Shaped.single (by simp [Stmt.shape, Sql.shape])
  | sqlite =>
      refine ⟨?_, Shaped.nil⟩
      dsimp only [addColumn, Sqlite.addColumn]
      split <;> exact Shaped.single (by simp [errorStmt, Stmt.shape, Sql.shape])

theorem shape_rebuildTable (d : Dialect) (schema : Schema) (target source : Model) (f g : Field) :
    Shaped [.createTable, .note, .moveTable, .dropOld, .index]
      (Sqlite.rebuildTable d schema target source f g) := by
  unfold Sqlite.rebuildTable
  intro s hs
  simp only [List.mem_append, List.mem_cons, List.not_mem_nil, or_false, List.mem_map,
    List.mem_filter] at hs
  rcases hs with (((((rfl | rfl) | hs) | (rfl | rfl)) | ⟨ix, _, rfl⟩) | ⟨u, _, rfl⟩) | (rfl | rfl)
  · simp [Stmt.shape, Sql.shape]
  · have hbody := shape_createTableStmt d schema (Sqlite.rebuiltModel target source f g)
    have hmem : ∀ x : Sql.Shape, x ∈ [Sql.Shape.createTable, Sql.Shape.note] →
        x ∈ [Sql.Shape.createTable, .note, .moveTable, .dropOld, .index] := by
      intro x hx
      simp only [List.mem_cons, List.not_mem_nil, or_false] at hx ⊢
      tauto
    split
    · exact hmem _ hbody
    · exact hmem _ (by simpa only [Stmt.shape, Sql.shape_embed] using hbody)
  · split at hs
    · simp at hs
    · rw [List.mem_singleton.mp hs]
      simp [Stmt.shape, Sql.shape]
  all_goals simp [Stmt.shape, Sql.shape]

theorem shape_fullCreateTable (d : Dialect) (schema : Schema) (m : Model)
    (hd : d.capabilities.addFkAfterCreate = false) :
    Shaped [.createTable, .note] (d.fullCreateTable schema m) := by
  have hcreate := shape_createTable d schema m
  unfold fullCreateTable
  dsimp only
  split
  · exact hcreate
  · rw [hd]
    simp only [Bool.false_eq_true, ite_false]
    split
    · exact hcreate
    · refine Shaped.append (fun s hs => hcreate s (List.dropLast_subset _ hs)) ?_
      intro s hs
      obtain ⟨last, hlast, rfl⟩ := List.mem_map.mp hs
      have hmem : last ∈ d.createTable schema m :=
        List.mem_of_getLast? (Option.mem_toList.mp hlast)
      simpa only [Stmt.shape, Sql.shape_embed] using hcreate last hmem

theorem shape_fullAlterColumn (d : Dialect) (schema : Schema) (target source : Model)
    (f g : Field) :
    Shaped [.column, .createTable, .note, .moveTable, .dropOld, .index]
      (d.fullAlterColumnWithSource schema target source f g) := by
  unfold fullAlterColumnWithSource
  split
  · exact (shape_columnOps d schema target f g).2.mono (by simp)
  · exact (shape_rebuildTable d schema target source f g).mono (by simp)

theorem shape_indexOps (d : Dialect) (m : Model) (ix : IndexDef) (uq : UniqueDef)
    (table name : String) :
    Shaped [.index, .note] (d.createIndex m ix) ∧ Shaped [.index, .note] (d.dropIndex table name) ∧
      Shaped [.index, .unique] (d.addUnique m uq) ∧
        Shaped [.index, .unique] (d.dropUnique table name) := by
  cases d with
  | mysql =>
      refine ⟨?_, Shaped.single (by simp [Stmt.shape, Sql.shape]),
        Shaped.single (by simp [Stmt.shape, Sql.shape]),
        Shaped.single (by simp [Stmt.shape, Sql.shape])⟩
      dsimp only [createIndex, Mysql.createIndex]
      split <;> exact Shaped.single (by simp [Stmt.shape, Sql.shape])
  | postgres =>
      exact ⟨Shaped.single (by simp [Stmt.shape, Sql.shape]),
        Shaped.single (by simp [Stmt.shape, Sql.shape]),
        Shaped.single (by simp [Stmt.shape, Sql.shape]),
        Shaped.single (by simp [Stmt.shape, Sql.shape])⟩
  | sqlite =>
      exact ⟨Shaped.single (by simp [Stmt.shape, Sql.shape]),
        Shaped.single (by simp [Stmt.shape, Sql.shape]),
        Shaped.single (by simp [Stmt.shape, Sql.shape]),
        Shaped.single (by simp [Stmt.shape, Sql.shape])⟩

theorem shape_foreignKeyOps (d : Dialect) (m : Model) (r : ResolvedRelation) :
    Shaped [.foreignKey] (d.addForeignKey m r) ∧
      Shaped [.foreignKey, .unique] (d.dropForeignKey m r) := by
  cases d with
  | postgres =>
      dsimp only [addForeignKey, dropForeignKey, Postgres.addForeignKey, Postgres.dropForeignKey]
      split
      · exact ⟨Shaped.nil, Shaped.nil⟩
      · exact ⟨Shaped.single (by simp [Stmt.shape, Sql.shape]),
          Shaped.single (by simp [Stmt.shape, Sql.shape])⟩
  | mysql =>
      dsimp only [addForeignKey, dropForeignKey, Mysql.addForeignKey, Mysql.dropForeignKey]
      split
      · exact ⟨Shaped.nil, Shaped.nil⟩
      · exact ⟨Shaped.single (by simp [Stmt.shape, Sql.shape]),
          Shaped.single (by simp [Stmt.shape, Sql.shape])⟩
  | sqlite =>
      dsimp only [addForeignKey, dropForeignKey, Sqlite.addForeignKey]
      split
      · exact ⟨Shaped.nil, Shaped.nil⟩
      · exact ⟨Shaped.single (by simp [Stmt.shape, Sql.shape]), Shaped.nil⟩

theorem shape_enumOps (d : Dialect) (e : EnumDef) (variant : String) :
    Shaped [.enum] (d.createEnum e) ∧ Shaped [.enum] (d.alterEnumAddVariant e variant) := by
  cases d with
  | postgres =>
      exact ⟨Shaped.single (by simp [Stmt.shape, Sql.shape]),
        Shaped.single (by simp [Stmt.shape, Sql.shape])⟩
  | mysql => exact ⟨Shaped.nil, Shaped.nil⟩
  | sqlite => exact ⟨Shaped.nil, Shaped.nil⟩

end Dialect

end Ruprizzle
