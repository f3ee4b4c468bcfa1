import Mathlib.Data.List.Induction
import Ruprizzle.Migrate.Shapes

namespace Ruprizzle

def StartsUpper (text : String) : Prop := text.toList.head?.any Char.isUpper = true

def EndsStatement (text : String) : Prop := text.toList.getLast? = some ';'

-- The text of a statement: it starts with a keyword and ends with a semicolon.
def Sentence (text : String) : Prop := StartsUpper text ∧ EndsStatement text

instance (text : String) : Decidable (StartsUpper text) := inferInstanceAs (Decidable (_ = _))

instance (text : String) : Decidable (EndsStatement text) := inferInstanceAs (Decidable (_ = _))

instance (text : String) : Decidable (Sentence text) :=
  inferInstanceAs (Decidable (_ ∧ _))

theorem StartsUpper.append {a : String} (h : StartsUpper a) (b : String) : StartsUpper (a ++ b) := by
  unfold StartsUpper at h ⊢
  rw [String.toList_append]
  cases ha : a.toList with
  | nil => simp [ha] at h
  | cons c rest => simpa [ha] using h

theorem EndsStatement.append {b : String} (h : EndsStatement b) (a : String) :
    EndsStatement (a ++ b) := by
  unfold EndsStatement at h ⊢
  rw [String.toList_append, List.getLast?_append, h]
  rfl

theorem Sentence.toList {text : String} (h : Sentence text) :
    ∃ c body, Char.isUpper c = true ∧ text.toList = c :: (body ++ [';']) := by
  obtain ⟨hstart, hend⟩ := h
  unfold StartsUpper at hstart
  unfold EndsStatement at hend
  cases htext : text.toList with
  | nil => simp [htext] at hstart
  | cons c rest =>
      rw [htext] at hstart hend
      have hc : Char.isUpper c = true := by simpa using hstart
      cases rest using List.reverseRecOn with
      | nil =>
          obtain rfl := Option.some.inj hend
          exact absurd hc (by decide)
      | append_singleton body d =>
          rw [← List.cons_append, List.getLast?_append] at hend
          have hd : d = ';' := by simpa using hend
          exact ⟨c, body, hc, by rw [hd]⟩

-- Statements whose text is known to be a sentence or a comment.
def Sql.Spoken : Sql → Prop
  | command text => Sentence text
  | inlineForeignKey _ => False
  | _ => True

def Spoken (stmts : List Stmt) : Prop := ∀ s ∈ stmts, s.sql.Spoken

namespace Spoken

variable {a b : List Stmt}

theorem nil : Spoken [] := by
  intro s hs
  cases hs

theorem append (ha : Spoken a) (hb : Spoken b) : Spoken (a ++ b) := by
  intro s hs
  rcases List.mem_append.mp hs with hs | hs
  · exact ha s hs
  · exact hb s hs

theorem single {s : Stmt} (h : s.sql.Spoken) : Spoken [s] := by
  intro t ht
  rwa [List.mem_singleton.mp ht]

theorem flatMap {α : Type} {l : List α} {f : α → List Stmt} (h : ∀ x ∈ l, Spoken (f x)) :
    Spoken (l.flatMap f) := by
  intro s hs
  obtain ⟨x, hx, hs⟩ := List.mem_flatMap.mp hs
  exact h x hx s hs

theorem of_shaped {shapes : List Sql.Shape} {stmts : List Stmt} (h : Shaped shapes stmts)
    (hnote : Sql.Shape.note ∉ shapes) (hfk : Sql.Shape.foreignKey ∉ shapes) : Spoken stmts := by
  intro s hs
  have hshape := h s hs
  cases hsql : s.sql <;> simp_all [Sql.Spoken, Stmt.shape, Sql.shape]

end Spoken

namespace Dialect

theorem spoken_embed {d : Dialect} {fks : List ForeignKeyClause} {closing : String} {sql : Sql}
    (h : sql.Spoken) : (sql.embed d fks closing).Spoken := by
  cases sql with
  | comment text =>
      simp only [Sql.embed]
      split <;> trivial
  | createTable t => trivial
  | _ => exact h

theorem spoken_createTableStmt (d : Dialect) (schema : Schema) (m : Model) :
    (d.createTableStmt schema m).sql.Spoken := by
  have hshape := shape_createTableStmt d schema m
  unfold createTableStmt at hshape ⊢
  cases hb : d.createTableBody schema m with
  | error e => trivial
  | ok stmt =>
      unfold createTableBody at hb
      cases hc : m.scalarFields.mapM (d.columnSpec schema) with
      | error e =>
          rw [hc] at hb
          cases hb
      | ok columns =>
          rw [hc] at hb
          cases hb
          trivial

theorem spoken_addColumn (d : Dialect) (schema : Schema) (m : Model) (f : Field) :
    Spoken (d.addColumn schema m f) := by
  cases d <;> dsimp only [addColumn, Postgres.addColumn, Mysql.addColumn, Sqlite.addColumn] <;>
    split <;> exact Spoken.single trivial

theorem spoken_alterColumn (d : Dialect) (schema : Schema) (m : Model) (f g : Field) :
    Spoken (d.alterColumn schema m f g) := by
  have hite : ∀ (c : Prop) [Decidable c] (s : Stmt), s.sql.Spoken →
      Spoken (if c then [s] else []) := by
    intro c _ s hs
    split
    · exact Spoken.single hs
    · exact Spoken.nil
  cases d with
  | postgres =>
      dsimp only [alterColumn, Postgres.alterColumn]
      refine Spoken.append (Spoken.append (Spoken.append (hite _ _ trivial) ?_) ?_) ?_
      · split
        · split <;> exact Spoken.single trivial
        · exact Spoken.nil
      · split
        · split <;> exact Spoken.single trivial
        · exact Spoken.nil
      · split
        · split <;> exact Spoken.single trivial
        · exact Spoken.nil
  | mysql =>
      dsimp only [alterColumn, Mysql.alterColumn]
      split
      · exact Spoken.single trivial
      · split <;> exact Spoken.single trivial
  | sqlite => exact Spoken.nil

theorem spoken_rebuildTable (d : Dialect) (schema : Schema) (target source : Model) (f g : Field) :
    Spoken (Sqlite.rebuildTable d schema target source f g) := by
  have hpragma : ∀ text : String, text ∈ ["PRAGMA foreign_keys=OFF;", "PRAGMA foreign_key_check;",
      "PRAGMA foreign_keys=ON;"] → Sentence text := by
    intro text htext
    simp only [List.mem_cons, List.not_mem_nil, or_false] at htext
    rcases htext with rfl | rfl | rfl <;> decide
  have hcreate := spoken_createTableStmt d schema (Sqlite.rebuiltModel target source f g)
  unfold Sqlite.rebuildTable
  intro s hs
  simp only [List.mem_append, List.mem_cons, List.not_mem_nil, or_false, List.mem_map,
    List.mem_filter] at hs
  rcases hs with (((((rfl | rfl) | hs) | (rfl | rfl)) | ⟨ix, _, rfl⟩) | ⟨u, _, rfl⟩) | (rfl | rfl)
  · exact hpragma _ (by simp)
  · split
    · exact hcreate
    · exact spoken_embed hcreate
  · split at hs
    · cases hs
    · rw [List.mem_singleton.mp hs]
      trivial
  · trivial
  · trivial
  · trivial
  · trivial
  · exact hpragma _ (by simp)
  · exact hpragma _ (by simp)

theorem spoken_fullAlterColumn (d : Dialect) (schema : Schema) (target source : Model)
    (f g : Field) : Spoken (d.fullAlterColumnWithSource schema target source f g) := by
  unfold fullAlterColumnWithSource
  split
  · exact spoken_alterColumn d schema target f g
  · exact spoken_rebuildTable d schema target source f g

theorem spoken_create (d : Dialect) (schema : Schema) (m : Model) :
    Spoken (if d.capabilities.addFkAfterCreate then d.createTable schema m
      else d.fullCreateTable schema m) := by
  have hcreate : Spoken (d.createTable schema m) := Spoken.single (spoken_createTableStmt d schema m)
  split
  · exact hcreate
  · rename_i hd
    unfold fullCreateTable
    dsimp only
    split
    · exact hcreate
    · split
      · exact hcreate
      · refine Spoken.append (fun s hs => hcreate s (List.dropLast_subset _ hs)) ?_
        intro s hs
        obtain ⟨last, hlast, rfl⟩ := List.mem_map.mp hs
        exact spoken_embed (hcreate last (List.mem_of_getLast? (Option.mem_toList.mp hlast)))

end Dialect

namespace Planner

theorem spoken_collect {f : Change → Option (List Stmt)} {cs : List Change} {out : List Stmt}
    (h : collect f cs = some out) (hf : ∀ c stmts, f c = some stmts → Spoken stmts) :
    Spoken out := by
  obtain ⟨hall, rfl⟩ := collect_eq_some.mp h
  refine Spoken.flatMap fun c hc => ?_
  obtain ⟨stmts, hs⟩ := hall c hc
  rw [hs]
  exact hf c stmts hs

theorem spoken_addAll {p : Planner} {current : Current} {cs : List Change} {out : List Stmt}
    (h : p.addAll current cs = some out) : Spoken out := by
  induction cs generalizing current out with
  | nil =>
      cases h
      exact Spoken.nil
  | cons c rest ih =>
      cases c with
      | addColumn model field =>
          obtain ⟨⟨stmts, current'⟩, hs, h⟩ := Option.bind_eq_some_iff.mp h
          obtain ⟨others, ho, h⟩ := Option.bind_eq_some_iff.mp h
          cases h
          refine Spoken.append ?_ (ih ho)
          obtain ⟨target, _, hs⟩ := Option.bind_eq_some_iff.mp hs
          cases hs
          unfold addColumnWithBackfill
          split
          · refine Spoken.append (Spoken.append ?_ ?_) (Dialect.spoken_fullAlterColumn _ _ _ _ _ _)
            · exact Dialect.spoken_addColumn _ _ _ _
            · exact Spoken.single trivial
          · exact Dialect.spoken_addColumn _ _ _ _
      | _ => exact ih h

theorem spoken_commands {texts : List String} (h : ∀ t ∈ texts, Sentence t) :
    Spoken (commands texts) := by
  intro s hs
  obtain ⟨t, ht, rfl⟩ := List.mem_map.mp hs
  exact h t ht

theorem spoken_deferral (p : Planner) : Spoken p.deferPreamble ∧ Spoken p.deferPostamble := by
  have hmap : ∀ stmts, Spoken stmts → Spoken (stmts.map Stmt.nonTransactional) := by
    intro stmts h s hs
    obtain ⟨t, ht, rfl⟩ := List.mem_map.mp hs
    exact h t ht
  unfold deferPreamble deferPostamble
  refine ⟨?_, ?_⟩
  · split
    · exact spoken_commands (by decide)
    · exact spoken_commands (by decide)
    · exact spoken_commands (by decide)
    · exact hmap _ (spoken_commands (by decide))
    · exact Spoken.nil
  · split
    · exact spoken_commands (by decide)
    · exact spoken_commands (by decide)
    · exact spoken_commands (by decide)
    · exact hmap _ (spoken_commands (by decide))
    · exact Spoken.nil

theorem spoken_extensions (p : Planner) :
    Spoken p.extensionsToCreate ∧ Spoken p.extensionsToDrop := by
  unfold extensionsToCreate extensionsToDrop
  refine ⟨?_, ?_⟩
  · split
    · exact Spoken.nil
    · intro s hs
      obtain ⟨e, _, rfl⟩ := List.mem_map.mp hs
      exact ⟨(StartsUpper.append (by decide) e).append ";", EndsStatement.append (by decide) _⟩
  · split
    · exact Spoken.nil
    · intro s hs
      obtain ⟨e, _, rfl⟩ := List.mem_map.mp hs
      exact ⟨(StartsUpper.append (by decide) e).append ";", EndsStatement.append (by decide) _⟩

theorem spoken_foreignKeys {p : Planner} {out : List Stmt} :
    (p.foreignKeysToAdd = some out → Spoken out) ∧ (p.foreignKeysToDrop = some out → Spoken out) := by
  constructor
  · intro h
    unfold foreignKeysToAdd at h
    split at h
    · rw [← Option.some.inj h]
      exact Spoken.nil
    · rename_i hd
      refine spoken_collect h fun c stmts hc => ?_
      cases c with
      | addForeignKey model r =>
          obtain ⟨m, _, rfl⟩ := of_lookup hc
          cases hdialect : p.dialect with
          | postgres =>
              dsimp only [Dialect.addForeignKey, Postgres.addForeignKey]
              split
              · exact Spoken.nil
              · exact Spoken.single trivial
          | mysql =>
              dsimp only [Dialect.addForeignKey, Mysql.addForeignKey]
              split
              · exact Spoken.nil
              · exact Spoken.single trivial
          | sqlite => simp [hdialect, Dialect.capabilities] at hd
      | _ =>
          cases hc
          exact Spoken.nil
  · intro h
    refine spoken_collect h fun c stmts hc => ?_
    cases c with
    | dropForeignKey model r =>
        obtain ⟨m, _, rfl⟩ := of_lookup hc
        cases p.dialect with
        | postgres =>
            dsimp only [Dialect.dropForeignKey, Postgres.dropForeignKey]
            split
            · exact Spoken.nil
            · exact Spoken.single trivial
        | mysql =>
            dsimp only [Dialect.dropForeignKey, Mysql.dropForeignKey]
            split
            · exact Spoken.nil
            · exact Spoken.single trivial
        | sqlite => exact Spoken.nil
    | _ =>
        cases hc
        exact Spoken.nil

-- Every statement of a plan is a sentence or a comment.
theorem spoken_plan {p : Planner} {out : List Stmt} (h : p.plan = some out) : Spoken out := by
  obtain ⟨ph, hph, hout⟩ := plan_eq_some.mp h
  have hs := hph.shapes
  have hcreates : Spoken ph.creates := by
    obtain ⟨ms, _, hc⟩ := Option.bind_eq_some_iff.mp hph.creates
    rw [← Option.some.inj hc]
    exact Spoken.flatMap fun m _ => Dialect.spoken_create _ _ m
  have hrenames : Spoken ph.renames := by
    refine spoken_collect hph.renames fun c stmts hc => ?_
    cases c with
    | renameColumn model a b ca cb =>
        obtain ⟨m, _, rfl⟩ := of_lookup hc
        split
        · exact Dialect.spoken_alterColumn _ _ _ _ _
        · exact Dialect.spoken_fullAlterColumn _ _ _ _ _ _
    | _ =>
        cases hc
        exact Spoken.nil
  have halters : Spoken ph.alters := by
    refine spoken_collect hph.alters fun c stmts hc => ?_
    cases c with
    | alterColumn model f g aspects =>
        obtain ⟨m, _, rfl⟩ := of_lookup hc
        exact Dialect.spoken_fullAlterColumn _ _ _ _ _ _
    | _ =>
        cases hc
        exact Spoken.nil
  have hindexes : Spoken ph.ixAdds ∧ Spoken ph.ixDrops := by
    constructor
    · refine spoken_collect hph.ixAdds fun c stmts hc => ?_
      cases c with
      | createIndex model ix =>
          obtain ⟨m, _, rfl⟩ := of_lookup hc
          cases p.dialect with
          | mysql =>
              dsimp only [Dialect.createIndex, Mysql.createIndex]
              split <;> exact Spoken.single trivial
          | postgres => exact Spoken.single trivial
          | sqlite => exact Spoken.single trivial
      | _ =>
          cases hc
          exact Spoken.nil
    · refine spoken_collect hph.ixDrops fun c stmts hc => ?_
      cases c with
      | dropIndex model name =>
          obtain ⟨m, _, rfl⟩ := of_lookup hc
          cases p.dialect <;> exact Spoken.single trivial
      | _ =>
          cases hc
          exact Spoken.nil
  have hvariants : Spoken p.enumVariantsToDrop := by
    intro s hmem
    obtain ⟨c, _, hc⟩ := List.mem_filterMap.mp hmem
    cases c with
    | dropEnumVariant enum v =>
        cases hc
        trivial
    | _ => cases hc
  have hdefer : ∀ stmts, Spoken stmts → Spoken (if ph.defer then stmts else []) := by
    intro stmts hstmts
    split
    · exact hstmts
    · exact Spoken.nil
  have hplain : ∀ {shapes : List Sql.Shape} {stmts : List Stmt}, Shaped shapes stmts →
      Sql.Shape.note ∉ shapes → Sql.Shape.foreignKey ∉ shapes → Spoken stmts := Spoken.of_shaped
  have hdefers := spoken_deferral p
  have hextensions := spoken_extensions p
  have henums := shaped_enums p
  intro s hmem
  rw [hout] at hmem
  unfold assemble at hmem
  simp only [List.mem_append] at hmem
  rcases hmem with (((((((((((((((((((h | h) | h) | h) | h) | h) | h) | h) | h) | h) | h) | h) | h) |
    h) | h) | h) | h) | h) | h) | h) | h
  · exact hdefer _ hdefers.1 s h
  · exact hextensions.1 s h
  · exact hplain henums.1 (by decide) (by decide) s h
  · exact hplain hs.variants (by decide) (by decide) s h
  · exact hcreates s h
  · exact spoken_addAll hph.adds s h
  · exact hplain hs.shadowed (by decide) (by decide) s h
  · exact hrenames s h
  · exact halters s h
  · exact spoken_foreignKeys.2 hph.fkDrops s h
  · exact hindexes.2 s h
  · exact hplain hs.uqDrops (by decide) (by decide) s h
  · exact hplain hs.uqAdds (by decide) (by decide) s h
  · exact hindexes.1 s h
  · exact spoken_foreignKeys.1 hph.fkAdds s h
  · exact hplain hs.drops (by decide) (by decide) s h
  · exact hplain hs.tables (by decide) (by decide) s h
  · exact hvariants s h
  · exact hplain henums.2.1 (by decide) (by decide) s h
  · exact hextensions.2 s h
  · exact hdefer _ hdefers.2 s h

end Planner

end Ruprizzle
