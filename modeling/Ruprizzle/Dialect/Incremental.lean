import Ruprizzle.Data.Run
import Ruprizzle.Dialect.DbDialect
import Ruprizzle.Parser.Build

namespace Ruprizzle

-- What an engine keeps of a column.
structure StoredColumn where
  name : String
  type : SqlType
  notNull : Bool
  default : Option String
  generated : Option GeneratedClause
  identity : Bool
  key : Bool
  unique : Bool
  deriving DecidableEq, Repr

-- What a column is, whichever constraint makes it unique.
structure ColumnDefinition where
  name : String
  type : SqlType
  nullable : Bool
  default : Option String
  generated : Option GeneratedClause
  identity : Bool
  unique : Bool
  deriving DecidableEq, Repr

def StoredColumn.definition (c : StoredColumn) : ColumnDefinition :=
  ⟨c.name, c.type, !c.notNull, c.default, c.generated, c.identity, c.unique || c.key⟩

-- A key column is not null, said or not.
def ColumnSpec.stored (c : ColumnSpec) : StoredColumn :=
  ⟨c.name, c.sqlType, c.notNull || c.primaryKey, c.default, c.generated, c.identity, c.primaryKey,
    c.unique⟩

-- The place of one column in a table, and whether the table has a primary key.
structure ColumnSlot where
  column : Option StoredColumn
  keyed : Bool
  deriving DecidableEq, Repr

namespace ColumnSlot

def change (s : ColumnSlot) (name : String) (g : StoredColumn → StoredColumn) : Option ColumnSlot :=
  match s.column with
  | some c => if c.name = name then some { s with column := some (g c) } else none
  | none => none

-- A table has one primary key.
def add (s : ColumnSlot) (spec : ColumnSpec) : Option ColumnSlot :=
  if s.column.isSome ∨ (s.keyed ∧ spec.primaryKey) then none
  else some ⟨some spec.stored, s.keyed || spec.primaryKey⟩

-- MODIFY and CHANGE state a column anew; the indexes it is in stay.
def redefine (s : ColumnSlot) (name : String) (spec : ColumnSpec) : Option ColumnSlot :=
  match s.column with
  | some c =>
      if c.name ≠ name ∨ (s.keyed ∧ spec.primaryKey) ∨ (c.key ∧ !spec.stored.notNull) then none
      else some ⟨some { spec.stored with
        key := c.key || spec.primaryKey, unique := c.unique || spec.unique },
        s.keyed || spec.primaryKey⟩
  | none => none

def dropNotNull (s : ColumnSlot) (name : String) : Option ColumnSlot :=
  match s.column with
  | some c => if c.key then none else s.change name fun c => { c with notNull := false }
  | none => none

-- What a statement about the column makes of it; none where the engine refuses.
def step (s : ColumnSlot) : Sql → Option ColumnSlot
  | .addColumn _ spec => s.add spec
  | .renameColumn _ column newName => s.change column fun c => { c with name := newName }
  | .alterType _ column ty => s.change column fun c => { c with type := ty }
  | .setDefault _ column e => s.change column fun c => { c with default := some e }
  | .dropDefault _ column => s.change column fun c => { c with default := none }
  | .setNotNull _ column => s.change column fun c => { c with notNull := true }
  | .dropNotNull _ column => s.dropNotNull column
  | .modifyColumn _ spec => s.redefine spec.name spec
  | .changeColumn _ column spec => s.redefine column spec
  | _ => some s

def run (s : ColumnSlot) (stmts : List Stmt) : Option ColumnSlot :=
  stmts.foldlM (fun s stmt => s.step stmt.sql) s

theorem run_append (s : ColumnSlot) (l l' : List Stmt) :
    s.run (l ++ l') = (s.run l).bind (fun t => t.run l') :=
  Run.foldlM_append s l l'

theorem run_append_some {s t : ColumnSlot} {l l' : List Stmt} (h : s.run l = some t) :
    s.run (l ++ l') = t.run l' := by
  rw [run_append, h, Option.bind_some]

@[simp] theorem run_nil (s : ColumnSlot) : s.run [] = some s := rfl

@[simp] theorem run_new (s : ColumnSlot) (sql : Sql) : s.run [Stmt.new sql] = s.step sql := by
  unfold run
  simp

theorem change_self {c : StoredColumn} {keyed : Bool} {g : StoredColumn → StoredColumn} :
    (⟨some c, keyed⟩ : ColumnSlot).change c.name g = some ⟨some (g c), keyed⟩ := by
  simp [change]

end ColumnSlot

namespace Dialect

theorem columnDefault_eq (d : Dialect) (f : Field) :
    d.columnDefault f = if d.defaultSql f = "" then none else some (d.defaultSql f) := by
  unfold columnDefault
  cases hd : f.default with
  | none => simp [defaultSql, hd]
  | some value =>
      cases value with
      | function func => cases func <;> cases d <;> simp [DefaultFn.isClientSide, defaultSql, hd]
      | _ => rfl

-- What a column specification takes from its field.
structure Specified (d : Dialect) (f : Field) (spec : ColumnSpec) : Prop where
  type : d.columnType f = .ok spec.sqlType
  name : spec.name = f.column
  notNull : spec.notNull = !f.optional
  default : spec.default = d.columnDefault f
  primaryKey : spec.primaryKey = f.attrs.isId
  unique : spec.unique = (f.attrs.isUnique && !f.attrs.isId)
  identity : spec.identity = decide (f.default = some (.function .autoIncrement))
  generated : spec.generated = f.generated

theorem specified_of_columnSpec {d : Dialect} {schema : Schema} {f : Field} {spec : ColumnSpec}
    (h : d.columnSpec schema f = .ok spec) : d.Specified f spec := by
  unfold columnSpec at h
  cases ht : d.columnType f with
  | error e =>
      rw [ht] at h
      cases h
  | ok sqlType =>
      rw [ht] at h
      cases h
      exact ⟨ht, rfl, rfl, rfl, rfl, rfl, rfl, rfl⟩

-- The column a field gets when it is added to a table that is there, or when
-- the column of another field is changed into it.
def added (d : Dialect) (schema : Schema) (m : Model) (f : Field) (keyed : Bool) :
    Option ColumnSlot :=
  ColumnSlot.run ⟨none, keyed⟩ (d.addColumn schema m f)

def altered (d : Dialect) (schema : Schema) (m : Model) (fromField toField : Field)
    (before : ColumnSpec) (keyed : Bool) : Option ColumnSlot :=
  ColumnSlot.run ⟨some before.stored, keyed⟩ (d.alterColumn schema m fromField toField)

-- It has the definition CREATE TABLE would have given it.
def AsCreated (full : ColumnSpec) (after : Option ColumnSlot) : Prop :=
  (after.bind ColumnSlot.column).map StoredColumn.definition = some full.stored.definition

instance (full : ColumnSpec) (after : Option ColumnSlot) : Decidable (AsCreated full after) :=
  inferInstanceAs (Decidable (_ = _))

end Dialect

open Dialect

namespace Postgres

-- ADD COLUMN states the type, NULL and the default.
theorem added_eq {schema : Schema} {m : Model} {f : Field} {full : ColumnSpec} {keyed : Bool}
    (h : Specified .postgres f full) : added .postgres schema m f keyed =
      some ⟨some ⟨full.name, full.sqlType, full.notNull, full.default, none, false, false, false⟩,
        keyed⟩ := by
  unfold added Dialect.addColumn
  simp only [Postgres.addColumn, h.type, ColumnSlot.run_new, ColumnSlot.step, ColumnSlot.add]
  simp [ColumnSpec.stored, h.name, h.notNull, h.default, columnDefault_eq]

def AddsAsCreated (f : Field) : Prop :=
  f.attrs.isId = false ∧ f.attrs.isUnique = false ∧ f.generated = none ∧
    f.default ≠ some (.function .autoIncrement)

theorem asCreated_added_iff {schema : Schema} {m : Model} {f : Field} {full : ColumnSpec}
    {keyed : Bool} (h : Specified .postgres f full) :
    AsCreated full (added .postgres schema m f keyed) ↔ AddsAsCreated f := by
  rw [added_eq h]
  simp only [AsCreated, Option.bind_some, Option.map_some, Option.some.injEq,
    StoredColumn.definition, ColumnSpec.stored, ColumnDefinition.mk.injEq, h.primaryKey, h.unique,
    h.identity, h.generated]
  unfold AddsAsCreated
  cases f.attrs.isId <;> cases f.attrs.isUnique <;> simp [@eq_comm _ none]

section AlterColumn

variable {m : Model} {fromField toField : Field} {c : StoredColumn} {keyed : Bool}

theorem run_rename (hc : c.name = fromField.column) :
    ColumnSlot.run ⟨some c, keyed⟩ (if fromField.column ≠ toField.column then
      [Stmt.new (.renameColumn m.table fromField.column toField.column)] else []) =
      some ⟨some { c with name := toField.column }, keyed⟩ := by
  split
  · rw [ColumnSlot.run_new]
    simp only [ColumnSlot.step, ← hc, ColumnSlot.change_self]
  · rename_i h
    rw [ColumnSlot.run_nil, ← not_not.mp h, ← hc]

theorem run_alterType {ty : SqlType} (hc : c.name = toField.column)
    (hty : columnType .postgres toField = .ok ty) :
    ColumnSlot.run ⟨some c, keyed⟩ (if fromField.kind ≠ toField.kind then
      match columnType .postgres toField with
      | .ok sqlType => [Stmt.new (.alterType m.table toField.column sqlType)]
      | .error e => [errorStmt e] else []) =
      some ⟨some { c with type := if fromField.kind ≠ toField.kind then ty else c.type }, keyed⟩ := by
  split
  · rw [hty]
    simp only [ColumnSlot.run_new, ColumnSlot.step, ← hc, ColumnSlot.change_self]
  · rfl

-- The two defaults are compared as the text they are written as.
theorem run_alterDefault (hc : c.name = toField.column)
    (hd : c.default = columnDefault .postgres fromField) :
    ColumnSlot.run ⟨some c, keyed⟩ (if defaultSql .postgres fromField ≠ defaultSql .postgres toField then
      if defaultSql .postgres toField = "" then [Stmt.new (.dropDefault m.table toField.column)]
      else [Stmt.new (.setDefault m.table toField.column (defaultSql .postgres toField))] else []) =
      some ⟨some { c with default := columnDefault .postgres toField }, keyed⟩ := by
  split
  · split
    · rename_i hempty
      simp only [ColumnSlot.run_new, ColumnSlot.step, ← hc, ColumnSlot.change_self,
        columnDefault_eq, hempty, ite_true]
    · rename_i hsome
      simp only [ColumnSlot.run_new, ColumnSlot.step, ← hc, ColumnSlot.change_self,
        columnDefault_eq, hsome, ite_false]
  · rename_i h
    rw [ColumnSlot.run_nil, columnDefault_eq, ← not_not.mp h, ← columnDefault_eq, ← hd]

theorem run_alterNull (hc : c.name = toField.column) :
    ColumnSlot.run ⟨some c, keyed⟩ (if fromField.optional ≠ toField.optional then
      if toField.optional then [Stmt.new (.dropNotNull m.table toField.column)]
      else [Stmt.new (.setNotNull m.table toField.column)] else []) =
      if c.key ∧ fromField.optional = false ∧ toField.optional then none
      else some ⟨some { c with notNull :=
        if fromField.optional = toField.optional then c.notNull else !toField.optional }, keyed⟩ := by
  have hself : ∀ g, (⟨some c, keyed⟩ : ColumnSlot).change toField.column g = some ⟨some (g c), keyed⟩ :=
    fun g => hc ▸ ColumnSlot.change_self
  obtain ⟨name, type, notNull, default, generated, identity, key, unique⟩ := c
  cases fromField.optional <;> cases toField.optional <;> cases key <;>
    simp [ColumnSlot.step, ColumnSlot.dropNotNull, hself]

end AlterColumn

theorem altered_eq {schema : Schema} {m : Model} {fromField toField : Field}
    {before full : ColumnSpec} {keyed : Bool} (hb : Specified .postgres fromField before)
    (hf : Specified .postgres toField full) :
    altered .postgres schema m fromField toField before keyed =
      if fromField.attrs.isId ∧ fromField.optional = false ∧ toField.optional then none
      else some ⟨some { before.stored with
        name := full.name
        type := if fromField.kind ≠ toField.kind then full.sqlType else before.sqlType
        default := full.default
        notNull := if fromField.optional = toField.optional then before.stored.notNull
          else full.notNull }, keyed⟩ := by
  unfold altered Dialect.alterColumn Postgres.alterColumn
  dsimp only
  rw [List.append_assoc, List.append_assoc]
  refine (ColumnSlot.run_append_some (run_rename hb.name)).trans ?_
  refine (ColumnSlot.run_append_some (run_alterType rfl hf.type)).trans ?_
  refine (ColumnSlot.run_append_some (run_alterDefault rfl hb.default)).trans ?_
  rw [run_alterNull rfl, hf.name, hf.default, hf.notNull]
  simp only [ColumnSpec.stored, hb.primaryKey]

-- A change of kind alone restates the type; nothing restates uniqueness,
-- identity or a generation clause.
structure AltersAsCreated (fromField toField : Field) : Prop where
  type : fromField.kind = toField.kind →
    columnType .postgres fromField = columnType .postgres toField
  identity : fromField.default = some (.function .autoIncrement) ↔
    toField.default = some (.function .autoIncrement)
  generated : fromField.generated = toField.generated
  unique : (fromField.attrs.isUnique || fromField.attrs.isId) =
    (toField.attrs.isUnique || toField.attrs.isId)
  key : toField.optional = true → fromField.attrs.isId = toField.attrs.isId ∧
    (fromField.optional = false → fromField.attrs.isId = false)

theorem notNull_altered {o o' i i' : Bool} (hne : ¬ (i = true ∧ o = false ∧ o' = true)) :
    ((if o = o' then (!o || i) else !o') = (!o' || i')) ↔
      (o' = true → i = i' ∧ (o = false → i = false)) := by
  revert hne
  cases o <;> cases o' <;> cases i <;> cases i' <;> decide

theorem asCreated_altered_iff {schema : Schema} {m : Model} {fromField toField : Field}
    {before full : ColumnSpec} {keyed : Bool} (hb : Specified .postgres fromField before)
    (hf : Specified .postgres toField full) :
    AsCreated full (altered .postgres schema m fromField toField before keyed) ↔
      AltersAsCreated fromField toField := by
  rw [altered_eq hb hf]
  split
  · rename_i hrefused
    obtain ⟨hid, hreq, hopt⟩ := hrefused
    constructor
    · intro h
      cases h
    · intro h
      have := (h.key hopt).2 hreq
      rw [hid] at this
      cases this
  · rename_i hne
    have htype : (if fromField.kind ≠ toField.kind then full.sqlType else before.sqlType) =
        full.sqlType ↔ (fromField.kind = toField.kind →
          columnType .postgres fromField = columnType .postgres toField) := by
      rw [hb.type, hf.type]
      by_cases hk : fromField.kind = toField.kind <;> simp [hk]
    have hunique : ∀ u i : Bool, ((u && !i) || i) = (u || i) := by decide
    have hiff : AsCreated full (some ⟨some { before.stored with
        name := full.name
        type := if fromField.kind ≠ toField.kind then full.sqlType else before.sqlType
        default := full.default
        notNull := if fromField.optional = toField.optional then before.stored.notNull
          else full.notNull }, keyed⟩) ↔
        ((if fromField.kind ≠ toField.kind then full.sqlType else before.sqlType) = full.sqlType ∧
          (if fromField.optional = toField.optional then before.stored.notNull else full.notNull) =
            full.stored.notNull ∧
          before.generated = full.generated ∧ before.identity = full.identity ∧
          (before.unique || before.primaryKey) = (full.unique || full.primaryKey)) := by
      simp [AsCreated, StoredColumn.definition, ColumnSpec.stored]
    rw [hiff, htype]
    simp only [ColumnSpec.stored, hb.notNull, hb.primaryKey, hb.generated, hb.identity, hb.unique,
      hf.notNull, hf.primaryKey, hf.generated, hf.identity, hf.unique, hunique, notNull_altered hne,
      decide_eq_decide]
    constructor
    · rintro ⟨ht, hk, hg, hi, hu⟩
      exact ⟨ht, hi, hg, hu, hk⟩
    · rintro ⟨ht, hi, hg, hu, hk⟩
      exact ⟨ht, hk, hg, hi, hu⟩

end Postgres

namespace Mysql

def AddsAsCreated (keyed : Bool) (f : Field) : Prop :=
  (keyed = true → f.attrs.isId = false) ∧ (f.attrs.isUnique = true → f.attrs.isId = true)

theorem asCreated_added_iff {schema : Schema} {m : Model} {f : Field} {full : ColumnSpec}
    {keyed : Bool} (h : columnSpec .mysql schema f = .ok full) :
    AsCreated full (added .mysql schema m f keyed) ↔ AddsAsCreated keyed f := by
  have hs := specified_of_columnSpec h
  unfold added Dialect.addColumn Mysql.addColumn
  rw [h]
  simp only [ColumnSlot.run_new, ColumnSlot.step, ColumnSlot.add, AsCreated, AddsAsCreated,
    StoredColumn.definition, ColumnSpec.stored, hs.primaryKey, hs.unique]
  cases keyed <;> cases f.attrs.isId <;> cases f.attrs.isUnique <;>
    simp [StoredColumn.definition]

-- MODIFY states everything anew but neither adds nor takes a unique index, and
-- declares the primary key once more.
structure AltersAsCreated (keyed : Bool) (fromField toField : Field) : Prop where
  key : keyed = true → toField.attrs.isId = false
  nullable : fromField.attrs.isId = true → toField.optional = false
  unique : (fromField.attrs.isUnique || fromField.attrs.isId || toField.attrs.isId) =
    (toField.attrs.isUnique || toField.attrs.isId)

theorem altered_eq {schema : Schema} {m : Model} {fromField toField : Field}
    {before full : ColumnSpec} {keyed : Bool} (h : columnSpec .mysql schema toField = .ok full) :
    altered .mysql schema m fromField toField before keyed =
      ColumnSlot.redefine ⟨some before.stored, keyed⟩ fromField.column
        { full with unique := false } := by
  have hf := specified_of_columnSpec h
  unfold altered Dialect.alterColumn Mysql.alterColumn
  rw [h]
  dsimp only
  split
  · rename_i hname
    rw [ColumnSlot.run_new, hname, ← hf.name]
    rfl
  · rw [ColumnSlot.run_new]
    rfl

theorem asCreated_altered_iff {schema : Schema} {m : Model} {fromField toField : Field}
    {before full : ColumnSpec} {keyed : Bool} (hb : Specified .mysql fromField before)
    (h : columnSpec .mysql schema toField = .ok full)
    (hkeyed : fromField.attrs.isId = true → keyed = true) :
    AsCreated full (altered .mysql schema m fromField toField before keyed) ↔
      AltersAsCreated keyed fromField toField := by
  have hf := specified_of_columnSpec h
  rw [altered_eq h]
  have hiff : AltersAsCreated keyed fromField toField ↔
      ((keyed = true → toField.attrs.isId = false) ∧
        (fromField.attrs.isId = true → toField.optional = false) ∧
        (fromField.attrs.isUnique || fromField.attrs.isId || toField.attrs.isId) =
          (toField.attrs.isUnique || toField.attrs.isId)) :=
    ⟨fun ⟨hk, hn, hu⟩ => ⟨hk, hn, hu⟩, fun ⟨hk, hn, hu⟩ => ⟨hk, hn, hu⟩⟩
  rw [hiff]
  revert hkeyed
  simp only [AsCreated, ColumnSlot.redefine, ColumnSpec.stored, StoredColumn.definition, hb.name,
    hb.primaryKey, hb.unique, hf.primaryKey, hf.notNull, hf.unique]
  cases keyed <;> cases fromField.attrs.isId <;> cases fromField.attrs.isUnique <;>
    cases toField.attrs.isId <;> cases toField.attrs.isUnique <;> cases toField.optional <;>
      simp [StoredColumn.definition]

end Mysql

-- A user with an e-mail column.
def emailed (attrs : List Ast.Attr) : Schema :=
  (Build.schema "postgres" [Build.model "User"
    [Build.idField, Build.field "email" "String" .required attrs] []]).lowered

def uniqueEmail : Schema := emailed [Build.attr "unique" []]

def sizedEmail (length : String) : Schema :=
  emailed [Build.attr "db.VarChar" [.positional (.num length Span.EMPTY)]]

def userModel (s : Schema) : Model :=
  (s.models.get? ⟨"User"⟩).getD ⟨⟨""⟩, "", .empty, ⟨[], none, Span.EMPTY⟩, [], [], none, Span.EMPTY⟩

def emailField (s : Schema) : Field :=
  ((userModel s).fields.get? ⟨"email"⟩).getD
    ⟨⟨""⟩, "", .scalar .string, false, none, {}, none, none, Span.EMPTY⟩

def specOf (d : Dialect) (s : Schema) : ColumnSpec :=
  match columnSpec d s (emailField s) with
  | .ok spec => spec
  | .error _ => ⟨"", .builtin "", false, none, false, false, false, none, none⟩

end Ruprizzle
