import Mathlib.Data.List.Infix
import Ruprizzle.Runtime.Errors

namespace Ruprizzle.Runtime.Violations

open Retry

-- What the databases write about a violated constraint, and what is read from it.

-- The side of a foreign key that a statement broke.
inductive Side
  | insertOrUpdate
  | updateOrDelete
  deriving DecidableEq, Repr

def Side.text : Side → String
  | insertOrUpdate => "insert or update "
  | updateOrDelete => "update or delete "

inductive ColumnFault
  | notNull
  | check
  | referential
  deriving DecidableEq, Repr

def ColumnFault.state : ColumnFault → String
  | notNull => "23502"
  | check => "23514"
  | referential => "23507"

-- Columns come with a first one. A name is written as it is or with its quotes doubled, and the
-- texts behind the names are whatever they are. Native is for the driver tokio-postgres.
inductive Report
  | sqlite (kind : ConstraintKind) (primary : Bool) (table first : String) (more : List String)
  | key (native : Bool) (table : String) (first : String × String) (more : List (String × String))
  | onTable (native doubled : Bool) (side : Side) (table rest : String)
  | inColumn (native doubled : Bool) (fault : ColumnFault) (table column rest : String)
  deriving DecidableEq, Repr

def listed (names : List String) : String := ", ".intercalate names

def written (doubled : Bool) (name : String) : String :=
  if doubled then String.ofList (Text.doubled '"' name.toList) else name

def sqliteStart : ConstraintKind → String
  | .unique => "UNIQUE constraint failed: "
  | .foreignKey => "FOREIGN KEY constraint failed: "
  | .notNull => "NOT NULL constraint failed: "
  | .check => "CHECK constraint failed: "

def sqliteCode : ConstraintKind → Bool → Nat
  | .unique, primary => if primary then 1555 else 2067
  | .foreignKey, _ => 787
  | .notNull, _ => 1299
  | .check, _ => 275

def keyText (columns values : String) : String :=
  "Key (" ++ columns ++ ")=(" ++ values ++ ") already exists."

namespace Report

def text : Report → String
  | sqlite kind _ table first more =>
      sqliteStart kind ++ listed ((first :: more).map fun column => table ++ "." ++ column)
  | key _ _ first more =>
      keyText (listed ((first :: more).map Prod.fst)) (listed ((first :: more).map Prod.snd))
  | onTable _ doubled side name rest =>
      side.text ++ "on table \"" ++ written doubled name ++ "\" violates " ++ rest
  | inColumn _ doubled _ _ name rest =>
      "null value in column \"" ++ written doubled name ++ "\" " ++ rest

def code : Report → Code
  | sqlite kind primary .. => .sqlite (sqliteCode kind primary)
  | key .. => .sqlstate "23505"
  | onTable .. => .sqlstate "23503"
  | inColumn _ _ fault .. => .sqlstate fault.state

def native : Report → Bool
  | sqlite .. => false
  | key native .. | onTable native .. | inColumn native .. => native

def error (r : Report) : Error :=
  let f := Failure.mk (some r.code) r.text
  if r.native then classifyTokioPostgres (.database f) else classifySqlx (.database f)

def tableName : Report → String
  | sqlite _ _ table .. | key _ table .. | onTable _ _ _ table _ | inColumn _ _ _ table .. => table

def columns : Report → List String
  | sqlite _ _ _ first more => first :: more
  | key _ _ first more => (first :: more).map Prod.fst
  | onTable .. => []
  | inColumn _ _ _ _ name _ => [name]

def values : Report → List String
  | key _ _ first more => (first :: more).map Prod.snd
  | _ => []

end Report

-- The table, the columns and the value of a violation.
def fields : Error → Option (String × String × Option String)
  | .uniqueViolation table columns value => some (table, columns, value)
  | .foreignKeyViolation table columns => some (table, columns, none)
  | .notNullViolation table column => some (table, column, none)
  | .checkViolation table column => some (table, column, none)
  | _ => none

-- Each field says nothing or what the database said.
def Exact (r : Report) : Prop :=
  ∃ table columns value, fields r.error = some (table, columns, value) ∧
    (table = "" ∨ table = r.tableName) ∧ (columns = "" ∨ columns = listed r.columns) ∧
    (value = none ∨ value = some (listed r.values))

section Read

variable {msg : String}

theorem classifySqlx_sqlite (kind : ConstraintKind) (primary : Bool) :
    classifySqlx (.database ⟨some (.sqlite (sqliteCode kind primary)), msg⟩)
      = parseSqliteConstraint msg kind := by
  cases kind <;> cases primary <;> rfl

theorem fields_sqlite (kind : ConstraintKind) : fields (parseSqliteConstraint msg kind) =
    some ((parseSqliteConstraintColumns msg (sqliteStart kind)).1,
      (parseSqliteConstraintColumns msg (sqliteStart kind)).2, none) := by
  cases kind <;> rfl

theorem classify_state {state : String} {e : Error} (h : classifyCode state msg = some e)
    (native : Bool) : (if native then
      classifyTokioPostgres (.database ⟨some (.sqlstate state), msg⟩)
    else classifySqlx (.database ⟨some (.sqlstate state), msg⟩)) = e := by
  cases native with
  | false => simp only [Bool.false_eq_true, if_false, classifySqlx, Code.text, h]
  | true =>
      simp only [if_true, classifyTokioPostgres, Option.map_some, Option.getD_some, Code.text, h]

theorem classifyCode_key : classifyCode "23505" msg = some (parseUniqueViolation msg) := rfl

theorem classifyCode_table : classifyCode "23503" msg = some (parseForeignKeyViolation msg) := rfl

theorem classifyCode_fault (msg : String) (fault : ColumnFault) :
    ∃ e, classifyCode fault.state msg = some e ∧
      fields e = some ((parsePostgresTableColumnSingle msg).1,
        (parsePostgresTableColumnSingle msg).2, none) := by
  cases fault with
  | notNull => exact ⟨parseNotNullViolation msg, rfl, rfl⟩
  | check => exact ⟨parseCheckViolation msg, rfl, rfl⟩
  | referential => exact ⟨parseCheckViolation msg, rfl, rfl⟩

-- What each text is taken apart into.
def taken (r : Report) : String × String × Option String :=
  match r with
  | .sqlite kind .. =>
      ((parseSqliteConstraintColumns r.text (sqliteStart kind)).1,
        (parseSqliteConstraintColumns r.text (sqliteStart kind)).2, none)
  | .key .. => parsePostgresKeyDetail r.text
  | .onTable .. => ((parsePostgresTableColumn r.text).1, (parsePostgresTableColumn r.text).2, none)
  | .inColumn .. =>
      ((parsePostgresTableColumnSingle r.text).1, (parsePostgresTableColumnSingle r.text).2, none)

theorem fields_error (r : Report) : fields r.error = some (taken r) := by
  cases r with
  | sqlite kind primary table first more =>
      rw [Report.error, Report.native, Report.code, if_neg Bool.false_ne_true, classifySqlx_sqlite,
        fields_sqlite]
      rfl
  | key native table first more =>
      exact congrArg fields (classify_state classifyCode_key native)
  | onTable native doubled side table rest =>
      exact congrArg fields (classify_state classifyCode_table native)
  | inColumn native doubled fault table name rest =>
      obtain ⟨e, he, hfields⟩ := classifyCode_fault
        (Report.inColumn native doubled fault table name rest).text fault
      exact (congrArg fields (classify_state he native)).trans hfields

end Read

end Ruprizzle.Runtime.Violations
