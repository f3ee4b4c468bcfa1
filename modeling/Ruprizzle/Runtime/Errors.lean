import Ruprizzle.Data.Text
import Ruprizzle.Runtime.Streams

namespace Ruprizzle.Runtime.Retry

-- What becomes of a database's failure on its way to the caller.

-- A SQLSTATE, or a result code of SQLite with its extension.
inductive Code
  | sqlstate (state : String)
  | sqlite (code : Nat)
  deriving DecidableEq, Repr

def Code.text : Code → String
  | .sqlstate state => state
  | .sqlite code => toString code

structure Failure where
  code : Option Code
  message : String
  deriving DecidableEq, Repr

-- The errors of the drivers, with the text each is displayed as.
inductive SqlxError
  | database (f : Failure)
  | poolTimedOut (display : String)
  | poolClosed (display : String)
  | io (display : String)
  | other (display : String)
  deriving DecidableEq, Repr

inductive TokioPostgresError
  | database (f : Failure)
  | closed (display : String)
  | other (display : String)
  deriving DecidableEq, Repr

inductive Error
  | uniqueViolation (table columns : String) (value : Option String)
  | foreignKeyViolation (table columns : String)
  | notNullViolation (table column : String)
  | checkViolation (table column : String)
  | deadlock
  | serializationFailure
  | connectionFailure (reason : String)
  | acquireTimeout (reason : String)
  | sqlx (e : SqlxError)
  | tokioPostgres (e : TokioPostgresError)
  | message (text : String)
  deriving DecidableEq, Repr

-- What stands before and after the first place where a text is found.
def cut (word : List Char) : List Char → Option (List Char × List Char)
  | [] => if word.isEmpty then some ([], []) else none
  | c :: rest =>
      if word.isPrefixOf (c :: rest) then some ([], (c :: rest).drop word.length)
      else (cut word rest).map fun (before, after) => (c :: before, after)

-- What stands before and after the last dot.
def cutLastDot (text : List Char) : Option (String × String) :=
  match cut ['.'] text.reverse with
  | some (after, before) => some (String.ofList before.reverse, String.ofList after.reverse)
  | none => none

def parsePostgresKeyDetail (msg : String) : String × String × Option String :=
  match cut "Key (".toList msg.toList with
  | none => ("", "", none)
  | some (_, rest) =>
      match cut ")=(".toList rest with
      | none => ("", "", none)
      | some (columns, rest) =>
          match cut ")".toList rest with
          | none => ("", "", none)
          | some (value, _) => ("", String.ofList columns, some (String.ofList value))

def parsePostgresTableColumn (msg : String) : String × String :=
  match cut "table \"".toList msg.toList with
  | none => ("", "")
  | some (_, rest) =>
      match cut "\"".toList rest with
      | none => ("", "")
      | some (table, _) => (String.ofList table, "")

def parsePostgresTableColumnSingle (msg : String) : String × String :=
  match cut "column \"".toList msg.toList with
  | none => ("", "")
  | some (_, rest) =>
      match cut "\"".toList rest with
      | none => ("", "")
      | some (full, _) => (cutLastDot full).getD ("", String.ofList full)

def parseSqliteConstraintColumns (msg start : String) : String × String :=
  if start.toList.isPrefixOf msg.toList then
    (cutLastDot (Text.trim (msg.toList.drop start.length))).getD ("", "")
  else ("", "")

def parseUniqueViolation (msg : String) : Error :=
  let (table, columns, value) := parsePostgresKeyDetail msg
  .uniqueViolation table columns value

def parseForeignKeyViolation (msg : String) : Error :=
  let (table, columns) := parsePostgresTableColumn msg
  .foreignKeyViolation table columns

def parseNotNullViolation (msg : String) : Error :=
  let (table, column) := parsePostgresTableColumnSingle msg
  .notNullViolation table column

def parseCheckViolation (msg : String) : Error :=
  let (table, column) := parsePostgresTableColumnSingle msg
  .checkViolation table column

inductive ConstraintKind
  | unique
  | foreignKey
  | notNull
  | check
  deriving DecidableEq, Repr

def sqliteConstraintKind (code : String) : Option ConstraintKind :=
  if code = "2067" ∨ code = "1555" then some .unique
  else if code = "787" then some .foreignKey
  else if code = "1299" then some .notNull
  else if code = "275" then some .check
  else none

def parseSqliteConstraint (msg : String) : ConstraintKind → Error
  | .unique =>
      let (table, columns) := parseSqliteConstraintColumns msg "UNIQUE constraint failed: "
      .uniqueViolation table columns none
  | .foreignKey =>
      let (table, columns) := parseSqliteConstraintColumns msg "FOREIGN KEY constraint failed: "
      .foreignKeyViolation table columns
  | .notNull =>
      let (table, column) := parseSqliteConstraintColumns msg "NOT NULL constraint failed: "
      .notNullViolation table column
  | .check =>
      let (table, column) := parseSqliteConstraintColumns msg "CHECK constraint failed: "
      .checkViolation table column

def isConnectionCode (code : String) : Bool := "08".toList.isPrefixOf code.toList

-- The codes both drivers' errors are classified by.
def classifyCode (code msg : String) : Option Error :=
  if isConnectionCode code then some (.connectionFailure msg)
  else if code = "40P01" then some .deadlock
  else if code = "40001" then some .serializationFailure
  else if code = "23505" then some (parseUniqueViolation msg)
  else if code = "23503" then some (parseForeignKeyViolation msg)
  else if code = "23502" then some (parseNotNullViolation msg)
  else if code = "23514" ∨ code = "23507" then some (parseCheckViolation msg)
  else none

def classifySqlx : SqlxError → Error
  | .database f =>
      match f.code with
      | none => .sqlx (.database f)
      | some code =>
          match classifyCode code.text f.message with
          | some e => e
          | none =>
              match sqliteConstraintKind code.text with
              | some kind => parseSqliteConstraint f.message kind
              | none => .sqlx (.database f)
  | .poolTimedOut display => .acquireTimeout display
  | .poolClosed display | .io display => .connectionFailure display
  | .other display => .sqlx (.other display)

-- A failure that comes over the wire has a code.
def classifyTokioPostgres : TokioPostgresError → Error
  | .database f => (classifyCode ((f.code.map Code.text).getD "") f.message).getD (.tokioPostgres (.database f))
  | .closed display => .connectionFailure display
  | .other display => .tokioPostgres (.other display)

-- Where a failure is met.
inductive Place
  | pool
  | tx
  | savepoint
  | commit
  deriving DecidableEq, Repr

-- The pool converts what sqlx returns, a transaction only wraps it. The error of
-- rusqlite is displayed as the message alone.
def surface (driver : Pool) (place : Place) (f : Failure) : Error :=
  match driver with
  | .sqliteNative => .message f.message
  | .postgresNative => classifyTokioPostgres (.database f)
  | .any | .postgres | .sqlite | .mysql =>
      match place with
      | .pool => classifySqlx (.database f)
      | .tx | .savepoint | .commit => .sqlx (.database f)


def saysLocked (message : String) : Bool :=
  let m := message.toList.map Char.toLower
  Text.containsWord "database is locked".toList m ||
    Text.containsWord "database table is locked".toList m

def isRetryable : Error → Bool
  | .sqlx (.database f) =>
      match f.code.map Code.text with
      | some code => if code = "40001" ∨ code = "40P01" then true else saysLocked f.message
      | none => saysLocked f.message
  | .tokioPostgres (.database f) =>
      let code := (f.code.map Code.text).getD ""
      if code = "40001" ∨ code = "40P01" then true else saysLocked f.message
  | _ => false

namespace Failure

-- A serialization failure, a deadlock, or contention for a lock of SQLite, which is
-- SQLITE_BUSY or SQLITE_LOCKED with any extension.
def transient (f : Failure) : Bool :=
  match f.code with
  | some (.sqlstate state) => state = "40001" || state = "40P01"
  | some (.sqlite code) => code % 256 = 5 || code % 256 = 6
  | none => false

def codeText (f : Failure) : String := (f.code.map Code.text).getD ""

def aborted (f : Failure) : Bool := f.codeText = "40001" || f.codeText = "40P01"

-- Broken connections and violated constraints.
def classed (f : Failure) : Bool :=
  isConnectionCode f.codeText ||
    ["23505", "23503", "23502", "23514", "23507"].contains f.codeText

def brokeConstraint (f : Failure) : Bool := ["2067", "1555", "787", "1299", "275"].contains f.codeText

end Failure

-- The failures whose error says whether they are worth trying again.
def Heard (driver : Pool) (place : Place) (f : Failure) : Prop :=
  match driver, place with
  | .sqliteNative, _ => f.transient = false
  | .postgresNative, _ =>
      if f.aborted || f.classed then f.transient = false
      else saysLocked f.message = f.transient
  | _, .pool =>
      if f.aborted || f.classed || f.brokeConstraint then f.transient = false
      else saysLocked f.message = f.transient
  | _, _ => if f.aborted then f.transient = true else saysLocked f.message = f.transient

def Agrees (driver : Pool) (place : Place) (f : Failure) : Prop :=
  isRetryable (surface driver place f) = true ↔ f.transient = true

-- What is classified is not tried again.
theorem isRetryable_classifyCode {code msg : String} {e : Error}
    (h : classifyCode code msg = some e) : isRetryable e = false := by
  unfold classifyCode at h
  repeat' (split at h)
  all_goals first | (cases h; rfl) | cases h

theorem classifyCode_eq_none {code msg : String} : classifyCode code msg = none ↔
    isConnectionCode code = false ∧ code ≠ "40001" ∧ code ≠ "40P01" ∧
      code ∉ ["23505", "23503", "23502", "23514", "23507"] := by
  unfold classifyCode
  simp only [List.mem_cons, List.not_mem_nil, or_false, not_or]
  grind

theorem isRetryable_constraint (msg : String) (kind : ConstraintKind) :
    isRetryable (parseSqliteConstraint msg kind) = false := by
  cases kind <;> rfl

theorem sqliteConstraintKind_eq_none {code : String} : sqliteConstraintKind code = none ↔
    code ∉ ["2067", "1555", "787", "1299", "275"] := by
  unfold sqliteConstraintKind
  simp only [List.mem_cons, List.not_mem_nil, or_false, not_or]
  grind

theorem aborted_iff {f : Failure} : f.aborted = true ↔ f.codeText = "40001" ∨ f.codeText = "40P01" := by
  unfold Failure.aborted
  rw [Bool.or_eq_true, decide_eq_true_iff, decide_eq_true_iff]

theorem classed_eq_false {f : Failure} : f.classed = false ↔ isConnectionCode f.codeText = false ∧
    f.codeText ∉ ["23505", "23503", "23502", "23514", "23507"] := by
  unfold Failure.classed
  rw [Bool.or_eq_false_iff, ← Bool.not_eq_true (List.contains _ _), List.contains_iff_mem]

theorem brokeConstraint_eq_false {f : Failure} : f.brokeConstraint = false ↔
    f.codeText ∉ ["2067", "1555", "787", "1299", "275"] := by
  unfold Failure.brokeConstraint
  rw [← Bool.not_eq_true, List.contains_iff_mem]

theorem classifyCode_none_iff {f : Failure} : classifyCode f.codeText f.message = none ↔
    f.aborted = false ∧ f.classed = false := by
  have haborted : f.aborted = false ↔ f.codeText ≠ "40001" ∧ f.codeText ≠ "40P01" := by
    rw [Bool.eq_false_iff, Ne, aborted_iff, not_or]
  rw [classifyCode_eq_none, classed_eq_false, haborted]
  tauto

theorem of_classifyCode {f : Failure} {e : Error} (h : classifyCode f.codeText f.message = some e) :
    (f.aborted || f.classed) = true := by
  by_contra hnot
  rw [Bool.or_eq_true, not_or, Bool.not_eq_true, Bool.not_eq_true] at hnot
  rw [classifyCode_none_iff.mpr hnot] at h
  cases h

theorem isRetryable_postgresNative {f : Failure} :
    isRetryable (classifyTokioPostgres (.database f)) =
      if f.aborted || f.classed then false else saysLocked f.message := by
  change isRetryable ((classifyCode f.codeText f.message).getD _) = _
  cases hclass : classifyCode f.codeText f.message with
  | some e => rw [Option.getD_some, isRetryable_classifyCode hclass, if_pos (of_classifyCode hclass)]
  | none =>
      obtain ⟨haborted, hclassed⟩ := classifyCode_none_iff.mp hclass
      have hnot : ¬ (f.codeText = "40001" ∨ f.codeText = "40P01") := by
        rw [← aborted_iff, haborted]
        exact Bool.false_ne_true
      rw [Option.getD_none, haborted, hclassed]
      change (if f.codeText = "40001" ∨ f.codeText = "40P01" then true else _) = _
      rw [if_neg hnot]
      rfl

theorem isRetryable_wrapped {f : Failure} : isRetryable (.sqlx (.database f)) =
    if f.aborted then true else saysLocked f.message := by
  obtain ⟨_ | code, message⟩ := f
  · rfl
  · unfold Failure.aborted
    simp only [Bool.or_eq_true, decide_eq_true_eq]
    rfl

theorem isRetryable_pool {f : Failure} : isRetryable (classifySqlx (.database f)) =
    if f.aborted || f.classed || f.brokeConstraint then false else saysLocked f.message := by
  obtain ⟨_ | code, message⟩ := f
  · rfl
  · have hsqlx : classifySqlx (.database ⟨some code, message⟩) =
        match classifyCode code.text message with
        | some e => e
        | none =>
            match sqliteConstraintKind code.text with
            | some kind => parseSqliteConstraint message kind
            | none => .sqlx (.database ⟨some code, message⟩) := rfl
    rw [hsqlx]
    cases hclass : classifyCode code.text message with
    | some e =>
        rw [if_pos]
        · exact isRetryable_classifyCode hclass
        · rw [Bool.or_eq_true]
          exact Or.inl (of_classifyCode (f := ⟨some code, message⟩) hclass)
    | none =>
        obtain ⟨haborted, hclassed⟩ := classifyCode_none_iff (f := ⟨some code, message⟩).mp hclass
        rw [haborted, hclassed]
        cases hkind : sqliteConstraintKind code.text with
        | none =>
            have hbroke := brokeConstraint_eq_false (f := ⟨some code, message⟩).mpr
              (sqliteConstraintKind_eq_none.mp hkind)
            dsimp only
            rw [hbroke, isRetryable_wrapped, haborted]
            rfl
        | some kind =>
            have hbroke : (Failure.mk (some code) message).brokeConstraint = true := by
              rw [← Bool.not_eq_false, brokeConstraint_eq_false]
              intro hnot
              have hnone : sqliteConstraintKind code.text = none :=
                sqliteConstraintKind_eq_none.mpr hnot
              rw [hnone] at hkind
              cases hkind
            dsimp only
            rw [isRetryable_constraint, hbroke]
            rfl

-- An error says whether to try again exactly for the failures that are heard.
theorem agrees_iff_heard (driver : Pool) (place : Place) (f : Failure) :
    Agrees driver place f ↔ Heard driver place f := by
  have hcases : ∀ {c a b : Bool}, ((if c then a else b) = f.transient) ↔
      if c then f.transient = a else b = f.transient := by
    intro c a b
    cases c
    · exact Iff.rfl
    · exact eq_comm
  have hagrees : Agrees driver place f ↔ isRetryable (surface driver place f) = f.transient :=
    Bool.eq_iff_iff.symm
  rw [hagrees]
  cases driver with
  | sqliteNative => exact eq_comm
  | postgresNative =>
      change isRetryable (classifyTokioPostgres (.database f)) = _ ↔ _
      rw [isRetryable_postgresNative]
      exact hcases
  | any | postgres | sqlite | mysql =>
      cases place with
      | pool =>
          change isRetryable (classifySqlx (.database f)) = _ ↔ _
          rw [isRetryable_pool]
          exact hcases
      | tx | savepoint | commit =>
          change isRetryable (.sqlx (.database f)) = _ ↔ _
          rw [isRetryable_wrapped]
          exact hcases

end Ruprizzle.Runtime.Retry
