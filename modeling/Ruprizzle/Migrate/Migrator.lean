import Ruprizzle.Core.Layout
import Ruprizzle.Data.Sorting
import Ruprizzle.Migrate.Splitter

namespace Ruprizzle

-- The migrations directory, as it is read from disk.

structure MigrationMeta where
  id : String
  checksum : String
  destructive : Bool
  ruprizzle_version : String
  deriving DecidableEq, Repr

-- The metadata of a migration, which stands in meta.json or is made up from
-- up.sql.
structure Migration where
  id : String
  up : String
  down : String
  info : MigrationMeta
  deriving DecidableEq, Repr

inductive MigrateError
  | io
  | serde
  | database
  | checksumMismatch (id : String)
  | destructiveBlocked (id : String)
  | missingUp (id : String)
  | backfillRequired (id : String)
  | statementFailed (id : String) (line : Nat)
  | directoryNotFound
  deriving DecidableEq, Repr

-- A file is there or not, and may hold something that cannot be read.
inductive FileContent (α : Type)
  | absent
  | unreadable
  | malformed
  | content (value : α)
  deriving DecidableEq, Repr

structure Subdir where
  name : String
  up : FileContent String
  down : FileContent String
  metaJson : FileContent MigrationMeta
  deriving DecidableEq, Repr

-- The subdirectories of the migrations directory, no two of one name.
structure Folder where
  subdirs : List Subdir
  distinct : (subdirs.map Subdir.name).Nodup

namespace Migrator

-- The digest, in hexadecimal, of a text.
variable (sha256 : String → String)

def computeChecksum (up : String) : String := sha256 (Reading.normalise up)

def CARGO_PKG_VERSION : String := "1.6.0"

def lowercased (text : String) : List Char := text.toList.map Char.toLower

-- The words looked for are of ASCII letters and have no letter that another
-- alphabet's capital turns into.
def soundsDestructive (up : String) : Bool :=
  Text.containsWord "drop table".toList (lowercased up) ||
    Text.containsWord "drop column".toList (lowercased up)

def metaFor (id up : String) : MigrationMeta :=
  ⟨id, computeChecksum sha256 up, soundsDestructive up, CARGO_PKG_VERSION⟩

def loadOne (dir : Subdir) : Except MigrateError Migration := do
  let up ← match dir.up with
    | .content text => pure text
    | _ => throw .io
  let down := match dir.down with
    | .content text => text
    | _ => ""
  let info ← match dir.metaJson with
    | .absent => pure (metaFor sha256 dir.name up)
    | .content info => pure info
    | .unreadable => throw .io
    | .malformed => throw .serde
  return ⟨dir.name, up, down, info⟩

def hasUp (dir : Subdir) : Bool :=
  match dir.up with
  | .absent => false
  | _ => true

-- Paths of one directory are sorted as their last component is.
def migrations (folder : Option Folder) : Except MigrateError (List Migration) :=
  match folder with
  | none => throw .directoryNotFound
  | some folder =>
      (insertionSortBy (fun a b => compare a.name b.name) (folder.subdirs.filter hasUp)).mapM
        (loadOne sha256)

end Migrator

-- A row of the tracking table. The times are left out.
structure TrackingRow where
  id : String
  checksum : String
  rolledBack : Bool
  deriving DecidableEq, Repr

-- The tracking table, whose key is the id.
abbrev Tracking := List TrackingRow

namespace Tracking

def live (rows : Tracking) : Tracking := rows.filter fun r => !r.rolledBack

def appliedIds (rows : Tracking) : List String := rows.live.map TrackingRow.id

-- INSERT .. ON CONFLICT (id) DO UPDATE.
def upsert (rows : Tracking) (id checksum : String) : Tracking :=
  if rows.any (fun r => r.id = id) then
    rows.map fun r => if r.id = id then ⟨id, checksum, false⟩ else r
  else rows ++ [⟨id, checksum, false⟩]

def rollBack (rows : Tracking) (id : String) : Tracking :=
  rows.map fun r => if r.id = id then { r with rolledBack := true } else r

theorem mem_live {rows : Tracking} {r : TrackingRow} :
    r ∈ rows.live ↔ r ∈ rows ∧ r.rolledBack = false := by
  unfold live
  rw [List.mem_filter, Bool.not_eq_true']

theorem mem_live_upsert {rows : Tracking} {id checksum : String} {r : TrackingRow} :
    r ∈ (rows.upsert id checksum).live ↔ r = ⟨id, checksum, false⟩ ∨ (r ∈ rows.live ∧ r.id ≠ id) := by
  unfold upsert
  rw [mem_live, mem_live]
  by_cases hany : rows.any (fun r => r.id = id) = true
  · rw [if_pos hany, List.mem_map]
    obtain ⟨old, hold, hid⟩ := List.any_eq_true.mp hany
    constructor
    · intro ⟨⟨x, hx, hr⟩, hlive⟩
      by_cases hxid : x.id = id
      · rw [if_pos hxid] at hr
        exact Or.inl hr.symm
      · rw [if_neg hxid] at hr
        subst hr
        exact Or.inr ⟨⟨hx, hlive⟩, hxid⟩
    · intro h
      rcases h with rfl | ⟨⟨hr, hlive⟩, hne⟩
      · exact ⟨⟨old, hold, by simp [of_decide_eq_true hid]⟩, rfl⟩
      · exact ⟨⟨r, hr, by simp [hne]⟩, hlive⟩
  · rw [if_neg hany, List.mem_append, List.mem_singleton]
    have hne : ∀ x ∈ rows, x.id ≠ id := by
      intro x hx heq
      exact hany (List.any_eq_true.mpr ⟨x, hx, decide_eq_true heq⟩)
    constructor
    · intro ⟨hr, hlive⟩
      rcases hr with hr | rfl
      · exact Or.inr ⟨⟨hr, hlive⟩, hne r hr⟩
      · exact Or.inl rfl
    · intro h
      rcases h with rfl | ⟨⟨hr, hlive⟩, _⟩
      · exact ⟨Or.inr rfl, rfl⟩
      · exact ⟨Or.inl hr, hlive⟩

theorem mem_appliedIds_upsert {rows : Tracking} {id checksum other : String} :
    other ∈ (rows.upsert id checksum).appliedIds ↔ other = id ∨ other ∈ rows.appliedIds := by
  unfold appliedIds
  simp only [List.mem_map]
  constructor
  · intro ⟨r, hr, hid⟩
    rcases mem_live_upsert.mp hr with rfl | ⟨hr, _⟩
    · exact Or.inl hid.symm
    · exact Or.inr ⟨r, hr, hid⟩
  · intro h
    by_cases heq : other = id
    · exact ⟨⟨id, checksum, false⟩, mem_live_upsert.mpr (Or.inl rfl), heq.symm⟩
    · obtain ⟨r, hr, hid⟩ := h.resolve_left heq
      exact ⟨r, mem_live_upsert.mpr (Or.inr ⟨hr, hid ▸ heq⟩), hid⟩

theorem mem_live_rollBack {rows : Tracking} {id : String} {r : TrackingRow} :
    r ∈ (rows.rollBack id).live ↔ r ∈ rows.live ∧ r.id ≠ id := by
  unfold rollBack
  rw [mem_live, mem_live, List.mem_map]
  constructor
  · intro ⟨⟨x, hx, hr⟩, hlive⟩
    by_cases hxid : x.id = id
    · rw [if_pos hxid] at hr
      rw [← hr] at hlive
      cases hlive
    · rw [if_neg hxid] at hr
      subst hr
      exact ⟨⟨hx, hlive⟩, hxid⟩
  · intro ⟨⟨hr, hlive⟩, hne⟩
    exact ⟨⟨r, hr, by rw [if_neg hne]⟩, hlive⟩

end Tracking

namespace Migrator

variable (sha256 : String → String)

-- The first recorded checksum that is not the one of the file, in the order the
-- rows are read. A row without a directory is passed over.
def verifyRows (ms : List Migration) : Tracking → Except MigrateError Unit
  | [] => pure ()
  | r :: rest =>
      match ms.find? (fun m => m.id = r.id) with
      | some m =>
          if r.checksum ≠ computeChecksum sha256 m.up then throw (.checksumMismatch r.id)
          else verifyRows ms rest
      | none => verifyRows ms rest

def verifyChecksums (folder : Option Folder) (batch : Tracking) : Except MigrateError Unit := do
  let ms ← migrations sha256 folder
  verifyRows sha256 ms batch

-- A backfill that is still commented out.
def awaitsBackfill (m : Migration) : Bool :=
  Text.containsWord "RUPRIZZLE:BACKFILL".toList m.up.toList &&
    Text.containsWord "-- UPDATE".toList m.up.toList

-- The statements of a script that are sent to the database, with their numbers.
def sentStatements (u : CharClass) (up : String) : List (Nat × String) :=
  (Splitter.splitStatements u up).zipIdx.filterMap fun (stmt, idx) =>
    let sql := Text.trim stmt.toList
    if sql.isEmpty || "-- ".toList.isPrefixOf sql || "/*".toList.isPrefixOf sql then none
    else some (idx + 1, String.ofList sql)

end Migrator

end Ruprizzle
