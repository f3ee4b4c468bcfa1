import Ruprizzle.Data.Retrying
import Ruprizzle.Runtime.Errors

namespace Ruprizzle.Runtime.Retry

open Retrying

-- The loop that runs a closure in a transaction until one attempt is committed.

-- What fails an attempt: the database, the connection, or the closure itself.
inductive Trouble
  | database (driver : Pool) (place : Place) (f : Failure)
  | broken (driver : Pool) (place : Place) (display : String)
  | own (text : String)
  deriving DecidableEq, Repr

-- The error of a statement whose connection breaks.
def surfaceBroken (driver : Pool) (place : Place) (display : String) : Error :=
  match driver with
  | .sqliteNative => .message display
  | .postgresNative => classifyTokioPostgres (.closed display)
  | .any | .postgres | .sqlite | .mysql =>
      match place with
      | .pool => classifySqlx (.io display)
      | .tx | .savepoint | .commit => .sqlx (.io display)

namespace Trouble

def error : Trouble → Error
  | .database driver place f => surface driver place f
  | .broken driver place display => surfaceBroken driver place display
  | .own text => .message text

-- Whether it is worth trying again.
def transient : Trouble → Bool
  | .database _ _ f => f.transient
  | .broken .. | .own _ => false

end Trouble

-- A COMMIT that the database refuses leaves nothing behind: the transaction has been
-- aborted, or is rolled back along with its handle. One whose connection breaks may have
-- taken effect. Where a failed statement has aborted the transaction, PostgreSQL rolls it
-- back on COMMIT, and that is no error.
inductive Commit
  | done
  | emptied
  | refused (f : Failure)
  | broken (display : String) (stood : Bool)
  deriving DecidableEq, Repr

-- What comes of the i-th BEGIN, of the closure, and of the statement at the end.
structure Session (V : Type) where
  driver : Pool
  begins : Nat → Option Error
  closure : Nat → Except Trouble V
  commit : Nat → Commit
  rollback : Nat → Option Error

namespace Session

variable {V : Type} (s : Session V)

def attempt (i : Nat) : End V Error Trouble :=
  match s.begins i with
  | some e => .fatal e
  | none =>
      match s.closure i with
      | .ok v =>
          match s.commit i with
          | .done | .emptied => .done v
          | .refused f => .failed (.database s.driver .commit f)
          | .broken display _ => .failed (.broken s.driver .commit display)
      | .error t =>
          match s.rollback i with
          | some e => .fatal e
          | none => .failed t

-- After the first attempt there may be one more for each that is left.
def attemptsLeft (attempts : UInt32) : Nat := max attempts.toNat 1 - 1

def transactionRetrying (attempts : UInt32) : Nat × Except Error V :=
  loop s.attempt Trouble.error (fun t => isRetryable t.error) 0 (attemptsLeft attempts)

-- The loop that tries again after transient failures and no others.
def meant (attempts : UInt32) : Nat × Except Error V :=
  loop s.attempt Trouble.error Trouble.transient 0 (attemptsLeft attempts)

def Committed (i : Nat) : Prop :=
  s.begins i = none ∧ (∃ v, s.closure i = .ok v) ∧ s.commit i = .done

def RolledBack (i : Nat) : Prop :=
  s.begins i = none ∧
    ((∃ v f, s.closure i = .ok v ∧ s.commit i = .refused f) ∨
      ∃ t, s.closure i = .error t ∧ s.rollback i = none)

structure Retries (attempts : UInt32) : Prop where
  again : s.transactionRetrying attempts = s.meant attempts
  bounded : (s.transactionRetrying attempts).1 ≤ max attempts.toNat 1
  once : ∀ made v, s.transactionRetrying attempts = (made, .ok v) →
    ∃ j, made = j + 1 ∧ s.Committed j ∧ ∀ k < j, s.RolledBack k

-- The failures that are met with attempts left are all heard.
def AllHeard (attempts : UInt32) : Prop :=
  ∀ j < attemptsLeft attempts, Reached s.attempt Trouble.transient 0 j →
    ∀ driver place f, s.attempt j = .failed (.database driver place f) → Heard driver place f

-- No closure returns a value after a failed statement has aborted its transaction.
def NoneEmptied (attempts : UInt32) : Prop :=
  ∀ j ≤ attemptsLeft attempts, Reached s.attempt Trouble.transient 0 j → s.begins j = none →
    ∀ v, s.closure j = .ok v → s.commit j ≠ .emptied

variable {s} {i : Nat} {v : V} {t : Trouble}

theorem attempt_done_iff : s.attempt i = .done v ↔ s.begins i = none ∧ s.closure i = .ok v ∧
    (s.commit i = .done ∨ s.commit i = .emptied) := by
  unfold attempt
  cases s.begins i
  · cases s.closure i
    · cases s.rollback i <;> simp
    · cases s.commit i <;> simp
  · simp

-- An attempt whose COMMIT broke is never tried again.
theorem attempt_failed (h : s.attempt i = .failed t) (hagain : isRetryable t.error = true) :
    s.RolledBack i := by
  unfold attempt at h
  unfold RolledBack
  cases hbegin : s.begins i <;> rw [hbegin] at h
  · cases hclosure : s.closure i <;> rw [hclosure] at h
    · cases hrollback : s.rollback i <;> rw [hrollback] at h <;> cases h
      exact ⟨rfl, Or.inr ⟨_, rfl, rfl⟩⟩
    · cases hcommit : s.commit i <;> rw [hcommit] at h <;> cases h
      · exact ⟨rfl, Or.inl ⟨_, _, rfl, rfl⟩⟩
      · cases hdriver : s.driver <;> rw [hdriver] at hagain <;> cases hagain
  · cases h

theorem bounded (attempts : UInt32) :
    (s.transactionRetrying attempts).1 ≤ max attempts.toNat 1 := by
  have hmade : (s.transactionRetrying attempts).1 ≤ attemptsLeft attempts + 1 := loop_made.2
  unfold attemptsLeft at hmade
  omega

theorem once {attempts : UInt32} {made : Nat} (hmeant : s.transactionRetrying attempts = s.meant attempts)
    (hnone : s.NoneEmptied attempts) (h : s.transactionRetrying attempts = (made, .ok v)) :
    ∃ j, made = j + 1 ∧ s.Committed j ∧ ∀ k < j, s.RolledBack k := by
  obtain ⟨j, _, hmade, hdone, hreached⟩ := loop_ok h
  rw [hmeant] at h
  obtain ⟨j', hj, hmade', _, hreached'⟩ := loop_ok h
  obtain rfl : j' = j := by omega
  rw [Nat.zero_add] at hdone
  obtain ⟨hbegin, hclosure, hcommit⟩ := attempt_done_iff.mp hdone
  refine ⟨j', hmade, ⟨hbegin, ⟨v, hclosure⟩, ?_⟩, fun k hk => ?_⟩
  · exact hcommit.resolve_right (hnone j' hj hreached' hbegin v hclosure)
  · obtain ⟨t, hfailed, hagain⟩ := hreached k hk
    rw [Nat.zero_add] at hfailed
    exact attempt_failed hfailed hagain

theorem noneEmptied {attempts : UInt32} (h : s.Retries attempts) : s.NoneEmptied attempts := by
  intro j hj hreached hbegin v hclosure hcommit
  have hdone : s.attempt (0 + j) = .done v := by
    rw [Nat.zero_add]
    exact attempt_done_iff.mpr ⟨hbegin, hclosure, Or.inr hcommit⟩
  have hrun : s.transactionRetrying attempts = (j + 1, .ok v) :=
    h.again.trans (loop_done hj hreached hdone)
  obtain ⟨j', hmade, hcommitted, _⟩ := h.once _ _ hrun
  obtain rfl : j' = j := by omega
  have hcommits := hcommitted.2.2
  rw [hcommit] at hcommits
  cases hcommits

theorem again_iff (attempts : UInt32) :
    s.transactionRetrying attempts = s.meant attempts ↔ s.AllHeard attempts := by
  unfold transactionRetrying meant AllHeard
  rw [loop_eq_iff]
  refine forall_congr' fun j => forall_congr' fun _ => forall_congr' fun _ => ?_
  rw [Nat.zero_add]
  constructor
  · intro h driver place f hfailed
    exact (agrees_iff_heard driver place f).mp (Bool.eq_iff_iff.mp (h _ hfailed))
  · intro h t hfailed
    cases t with
    | database driver place f =>
        exact Bool.eq_iff_iff.mpr ((agrees_iff_heard driver place f).mpr (h driver place f hfailed))
    | broken driver place display => cases driver <;> cases place <;> rfl
    | own text => rfl

-- An error agrees with its failure exactly where the failure is heard, and the loop does
-- what it should exactly where all that it meets are, and every COMMIT commits.
theorem retries_iff (s : Session V) (attempts : UInt32) :
    (∀ driver place f, Agrees driver place f ↔ Heard driver place f) ∧
      (s.Retries attempts ↔ s.AllHeard attempts ∧ s.NoneEmptied attempts) := by
  refine ⟨agrees_iff_heard, fun h => ⟨(again_iff attempts).mp h.again, noneEmptied h⟩, fun ⟨hall, hnone⟩ => ?_⟩
  have hmeant := (again_iff attempts).mpr hall
  exact ⟨hmeant, bounded attempts, fun _ _ hrun => once hmeant hnone hrun⟩

def conflict : Failure :=
  ⟨some (.sqlstate "40001"), "could not serialize access due to concurrent update"⟩

-- A statement is refused for a conflict with another transaction. On a second try it
-- would go through.
def conflicted : Session Unit where
  driver := .postgresNative
  begins := fun _ => none
  closure := fun i => if i = 0 then .error (.database .postgresNative .tx conflict) else .ok ()
  commit := fun _ => .done
  rollback := fun _ => none

theorem conflict_returned : ¬ Agrees .postgresNative .tx conflict ∧ ¬ conflicted.Retries 3 := by
  constructor
  · intro h
    exact Bool.false_ne_true (h.mpr rfl)
  · intro h
    have hrun : conflicted.transactionRetrying 3 = (1, .error .serializationFailure) := rfl
    have hmeant : conflicted.meant 3 = (2, .ok ()) := rfl
    have hsame := h.again
    rw [hrun, hmeant] at hsame
    cases hsame

end Session

end Ruprizzle.Runtime.Retry
