import Ruprizzle.Data.Interleave

namespace Ruprizzle.Runtime.TokioPostgres

open Interleave

-- Transactions of the native PostgreSQL driver. A party is one use of the pool: a begin
-- and the transaction that comes of it, up to the task that rolls it back. A task may
-- have any number of uses.

variable {P : Type} [DecidableEq P]

-- A checked-out connection, whose session is moved along with it: what owns the object
-- has the session for itself.
structure Object where
  inTransaction : Bool
  closed : Bool
  deriving DecidableEq, Repr

inductive Stmt
  | begin
  | commit
  | rollback
  | other
  deriving DecidableEq, Repr

-- What a round trip comes to: whether the statement fails and whether, after a statement
-- of the caller's or a COMMIT that fails, a transaction is open. A begin finds a runtime
-- or none.
structure Outcome where
  failed : Bool
  inTransaction : Bool
  runtime : Bool
  deriving DecidableEq, Repr

namespace Object

variable (client : Object) (outcome : Outcome)

-- The server has run a statement to its end.
def executed : Stmt → Object
  | .begin => if outcome.failed then client else { client with inTransaction := true }
  | .commit => { client with inTransaction := outcome.failed && outcome.inTransaction }
  | .rollback =>
      if outcome.failed then { client with closed := true }
      else { client with inTransaction := false }
  | .other => { client with inTransaction := outcome.inTransaction }

end Object

-- The connections in the pool's rotation.
structure Rotation where
  idle : List Object
  deriving DecidableEq, Repr

namespace Rotation

variable (s : Rotation)

def checkout : Rotation × Object :=
  match s.idle with
  | [] => (s, ⟨false, false⟩)
  | client :: idle => (⟨idle⟩, client)

-- An object is dropped. A closed connection is not kept.
def putBack (client : Object) : Rotation :=
  if client.closed then s else ⟨s.idle ++ [client]⟩

end Rotation

-- Each statement is a round trip that prepares it and one that executes it.
inductive Phase
  | prepare
  | execute
  deriving DecidableEq, Repr

-- The object is held by a local of begin, by the transaction, by a local of finish or by
-- the task that a dropped transaction spawns.
inductive Use
  | idle
  | acquiring
  | beginning (client : Object) (phase : Phase)
  | transaction (client : Object) (runtime : Bool)
  | executing (client : Object) (runtime : Bool) (phase : Phase)
  | committing (client : Object) (phase : Phase)
  | rollingBack (client : Object) (phase : Phase) (spawned : Bool)
  deriving DecidableEq, Repr

-- What a use does next: it calls a method, the round trip that it awaits comes back, or
-- its future or its transaction is dropped.
inductive Act
  | begin
  | checkout
  | refused
  | execute
  | commit
  | rollback
  | reply (outcome : Outcome)
  | drop (outcome : Outcome)
  deriving DecidableEq, Repr

-- The end of a ROLLBACK that reached the server.
def rolledBack (s : Rotation) (client : Object) (outcome : Outcome) : Rotation × Use :=
  (s.putBack (client.executed outcome .rollback), .idle)

-- A round trip that is under way is completed by the server when its future is dropped.
def step (_p : P) (a : Act) (s : Rotation) (u : Use) : Option (Rotation × Use) :=
  match u, a with
  | .idle, .begin => some (s, .acquiring)
  | .acquiring, .checkout => some (s.checkout.1, .beginning s.checkout.2 .prepare)
  | .acquiring, .refused => some (s, .idle)
  | .acquiring, .drop _ => some (s, .idle)
  | .beginning client .prepare, .reply outcome =>
      if outcome.failed then some (s.putBack client, .idle)
      else some (s, .beginning client .execute)
  | .beginning client .execute, .reply outcome =>
      if outcome.failed then some (s.putBack client, .idle)
      else some (s, .transaction (client.executed outcome .begin) outcome.runtime)
  | .beginning client .prepare, .drop _ => some (s.putBack client, .idle)
  | .beginning client .execute, .drop outcome =>
      some (s.putBack (client.executed outcome .begin), .idle)
  | .transaction client runtime, .execute => some (s, .executing client runtime .prepare)
  | .executing client runtime .prepare, .reply outcome =>
      if outcome.failed then some (s, .transaction client runtime)
      else some (s, .executing client runtime .execute)
  | .executing client runtime .execute, .reply outcome =>
      some (s, .transaction (client.executed outcome .other) runtime)
  | .executing client runtime .prepare, .drop _ => some (s, .transaction client runtime)
  | .executing client runtime .execute, .drop outcome =>
      some (s, .transaction (client.executed outcome .other) runtime)
  | .transaction client _, .commit => some (s, .committing client .prepare)
  | .transaction client _, .rollback => some (s, .rollingBack client .prepare false)
  | .committing client .prepare, .reply outcome =>
      if outcome.failed then some (s, .rollingBack client .prepare false)
      else some (s, .committing client .execute)
  | .committing client .execute, .reply outcome =>
      if outcome.failed then
        some (s, .rollingBack (client.executed outcome .commit) .prepare false)
      else some (s.putBack (client.executed outcome .commit), .idle)
  | .committing client .prepare, .drop _ => some (s.putBack client, .idle)
  | .committing client .execute, .drop outcome =>
      some (s.putBack (client.executed outcome .commit), .idle)
  | .rollingBack client .prepare spawned, .reply outcome =>
      if outcome.failed then some (rolledBack s client outcome)
      else some (s, .rollingBack client .execute spawned)
  | .rollingBack client .execute _, .reply outcome => some (rolledBack s client outcome)
  | .rollingBack client .prepare false, .drop _ => some (s.putBack client, .idle)
  | .rollingBack client .execute false, .drop outcome => some (rolledBack s client outcome)
  -- Without a runtime the object is taken out of the pool.
  | .transaction client runtime, .drop _ =>
      if runtime then some (s, .rollingBack client .prepare true) else some (s, .idle)
  | _, _ => none

abbrev Uses (P : Type) := World P Rotation Use

def Uses.start : Uses P := ⟨⟨[]⟩, fun _ => .idle⟩

-- No connection in rotation has a transaction open on it.
def Rotation.Clean (s : Rotation) : Prop := ∀ client ∈ s.idle, client.inTransaction = false

instance (s : Rotation) : Decidable s.Clean := inferInstanceAs (Decidable (∀ _ ∈ _, _))

-- A future that is dropped does not leave a transaction behind: no begin whose BEGIN goes
-- through, no commit or rollback before its statement is sent, no COMMIT that fails and
-- leaves the transaction open.
def Spared (u : Use) (a : Act) : Prop :=
  match u, a with
  | .beginning _ .execute, .drop outcome => outcome.failed = true
  | .committing client .prepare, .drop _ => client.inTransaction = false
  | .committing _ .execute, .drop outcome => outcome.failed = true → outcome.inTransaction = false
  | .rollingBack client .prepare false, .drop _ => client.inTransaction = false
  | _, _ => True

-- Nobody holds a closed connection, and a begin holds one without a transaction.
def Use.Sound : Use → Prop
  | .beginning client _ => client.inTransaction = false ∧ client.closed = false
  | .transaction client _ => client.closed = false
  | .executing client _ _ => client.closed = false
  | .committing client _ => client.closed = false
  | .rollingBack client _ _ => client.closed = false
  | _ => True

def Rotation.Sound (s : Rotation) : Prop := s.Clean ∧ ∀ client ∈ s.idle, client.closed = false

namespace Rotation

variable {s : Rotation} {client : Object}

theorem sound_checkout (h : s.Sound) : s.checkout.1.Sound ∧ s.checkout.2.inTransaction = false ∧
    s.checkout.2.closed = false := by
  obtain ⟨idle⟩ := s
  obtain ⟨hclean, hopen⟩ := h
  cases idle with
  | nil => exact ⟨⟨hclean, hopen⟩, rfl, rfl⟩
  | cons client idle =>
      obtain ⟨hclient, hidle⟩ := List.forall_mem_cons.mp hclean
      obtain ⟨hnot, hrest⟩ := List.forall_mem_cons.mp hopen
      exact ⟨⟨hidle, hrest⟩, hclient, hnot⟩

theorem clean_putBack (h : s.Clean) (hopen : client.closed = false) :
    (s.putBack client).Clean ↔ client.inTransaction = false := by
  unfold putBack Clean
  rw [hopen, if_neg Bool.false_ne_true]
  constructor
  · intro hall
    exact hall client (by simp)
  · intro hclient c hc
    rcases List.mem_append.mp hc with hold | hnew
    · exact h c hold
    · rwa [List.mem_singleton.mp hnew]

theorem closed_putBack (h : ∀ c ∈ s.idle, c.closed = false) :
    ∀ c ∈ (s.putBack client).idle, c.closed = false := by
  intro c hc
  unfold putBack at hc
  split at hc
  · exact h c hc
  · next hopen =>
    rcases List.mem_append.mp hc with hold | hnew
    · exact h c hold
    · rw [List.mem_singleton.mp hnew]
      simpa using hopen

-- What a step makes of a rotation, with what tells whether it is clean.
def Keeps (s : Rotation) (spared : Prop) : Prop :=
  (s.Clean ↔ spared) ∧ ∀ client ∈ s.idle, client.closed = false

theorem Keeps.of_true {spared : Prop} (h : s.Keeps True) (hspared : spared) : s.Keeps spared :=
  ⟨h.1.trans (iff_of_true trivial hspared), h.2⟩

theorem Sound.keeps (h : s.Sound) : s.Keeps True := ⟨iff_of_true h.1 trivial, h.2⟩

theorem Sound.putBack (h : s.Sound) (hopen : client.closed = false) :
    (s.putBack client).Keeps (client.inTransaction = false) :=
  ⟨clean_putBack h.1 hopen, closed_putBack h.2⟩

theorem Sound.putBack_clean (h : s.Sound) (hopen : client.closed = false)
    (hclient : client.inTransaction = false) : (s.putBack client).Keeps True :=
  ⟨(clean_putBack h.1 hopen).trans (iff_of_true hclient trivial), closed_putBack h.2⟩

theorem Sound.rolledBack (h : s.Sound) (hopen : client.closed = false) (outcome : Outcome) :
    (rolledBack s client outcome).1.Keeps True := by
  unfold TokioPostgres.rolledBack Object.executed
  cases hfailed : outcome.failed with
  | true =>
      -- The connection is closed and not kept.
      simpa [Rotation.putBack] using h.keeps
  | false => exact h.putBack_clean hopen rfl

end Rotation

section

variable {p : P} {a : Act} {s s' : Rotation} {u u' : Use}

omit [DecidableEq P] in
-- One step of one use.
theorem step_keeps (hs : s.Sound) (hu : u.Sound) (h : step p a s u = some (s', u')) :
    s'.Keeps (Spared u a) ∧ u'.Sound := by
  cases u with
  | idle =>
      cases a with
      | begin =>
          cases h
          exact ⟨hs.keeps, trivial⟩
      | _ => cases h
  | acquiring =>
      obtain ⟨hclean, hclient⟩ := Rotation.sound_checkout hs
      cases a with
      | checkout =>
          cases h
          exact ⟨hclean.keeps, hclient⟩
      | refused =>
          cases h
          exact ⟨hs.keeps, trivial⟩
      | drop outcome =>
          cases h
          exact ⟨hs.keeps, trivial⟩
      | _ => cases h
  | beginning client phase =>
      obtain ⟨hclient, hopen⟩ := hu
      have hback := hs.putBack_clean hopen hclient
      cases phase with
      | prepare =>
          cases a with
          | reply outcome =>
              unfold step at h
              dsimp only at h
              split at h
              · cases h
                exact ⟨hback, trivial⟩
              · cases h
                exact ⟨hs.keeps, hclient, hopen⟩
          | drop outcome =>
              cases h
              exact ⟨hback, trivial⟩
          | _ => cases h
      | execute =>
          cases a with
          | reply outcome =>
              unfold step at h
              dsimp only at h
              split at h
              · cases h
                exact ⟨hback, trivial⟩
              · next hdone =>
                cases h
                refine ⟨hs.keeps, ?_⟩
                show (client.executed outcome .begin).closed = false
                simpa [Object.executed, hdone] using hopen
          | drop outcome =>
              cases h
              refine ⟨?_, trivial⟩
              cases hfailed : outcome.failed with
              | true => simpa [Spared, Object.executed, hfailed] using hback
              | false =>
                  have hbegun : Object.closed { client with inTransaction := true } = false := hopen
                  simpa [Spared, Object.executed, hfailed] using hs.putBack hbegun
          | _ => cases h
  | transaction client runtime =>
      cases a with
      | execute =>
          cases h
          exact ⟨hs.keeps, hu⟩
      | commit =>
          cases h
          exact ⟨hs.keeps, hu⟩
      | rollback =>
          cases h
          exact ⟨hs.keeps, hu⟩
      | drop outcome =>
          unfold step at h
          dsimp only at h
          split at h
          · cases h
            exact ⟨hs.keeps, hu⟩
          · cases h
            exact ⟨hs.keeps, trivial⟩
      | _ => cases h
  | executing client runtime phase =>
      cases phase with
      | prepare =>
          cases a with
          | reply outcome =>
              unfold step at h
              dsimp only at h
              split at h
              · cases h
                exact ⟨hs.keeps, hu⟩
              · cases h
                exact ⟨hs.keeps, hu⟩
          | drop outcome =>
              cases h
              exact ⟨hs.keeps, hu⟩
          | _ => cases h
      | execute =>
          cases a with
          | reply outcome =>
              cases h
              exact ⟨hs.keeps, hu⟩
          | drop outcome =>
              cases h
              exact ⟨hs.keeps, hu⟩
          | _ => cases h
  | committing client phase =>
      cases phase with
      | prepare =>
          cases a with
          | reply outcome =>
              unfold step at h
              dsimp only at h
              split at h
              · cases h
                exact ⟨hs.keeps, hu⟩
              · cases h
                exact ⟨hs.keeps, hu⟩
          | drop outcome =>
              cases h
              exact ⟨hs.putBack hu, trivial⟩
          | _ => cases h
      | execute =>
          cases a with
          | reply outcome =>
              unfold step at h
              dsimp only at h
              split at h
              · cases h
                exact ⟨hs.keeps, hu⟩
              · next hdone =>
                cases h
                exact ⟨hs.putBack_clean hu (by simp [Object.executed, hdone]), trivial⟩
          | drop outcome =>
              cases h
              have hexecuted : (client.executed outcome .commit).closed = false := hu
              obtain ⟨hclean, hclosed⟩ := hs.putBack hexecuted
              refine ⟨⟨hclean.trans ?_, hclosed⟩, trivial⟩
              simp [Spared, Object.executed]
          | _ => cases h
  | rollingBack client phase spawned =>
      cases phase with
      | prepare =>
          cases a with
          | reply outcome =>
              have hspared : Spared (.rollingBack client .prepare spawned) (.reply outcome) := by
                cases spawned <;> trivial
              unfold step at h
              dsimp only at h
              split at h
              · cases h
                exact ⟨(hs.rolledBack hu outcome).of_true hspared, trivial⟩
              · cases h
                exact ⟨hs.keeps.of_true hspared, hu⟩
          | drop outcome =>
              cases spawned with
              | true => cases h
              | false =>
                  cases h
                  exact ⟨hs.putBack hu, trivial⟩
          | _ => cases spawned <;> cases h
      | execute =>
          cases a with
          | reply outcome =>
              cases h
              exact ⟨hs.rolledBack hu outcome, trivial⟩
          | drop outcome =>
              cases spawned with
              | true => cases h
              | false =>
                  cases h
                  exact ⟨hs.rolledBack hu outcome, trivial⟩
          | _ => cases spawned <;> cases h

end

-- A world whose rotation is clean and whose uses are sound.
def Clean (w : Uses P) : Prop := w.shared.Sound ∧ ∀ p, (w.party p).Sound

theorem Clean.next {w w' : Uses P} {p : P} {a : Act} (hw : Clean w)
    (h : Interleave.next step w p a = some w') :
    w'.shared.Keeps (Spared (w.party p) a) ∧ ∀ q, (w'.party q).Sound := by
  obtain ⟨s, u, hstep, rfl⟩ := next_eq_some.mp h
  obtain ⟨hkeeps, hu⟩ := step_keeps hw.1 (hw.2 p) hstep
  refine ⟨hkeeps, fun q => ?_⟩
  by_cases hq : q = p
  · subst hq
    simpa using hu
  · simpa [Function.update_of_ne hq] using hw.2 q

-- As long as no dropped future leaves a transaction behind, no connection is put back
-- with one, and the first one that does puts one back.
theorem never_dirty {w w' : Uses P} {p : P} {a : Act}
    (h : ReachWhen step (fun v q b => Spared (v.party q) b) Uses.start w) :
    w.shared.Clean ∧ (Interleave.next step w p a = some w' →
      (w'.shared.Clean ↔ Spared (w.party p) a)) := by
  have hclean : Clean w := by
    refine h.invariant (I := Clean) ⟨⟨fun c hc => ?_, fun c hc => ?_⟩, fun _ => trivial⟩ ?_
    · cases hc
    · cases hc
    intro u u' q b hu hspared hnext
    obtain ⟨⟨hiff, hclosed⟩, hsound⟩ := hu.next hnext
    exact ⟨⟨hiff.mpr hspared, hclosed⟩, hsound⟩
  exact ⟨hclean.1.1, fun hnext => (hclean.next hnext).1.1⟩

def done : Act := .reply ⟨false, false, true⟩

-- A transaction is dropped, and rolled back by the task that it spawns.
theorem never_dirty_dropped : ∃ w : Uses Unit,
    run step Uses.start [((), .begin), ((), .checkout), ((), done), ((), done),
      ((), .drop ⟨false, false, true⟩), ((), done), ((), done)] = some w ∧
      w.shared.idle = [⟨false, false⟩] ∧ w.shared.Clean := by
  have h₁ := ReachWhen.step () .begin
    (.start : ReachWhen step (fun v q b => Spared (v.party q) b) (Uses.start : Uses Unit) _)
    trivial rfl
  have h₂ := ReachWhen.step () .checkout h₁ trivial rfl
  have h₃ := ReachWhen.step () done h₂ trivial rfl
  have h₄ := ReachWhen.step () done h₃ trivial rfl
  have h₅ := ReachWhen.step () (.drop ⟨false, false, true⟩) h₄ trivial rfl
  have h₆ := ReachWhen.step () done h₅ trivial rfl
  have h₇ := ReachWhen.step () done h₆ trivial rfl
  exact ⟨_, rfl, rfl, (@never_dirty Unit _ _ Uses.start () .begin h₇).1⟩

-- A begin is dropped while the server executes its BEGIN, and a commit is dropped before
-- its COMMIT is sent.
theorem futures_dropped :
    (∃ w : Uses Unit, run step Uses.start [((), .begin), ((), .checkout), ((), done),
      ((), .drop ⟨false, true, true⟩)] = some w ∧ ¬w.shared.Clean) ∧
    (∃ w : Uses Unit, run step Uses.start [((), .begin), ((), .checkout), ((), done), ((), done),
      ((), .commit), ((), .drop ⟨false, true, true⟩)] = some w ∧ ¬w.shared.Clean) :=
  ⟨⟨_, rfl, by decide⟩, ⟨_, rfl, by decide⟩⟩

end Ruprizzle.Runtime.TokioPostgres
