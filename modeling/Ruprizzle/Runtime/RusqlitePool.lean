import Mathlib.Data.List.Nodup
import Ruprizzle.Data.Interleave

namespace Ruprizzle.Runtime.Rusqlite

open Interleave

-- The pool of connections to one file. A party is one use of the pool: a statement
-- of its own, or a transaction with its statements. Each of its steps is done under
-- one lock, and a task may have any number of uses.

variable {P : Type} [DecidableEq P]

-- The idle connections are a stack. Beside them: on which connections a transaction
-- is open, how many holders there have been, and which of them have returned what
-- they held.
structure Inner where
  conns : List Nat
  openTx : Nat → Bool
  holders : Nat
  returned : List Nat

inductive Stmt
  | begin
  | commit
  | rollback
  deriving DecidableEq, Repr

-- The guard of one statement and a transaction hold a connection, a transaction
-- until it takes it out of itself.
inductive Use
  | idle
  | waiting (owned : Bool)
  | connGuard (holder conn : Nat)
  | starting (holder conn : Nat)
  | transaction (holder : Nat) (conn : Option Nat)
  | returning (holder conn : Nat) (kept : Bool)
  deriving DecidableEq, Repr

-- What a use does next, with what its environment makes of it: whether the wait has
-- timed out, whether a statement fails, whether the database has ended a transaction
-- of its own accord.
inductive Act
  | fetch
  | begin
  | popConn (timedOut : Bool)
  | statement (failed : Bool)
  | inTransaction (ended : Bool)
  | commit (failed : Bool)
  | rollback
  | drop
  | returnConn
  deriving DecidableEq, Repr

namespace Inner

variable (s : Inner)

-- A statement that fails leaves the transaction as it was.
def execute (conn : Nat) (stmt : Stmt) (failed : Bool) : Inner :=
  if failed then s
  else { s with openTx := Function.update s.openTx conn (stmt = .begin) }

-- A rollback that fails is not considered.
def endTransaction (conn : Nat) (stmt : Stmt) (failed : Bool) : Inner :=
  let s := s.execute conn stmt failed
  if failed ∧ stmt ≠ .rollback then s.execute conn .rollback false else s

def ended (conn : Nat) : Inner := { s with openTx := Function.update s.openTx conn false }

def popConn (timedOut owned : Bool) : Option (Inner × Use) :=
  match s.conns with
  | [] => if timedOut then some (s, .idle) else none
  | conn :: conns =>
      some ({ s with conns, holders := s.holders + 1 },
        if owned then .starting s.holders conn else .connGuard s.holders conn)

def returnConn (holder conn : Nat) (kept : Bool) : Inner × Use :=
  ({ s with conns := conn :: s.conns, returned := holder :: s.returned },
    if kept then .transaction holder none else .idle)

-- However the commit comes out, no transaction is left.
theorem endTransaction_commit (conn : Nat) (failed : Bool) :
    s.endTransaction conn .commit failed =
      { s with openTx := Function.update s.openTx conn false } := by
  cases failed <;> rfl

end Inner

def step (_p : P) (a : Act) (s : Inner) (u : Use) : Option (Inner × Use) :=
  match u, a with
  | .idle, .fetch => some (s, .waiting false)
  | .idle, .begin => some (s, .waiting true)
  | .waiting owned, .popConn timedOut => s.popConn timedOut owned
  | .connGuard holder conn, .statement _ => some (s, .returning holder conn false)
  | .starting holder conn, .statement failed =>
      if failed then some (s, .returning holder conn false)
      else some (s.execute conn .begin false, .transaction holder (some conn))
  | .transaction holder (some conn), .inTransaction ended =>
      some (if ended then s.ended conn else s, .transaction holder (some conn))
  | .transaction holder (some conn), .commit failed =>
      some (s.endTransaction conn .commit failed, .returning holder conn true)
  | .transaction holder (some conn), .rollback =>
      some (s.endTransaction conn .rollback false, .returning holder conn true)
  | .transaction holder (some conn), .drop =>
      some (s.endTransaction conn .rollback false, .returning holder conn false)
  | .transaction holder none, .commit _ => some (s, .transaction holder none)
  | .transaction holder none, .rollback => some (s, .transaction holder none)
  | .transaction _ none, .drop => some (s, .idle)
  | .returning holder conn kept, .returnConn => some (s.returnConn holder conn kept)
  | _, _ => none

abbrev Uses (P : Type) := World P Inner Use

def Uses.start (size : Nat) : Uses P := ⟨⟨List.range size, fun _ => false, 0, []⟩, fun _ => .idle⟩

def Use.held : Use → Option (Nat × Nat)
  | .connGuard holder conn => some (holder, conn)
  | .starting holder conn => some (holder, conn)
  | .transaction holder (some conn) => some (holder, conn)
  | .returning holder conn _ => some (holder, conn)
  | _ => none

-- Each connection is in the list once or held once, each holder holds or has
-- returned once, and what is in the list has no open transaction.
structure Conserved (size : Nat) (w : Uses P) : Prop where
  conns : ∀ conn < size,
    (w.shared.conns.count conn = 1 ∧ ∀ p holder, (w.party p).held ≠ some (holder, conn)) ∨
    (w.shared.conns.count conn = 0 ∧ ∃! p, ∃ holder, (w.party p).held = some (holder, conn))
  holders : ∀ holder < w.shared.holders,
    (w.shared.returned.count holder = 1 ∧ ∀ p conn, (w.party p).held ≠ some (holder, conn)) ∨
    (w.shared.returned.count holder = 0 ∧ ∃! p, ∃ conn, (w.party p).held = some (holder, conn))
  closed : ∀ conn ∈ w.shared.conns, conn < size ∧ w.shared.openTx conn = false

-- Where a use holds a connection outside of a transaction.
def Use.Closed : Use → Nat → Prop
  | .connGuard _ conn, c => c = conn
  | .starting _ conn, c => c = conn
  | .returning _ conn _, c => c = conn
  | _, _ => False

theorem Use.Closed.held {u : Use} {conn : Nat} (h : u.Closed conn) :
    ∃ holder, u.held = some (holder, conn) := by
  cases u with
  | connGuard holder c =>
      cases h
      exact ⟨holder, rfl⟩
  | starting holder c =>
      cases h
      exact ⟨holder, rfl⟩
  | returning holder c kept =>
      cases h
      exact ⟨holder, rfl⟩
  | idle => cases h
  | waiting owned => cases h
  | transaction holder c => cases h

structure Sound (size : Nat) (w : Uses P) : Prop where
  nodup : w.shared.conns.Nodup
  idle : ∀ conn ∈ w.shared.conns, conn < size ∧ w.shared.openTx conn = false
  held : ∀ p holder conn, (w.party p).held = some (holder, conn) →
    (conn < size ∧ conn ∉ w.shared.conns) ∧ holder < w.shared.holders ∧ holder ∉ w.shared.returned
  alone : ∀ p q holder conn holder' conn', (w.party p).held = some (holder, conn) →
    (w.party q).held = some (holder', conn') → holder = holder' ∨ conn = conn' → p = q
  closed : ∀ p conn, (w.party p).Closed conn → w.shared.openTx conn = false
  somewhere : ∀ conn < size, conn ∈ w.shared.conns ∨
    ∃ p holder, (w.party p).held = some (holder, conn)
  once : w.shared.returned.Nodup
  numbered : ∀ holder ∈ w.shared.returned, holder < w.shared.holders
  ended : ∀ holder < w.shared.holders, holder ∈ w.shared.returned ∨
    ∃ p conn, (w.party p).held = some (holder, conn)

namespace Sound

variable {size : Nat} {w : Uses P} {p : P}

omit [DecidableEq P] in
theorem conserved (h : Sound size w) : Conserved size w where
  conns := by
    intro conn hconn
    rcases h.somewhere conn hconn with hmem | ⟨p, holder, hp⟩
    · exact Or.inl ⟨List.count_eq_one_of_mem h.nodup hmem, fun p holder hp =>
        (h.held p holder conn hp).1.2 hmem⟩
    · refine Or.inr ⟨List.count_eq_zero.mpr (h.held p holder conn hp).1.2, p, ⟨holder, hp⟩, ?_⟩
      rintro q ⟨holder', hq⟩
      exact h.alone q p _ _ _ _ hq hp (Or.inr rfl)
  holders := by
    intro holder hholder
    rcases h.ended holder hholder with hmem | ⟨p, conn, hp⟩
    · exact Or.inl ⟨List.count_eq_one_of_mem h.once hmem, fun p conn hp =>
        (h.held p holder conn hp).2.2 hmem⟩
    · refine Or.inr ⟨List.count_eq_zero.mpr (h.held p holder conn hp).2.2, p, ⟨conn, hp⟩, ?_⟩
      rintro q ⟨conn', hq⟩
      exact h.alone q p _ _ _ _ hq hp (Or.inl rfl)
  closed := h.idle

omit [DecidableEq P] in
theorem init (size : Nat) : Sound size (Uses.start size : Uses P) where
  nodup := List.nodup_range
  idle := fun conn hmem => ⟨List.mem_range.mp hmem, rfl⟩
  held := by
    intro p holder conn hp
    cases hp
  alone := by
    intro p q holder conn holder' conn' hp
    cases hp
  closed := by
    intro p conn hp
    cases hp
  somewhere := fun conn hconn => Or.inl (List.mem_range.mpr hconn)
  once := List.nodup_nil
  numbered := by
    intro holder hmem
    cases hmem
  ended := by
    intro holder hholder
    cases hholder

theorem held_update {u : Use} (hheld : u.held = (w.party p).held) (q : P) :
    (Function.update w.party p u q).held = (w.party q).held := by
  by_cases hq : q = p
  · subst hq
    rw [Function.update_self, hheld]
  · rw [Function.update_of_ne hq]

-- A step that moves no connection: it may open or end a transaction on the one
-- that the use holds.
theorem keep (h : Sound size w) {openTx : Nat → Bool} {u : Use}
    (hheld : u.held = (w.party p).held)
    (hopen : ∀ conn, openTx conn ≠ w.shared.openTx conn → ∃ holder, u.held = some (holder, conn))
    (hclosed : ∀ conn, u.Closed conn → openTx conn = false) :
    Sound size ⟨{ w.shared with openTx }, Function.update w.party p u⟩ where
  nodup := h.nodup
  idle := by
    intro conn hmem
    refine ⟨(h.idle conn hmem).1, ?_⟩
    by_contra hnot
    obtain ⟨holder, hp⟩ := hopen conn fun heq => hnot (heq.trans (h.idle conn hmem).2)
    exact (h.held p holder conn (hheld ▸ hp)).1.2 hmem
  held := by
    intro q holder conn hq
    exact h.held q holder conn (held_update hheld q ▸ hq)
  alone := by
    intro q r holder conn holder' conn' hq hr
    exact h.alone q r _ _ _ _ (held_update hheld q ▸ hq) (held_update hheld r ▸ hr)
  closed := by
    intro q conn hq
    by_cases hqp : q = p
    · subst hqp
      exact hclosed conn (by simpa using hq)
    · simp only [Function.update_of_ne hqp] at hq
      by_contra hnot
      obtain ⟨holder, hp⟩ := hopen conn fun heq => hnot (heq.trans (h.closed q conn hq))
      obtain ⟨holder', hq'⟩ := hq.held
      exact hqp (h.alone q p _ _ _ _ hq' (hheld ▸ hp) (Or.inr rfl))
  somewhere := by
    intro conn hconn
    refine (h.somewhere conn hconn).imp_right fun ⟨q, holder, hq⟩ => ⟨q, holder, ?_⟩
    exact (held_update hheld q).trans hq
  once := h.once
  numbered := h.numbered
  ended := by
    intro holder hholder
    refine (h.ended holder hholder).imp_right fun ⟨q, conn, hq⟩ => ⟨q, conn, ?_⟩
    exact (held_update hheld q).trans hq

theorem popConn (h : Sound size w) {conn : Nat} {conns : List Nat} {u : Use}
    (hp : (w.party p).held = none) (hconns : w.shared.conns = conn :: conns)
    (hu : u.held = some (w.shared.holders, conn)) :
    Sound size ⟨{ w.shared with conns, holders := w.shared.holders + 1 },
      Function.update w.party p u⟩ := by
  have hnodup := h.nodup
  rw [hconns] at hnodup
  obtain ⟨hnew, hrest⟩ := List.nodup_cons.mp hnodup
  have hidle : ∀ c ∈ conns, c ∈ w.shared.conns := fun c hc => hconns ▸ List.mem_cons_of_mem _ hc
  have hconn : conn ∈ w.shared.conns := hconns ▸ List.mem_cons_self
  -- What another use holds, it held before, and it is not this connection.
  have hother : ∀ q holder c, q ≠ p → (Function.update w.party p u q).held = some (holder, c) →
      (w.party q).held = some (holder, c) ∧ c ≠ conn ∧ holder ≠ w.shared.holders := by
    intro q holder c hq hheld
    rw [Function.update_of_ne hq] at hheld
    obtain ⟨⟨-, hnot⟩, hlt, -⟩ := h.held q holder c hheld
    exact ⟨hheld, fun heq => hnot (heq ▸ hconn), by omega⟩
  have hown : ∀ holder c, (Function.update w.party p u p).held = some (holder, c) →
      holder = w.shared.holders ∧ c = conn := by
    intro holder c hheld
    rw [Function.update_self, hu] at hheld
    cases hheld
    exact ⟨rfl, rfl⟩
  have hstays : ∀ q holder c, (w.party q).held = some (holder, c) →
      (Function.update w.party p u q).held = some (holder, c) := by
    intro q holder c hheld
    have hq : q ≠ p := by
      rintro rfl
      rw [hp] at hheld
      cases hheld
    rwa [Function.update_of_ne hq]
  refine ⟨hrest, fun c hc => h.idle c (hidle c hc), ?_, ?_, ?_, ?_, h.once,
    fun holder hmem => Nat.lt_succ_of_lt (h.numbered holder hmem), ?_⟩
  · intro q holder c hq
    by_cases hqp : q = p
    · subst hqp
      obtain ⟨rfl, rfl⟩ := hown holder c hq
      exact ⟨⟨(h.idle c hconn).1, hnew⟩, Nat.lt_succ_self _, fun hmem =>
        absurd (h.numbered _ hmem) (Nat.lt_irrefl _)⟩
    · obtain ⟨hheld, -, -⟩ := hother q holder c hqp hq
      obtain ⟨⟨hlt, hnot⟩, hholder, hreturned⟩ := h.held q holder c hheld
      exact ⟨⟨hlt, fun hmem => hnot (hidle c hmem)⟩, Nat.lt_succ_of_lt hholder, hreturned⟩
  · intro q r holder c holder' c' hq hr heq
    by_cases hqp : q = p
    · by_cases hrp : r = p
      · rw [hqp, hrp]
      · subst hqp
        obtain ⟨rfl, rfl⟩ := hown holder c hq
        obtain ⟨-, hc, hholder⟩ := hother r holder' c' hrp hr
        rcases heq with heq | heq
        · exact absurd heq.symm hholder
        · exact absurd heq.symm hc
    · obtain ⟨hheld, hc, hholder⟩ := hother q holder c hqp hq
      by_cases hrp : r = p
      · subst hrp
        obtain ⟨rfl, rfl⟩ := hown holder' c' hr
        rcases heq with heq | heq
        · exact absurd heq hholder
        · exact absurd heq hc
      · exact h.alone q r _ _ _ _ hheld (hother r holder' c' hrp hr).1 heq
  · intro q c hclosed
    by_cases hqp : q = p
    · subst hqp
      obtain ⟨holder, hheld⟩ := hclosed.held
      obtain ⟨-, rfl⟩ := hown holder c hheld
      exact (h.idle c hconn).2
    · simp only [Function.update_of_ne hqp] at hclosed
      exact h.closed q c hclosed
  · intro c hc
    rcases h.somewhere c hc with hmem | ⟨q, holder, hq⟩
    · rw [hconns] at hmem
      rcases List.mem_cons.mp hmem with rfl | hmem
      · exact Or.inr ⟨p, w.shared.holders, by simpa using hu⟩
      · exact Or.inl hmem
    · exact Or.inr ⟨q, holder, hstays q holder c hq⟩
  · intro holder hholder
    rcases Nat.lt_succ_iff_lt_or_eq.mp hholder with hlt | rfl
    · exact (h.ended holder hlt).imp_right fun ⟨q, c, hq⟩ => ⟨q, c, hstays q holder c hq⟩
    · exact Or.inr ⟨p, conn, by simpa using hu⟩

theorem returnConn (h : Sound size w) {holder conn : Nat} {kept : Bool}
    (hp : w.party p = .returning holder conn kept) :
    Sound size ⟨(w.shared.returnConn holder conn kept).1,
      Function.update w.party p (w.shared.returnConn holder conn kept).2⟩ := by
  have hheld : (w.party p).held = some (holder, conn) := by rw [hp]; rfl
  obtain ⟨⟨hlt, hnot⟩, hholder, hreturned⟩ := h.held p holder conn hheld
  have hnone : (w.shared.returnConn holder conn kept).2.held = none := by
    cases kept <;> rfl
  -- What is held now was held before, by another use.
  have hother : ∀ q g c, (Function.update w.party p (w.shared.returnConn holder conn kept).2 q).held =
      some (g, c) → q ≠ p ∧ (w.party q).held = some (g, c) := by
    intro q g c hq
    by_cases hqp : q = p
    · subst hqp
      rw [Function.update_self, hnone] at hq
      cases hq
    · rw [Function.update_of_ne hqp] at hq
      exact ⟨hqp, hq⟩
  have hstays : ∀ q g c, (w.party q).held = some (g, c) → q ≠ p →
      (Function.update w.party p (w.shared.returnConn holder conn kept).2 q).held = some (g, c) := by
    intro q g c hq hqp
    rwa [Function.update_of_ne hqp]
  refine ⟨List.nodup_cons.mpr ⟨hnot, h.nodup⟩, ?_, ?_, ?_, ?_, ?_,
    List.nodup_cons.mpr ⟨hreturned, h.once⟩, ?_, ?_⟩
  · intro c hc
    rcases List.mem_cons.mp hc with rfl | hc
    · exact ⟨hlt, h.closed p c (by rw [hp]; rfl)⟩
    · exact h.idle c hc
  · intro q g c hq
    obtain ⟨hqp, hbefore⟩ := hother q g c hq
    obtain ⟨⟨hclt, hcnot⟩, hg, hgnot⟩ := h.held q g c hbefore
    refine ⟨⟨hclt, fun hmem => ?_⟩, hg, fun hmem => ?_⟩
    · rcases List.mem_cons.mp hmem with rfl | hmem
      · exact hqp (h.alone q p _ _ _ _ hbefore hheld (Or.inr rfl))
      · exact hcnot hmem
    · rcases List.mem_cons.mp hmem with rfl | hmem
      · exact hqp (h.alone q p _ _ _ _ hbefore hheld (Or.inl rfl))
      · exact hgnot hmem
  · intro q r g c g' c' hq hr
    exact h.alone q r _ _ _ _ (hother q g c hq).2 (hother r g' c' hr).2
  · intro q c hclosed
    obtain ⟨g, hq⟩ := hclosed.held
    obtain ⟨hqp, -⟩ := hother q g c hq
    simp only [Function.update_of_ne hqp] at hclosed
    exact h.closed q c hclosed
  · intro c hc
    rcases h.somewhere c hc with hmem | ⟨q, g, hq⟩
    · exact Or.inl (List.mem_cons_of_mem _ hmem)
    · by_cases hqp : q = p
      · subst hqp
        rw [hheld] at hq
        cases hq
        exact Or.inl List.mem_cons_self
      · exact Or.inr ⟨q, g, hstays q g c hq hqp⟩
  · intro g hmem
    rcases List.mem_cons.mp hmem with rfl | hmem
    · exact hholder
    · exact h.numbered g hmem
  · intro g hg
    rcases h.ended g hg with hmem | ⟨q, c, hq⟩
    · exact Or.inl (List.mem_cons_of_mem _ hmem)
    · by_cases hqp : q = p
      · subst hqp
        rw [hheld] at hq
        cases hq
        exact Or.inl List.mem_cons_self
      · exact Or.inr ⟨q, c, hstays q g c hq hqp⟩

theorem still (h : Sound size w) {u : Use} (hheld : u.held = (w.party p).held)
    (hclosed : ∀ conn, u.Closed conn → (w.party p).Closed conn) :
    Sound size ⟨w.shared, Function.update w.party p u⟩ :=
  h.keep hheld (fun _ hne => absurd rfl hne) fun conn hc => h.closed p conn (hclosed conn hc)

theorem touch (h : Sound size w) {u : Use} {holder conn : Nat} {value : Bool}
    (hp : (w.party p).held = some (holder, conn)) (hu : u.held = some (holder, conn))
    (hclosed : ∀ c, u.Closed c → value = false) :
    Sound size ⟨{ w.shared with openTx := Function.update w.shared.openTx conn value },
      Function.update w.party p u⟩ := by
  refine h.keep (hu.trans hp.symm) (fun c hne => ?_) (fun c hc => ?_)
  · have hconn : c = conn := by
      by_contra hnot
      exact hne (Function.update_of_ne hnot ..)
    exact ⟨holder, hconn ▸ hu⟩
  · obtain ⟨holder', hheld⟩ := hc.held
    rw [hu] at hheld
    cases hheld
    rw [Function.update_self]
    exact hclosed _ hc

theorem next (h : Sound size w) {a : Act} {w' : Uses P} (hnext : next step w p a = some w') :
    Sound size w' := by
  obtain ⟨s, u, hstep, rfl⟩ := next_eq_some.mp hnext
  unfold step at hstep
  split at hstep
  · rename_i hp
    cases hstep
    exact h.still (by rw [hp]; rfl) fun _ hc => hc.elim
  · rename_i hp
    cases hstep
    exact h.still (by rw [hp]; rfl) fun _ hc => hc.elim
  · rename_i owned timedOut hp
    cases hconns : w.shared.conns with
    | nil =>
        simp only [Inner.popConn, hconns] at hstep
        split at hstep
        · cases hstep
          exact h.still (by rw [hp]; rfl) fun _ hc => hc.elim
        · cases hstep
    | cons conn conns =>
        simp only [Inner.popConn, hconns] at hstep
        cases hstep
        exact h.popConn (by rw [hp]; rfl) hconns (by split <;> rfl)
  · rename_i holder conn failed hp
    cases hstep
    exact h.still (by rw [hp]; rfl) fun c hc => by rw [hp]; exact hc
  · rename_i holder conn failed hp
    split at hstep
    · cases hstep
      exact h.still (by rw [hp]; rfl) fun c hc => by rw [hp]; exact hc
    · cases hstep
      exact h.touch (by rw [hp]; rfl) rfl fun _ hc => hc.elim
  · rename_i holder conn ended hp
    cases hstep
    split
    · exact h.touch (by rw [hp]; rfl) rfl fun _ hc => hc.elim
    · exact h.still (by rw [hp]) fun _ hc => hc.elim
  · rename_i holder conn failed hp
    cases hstep
    rw [w.shared.endTransaction_commit]
    exact h.touch (by rw [hp]; rfl) rfl fun _ _ => rfl
  · rename_i holder conn hp
    cases hstep
    exact h.touch (by rw [hp]; rfl) rfl fun _ _ => rfl
  · rename_i holder conn hp
    cases hstep
    exact h.touch (by rw [hp]; rfl) rfl fun _ _ => rfl
  · rename_i holder failed hp
    cases hstep
    exact h.still (by rw [hp]) fun _ hc => hc.elim
  · rename_i holder hp
    cases hstep
    exact h.still (by rw [hp]) fun _ hc => hc.elim
  · rename_i holder hp
    cases hstep
    exact h.still (by rw [hp]; rfl) fun _ hc => hc.elim
  · rename_i holder conn kept hp
    have hreturn : w.shared.returnConn holder conn kept = (s, u) := Option.some.inj hstep
    have hsound := h.returnConn hp
    rw [hreturn] at hsound
    exact hsound
  · cases hstep

end Sound

theorem pool_conserved (size : Nat) {w : Uses P} (h : Reach step (Uses.start size) w) :
    Conserved size w :=
  (h.invariant (Sound.init size) fun _ _ _ _ hsound hnext => hsound.next hnext).conserved

-- Two connections: a transaction whose commit fails, another that is dropped, and a
-- statement that had to wait for one of them.
theorem pool_conserved_run :
    ∃ w : Uses Nat, run step (Uses.start 2)
        [(0, .begin), (0, .popConn false), (0, .statement false), (1, .begin), (1, .popConn false),
          (1, .statement false), (2, .fetch), (0, .commit true), (0, .returnConn),
          (2, .popConn false), (1, .inTransaction true), (1, .drop), (1, .returnConn),
          (2, .statement true), (2, .returnConn), (0, .drop)] = some w ∧
      w.shared.conns = [0, 1] ∧ w.shared.returned = [2, 1, 0] ∧ Conserved 2 w := by
  have hrun : ((run step (Uses.start 2 : Uses Nat)
      [(0, .begin), (0, .popConn false), (0, .statement false), (1, .begin), (1, .popConn false),
        (1, .statement false), (2, .fetch), (0, .commit true), (0, .returnConn),
        (2, .popConn false), (1, .inTransaction true), (1, .drop), (1, .returnConn),
        (2, .statement true), (2, .returnConn), (0, .drop)]).map
      fun w => (w.shared.conns, w.shared.returned)) = some ([0, 1], [2, 1, 0]) := by decide
  obtain ⟨w, hw, hshared⟩ := Option.map_eq_some_iff.mp hrun
  exact ⟨w, hw, congrArg Prod.fst hshared, congrArg Prod.snd hshared,
    pool_conserved 2 (reach_run hw)⟩

end Ruprizzle.Runtime.Rusqlite
