import Mathlib.Data.Set.Card

namespace Ruprizzle.Interleave

-- Parties that step one at a time, each on a state of its own and on one they
-- share. A step is given what its environment answers, and none means that the
-- party has to wait.

variable {P A S L : Type} [DecidableEq P]

structure World (P S L : Type) where
  shared : S
  party : P → L

variable (step : P → A → S → L → Option (S × L))

def next (w : World P S L) (p : P) (a : A) : Option (World P S L) :=
  (step p a w.shared (w.party p)).map fun (s, l) => ⟨s, Function.update w.party p l⟩

inductive Reach (w : World P S L) : World P S L → Prop
  | start : Reach w w
  | step {v v' : World P S L} (p : P) (a : A) : Reach w v → next step v p a = some v' → Reach w v'

-- The runs whose every step meets a condition on the world before it.
inductive ReachWhen (Meets : World P S L → P → A → Prop) (w : World P S L) : World P S L → Prop
  | start : ReachWhen Meets w w
  | step {v v' : World P S L} (p : P) (a : A) : ReachWhen Meets w v → Meets v p a →
      next step v p a = some v' → ReachWhen Meets w v'

-- A schedule says who steps and what the environment answers.
def run (w : World P S L) : List (P × A) → Option (World P S L)
  | [] => some w
  | (p, a) :: rest => (next step w p a).bind fun v => run v rest

variable {step}

theorem Reach.trans {u v w : World P S L} (huv : Reach step u v) (hvw : Reach step v w) :
    Reach step u w := by
  induction hvw with
  | start => exact huv
  | step p a _ hnext ih => exact .step p a ih hnext

theorem reach_run {w v : World P S L} {schedule : List (P × A)} (h : run step w schedule = some v) :
    Reach step w v := by
  induction schedule generalizing w with
  | nil =>
      obtain rfl := Option.some.inj h
      exact .start
  | cons head rest ih =>
      obtain ⟨p, a⟩ := head
      obtain ⟨mid, hmid, hrest⟩ := Option.bind_eq_some_iff.mp h
      exact (Reach.step p a .start hmid).trans (ih hrest)

theorem next_eq_some {w v : World P S L} {p : P} {a : A} :
    next step w p a = some v ↔ ∃ s l, step p a w.shared (w.party p) = some (s, l) ∧
      v = ⟨s, Function.update w.party p l⟩ := by
  unfold next
  rw [Option.map_eq_some_iff]
  constructor
  · intro ⟨⟨s, l⟩, hstep, hv⟩
    exact ⟨s, l, hstep, hv.symm⟩
  · intro ⟨s, l, hstep, hv⟩
    exact ⟨(s, l), hstep, hv.symm⟩

-- What every step of every party keeps holds in every world that is reached.
theorem Reach.invariant {I : World P S L → Prop} {w v : World P S L} (h : Reach step w v)
    (hw : I w) (hstep : ∀ u u' p a, I u → next step u p a = some u' → I u') : I v := by
  induction h with
  | start => exact hw
  | step p a _ hnext ih => exact hstep _ _ p a ih hnext

theorem ReachWhen.invariant {Meets : World P S L → P → A → Prop} {I : World P S L → Prop}
    {w v : World P S L} (h : ReachWhen step Meets w v) (hw : I w)
    (hstep : ∀ u u' p a, I u → Meets u p a → next step u p a = some u' → I u') : I v := by
  induction h with
  | start => exact hw
  | step p a _ hmeets hnext ih => exact hstep _ _ p a ih hmeets hnext

-- An invariant of the shared state together with one for each party: a step
-- keeps its own party's, and none of the others' depends on it.
theorem Reach.local_invariant {G : S → Prop} {J : P → S → L → Prop} {w v : World P S L}
    (h : Reach step w v) (hshared : G w.shared) (hparty : ∀ p, J p w.shared (w.party p))
    (hown : ∀ p a s l s' l', G s → J p s l → step p a s l = some (s', l') → G s' ∧ J p s' l')
    (hother : ∀ p a s l s' l' q m, p ≠ q → G s → J p s l → J q s m →
      step p a s l = some (s', l') → J q s' m) :
    G v.shared ∧ ∀ p, J p v.shared (v.party p) := by
  refine h.invariant (I := fun w => G w.shared ∧ ∀ p, J p w.shared (w.party p))
    ⟨hshared, hparty⟩ ?_
  intro u u' p a ⟨hg, hj⟩ hnext
  obtain ⟨s, l, hstep, rfl⟩ := next_eq_some.mp hnext
  obtain ⟨hg', hj'⟩ := hown p a _ _ _ _ hg (hj p) hstep
  refine ⟨hg', fun q => ?_⟩
  by_cases hq : q = p
  · subst hq
    simpa using hj'
  · simpa [Function.update_of_ne hq] using
      hother p a _ _ _ _ q _ (Ne.symm hq) hg (hj p) (hj q) hstep

-- A gauge that each step moves as it moves its own party in or out of a group shows,
-- in every world reached, how many parties are in it.
section Gauge

variable {N : Type} {gauge : S → N} {shown : Nat → N} {u d : N → N} {Inside : L → Prop}
  {party : P → L} {p : P} {l : L}

def group (Inside : L → Prop) (party : P → L) : Set P := {p | Inside (party p)}

theorem group_same (h : Inside l ↔ Inside (party p)) :
    group Inside (Function.update party p l) = group Inside party := by
  ext q
  by_cases hq : q = p
  · subst hq
    simpa [group] using h
  · simp [group, hq]

theorem group_enter (h : Inside l) :
    group Inside (Function.update party p l) = insert p (group Inside party) := by
  ext q
  by_cases hq : q = p
  · subst hq
    simpa [group] using h
  · simp [group, hq]

theorem group_leave (h : Inside (party p)) :
    group Inside party = insert p (group Inside (Function.update party p l)) := by
  rw [← group_enter h, Function.update_idem, Function.update_eq_self]

structure Gauged (gauge : S → N) (shown : Nat → N) (Inside : L → Prop)
    (w : World P S L) : Prop where
  finite : (group Inside w.party).Finite
  shows : gauge w.shared = shown (group Inside w.party).ncard

theorem Gauged.next {w v : World P S L} {a : A} (h : Gauged gauge shown Inside w)
    (hup : ∀ n, shown (n + 1) = u (shown n)) (hdown : ∀ n, d (shown (n + 1)) = shown n)
    (hstep : ∀ s l, step p a w.shared (w.party p) = some (s, l) →
      (Inside l ↔ Inside (w.party p)) ∧ gauge s = gauge w.shared ∨
      ¬ Inside (w.party p) ∧ Inside l ∧ gauge s = u (gauge w.shared) ∨
      Inside (w.party p) ∧ ¬ Inside l ∧ gauge s = d (gauge w.shared))
    (hnext : next step w p a = some v) : Gauged gauge shown Inside v := by
  obtain ⟨s, l, hl, rfl⟩ := next_eq_some.mp hnext
  rcases hstep s l hl with ⟨hsame, hgauge⟩ | ⟨hout, hin, hgauge⟩ | ⟨hin, hout, hgauge⟩
  · have hgroup := group_same hsame
    exact ⟨by rw [hgroup]; exact h.finite, by rw [hgroup, ← h.shows]; exact hgauge⟩
  · have hnot : p ∉ group Inside w.party := hout
    have hcard := Set.ncard_insert_of_notMem hnot h.finite
    refine ⟨by rw [group_enter hin]; exact h.finite.insert p, ?_⟩
    rw [group_enter hin, hcard, hup, ← h.shows]
    exact hgauge
  · have hgroup := group_leave (l := l) hin
    have hfinite : (group Inside (Function.update w.party p l)).Finite :=
      h.finite.subset (hgroup ▸ Set.subset_insert _ _)
    have hnot : p ∉ group Inside (Function.update w.party p l) := by
      simpa [group] using hout
    have hcard := Set.ncard_insert_of_notMem hnot hfinite
    refine ⟨hfinite, ?_⟩
    rw [← hdown, ← hcard, ← hgroup, ← h.shows]
    exact hgauge

end Gauge

-- A party that no other one interrupts.
section Alone

variable (step) in
def solo (p : P) : List A → S → L → Option (S × L)
  | [], s, l => some (s, l)
  | a :: rest, s, l => (step p a s l).bind fun (s, l) => solo p rest s l

omit [DecidableEq P] in
theorem solo_append {p : P} {as bs : List A} {s s' : S} {l l' : L}
    (h : solo step p as s l = some (s', l')) :
    solo step p (as ++ bs) s l = solo step p bs s' l' := by
  induction as generalizing s l with
  | nil =>
      obtain ⟨rfl, rfl⟩ := Prod.mk.inj (Option.some.inj h)
      rfl
  | cons a as ih =>
      obtain ⟨mid, hmid, hrest⟩ := Option.bind_eq_some_iff.mp h
      rw [List.cons_append, solo, hmid]
      exact ih hrest

theorem run_solo {w : World P S L} {p : P} {as : List A} {s : S} {l : L}
    (h : solo step p as w.shared (w.party p) = some (s, l)) :
    run step w (as.map (p, ·)) = some ⟨s, Function.update w.party p l⟩ := by
  induction as generalizing w with
  | nil =>
      obtain ⟨rfl, rfl⟩ := Prod.mk.inj (Option.some.inj h)
      rw [Function.update_eq_self]
      rfl
  | cons a as ih =>
      obtain ⟨⟨s', l'⟩, hmid, hrest⟩ := Option.bind_eq_some_iff.mp h
      have hnext : next step w p a = some ⟨s', Function.update w.party p l'⟩ :=
        next_eq_some.mpr ⟨s', l', hmid, rfl⟩
      have hlater := ih (w := ⟨s', Function.update w.party p l'⟩)
        (by dsimp only; rw [Function.update_self]; exact hrest)
      rw [Function.update_idem] at hlater
      rw [List.map_cons, run, hnext]
      exact hlater

end Alone

-- What a party has met since it last stood still: a world of that time, from which it
-- has gone on without a stop.
section Since

variable (step) (still : L → Prop)

def Since (start : World P S L) (p : P) (Met : S → Prop) (v : World P S L) : Prop :=
  ∃ u, Reach step start u ∧ Met u.shared ∧
    ReachWhen step (fun (w : World P S L) (_ : P) (_ : A) => ¬ still (w.party p)) u v

variable {step still} {start v v' : World P S L} {p q : P} {a : A} {Met : S → Prop}

theorem Since.next (h : Since step still start p Met v) (hmoving : ¬ still (v.party p))
    (hnext : next step v q a = some v') : Since step still start p Met v' := by
  obtain ⟨u, hu, hmet, hlater⟩ := h
  exact ⟨u, hu, hmet, .step q a hlater hmoving hnext⟩

theorem Since.now (h : Reach step start v) (hmet : Met v.shared) :
    Since step still start p Met v :=
  ⟨v, h, hmet, .start⟩

end Since

end Ruprizzle.Interleave
