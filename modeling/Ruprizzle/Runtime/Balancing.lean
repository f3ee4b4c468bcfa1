import Ruprizzle.Data.Turns
import Ruprizzle.Runtime.Routing

namespace Ruprizzle.Runtime.Routing

open Interleave RoutedPool

-- A request that no other one interrupts is routed as the code reads from top to bottom.
section Alone

variable {P : Type} {p : P} {s : RoutedPool} {r : Request} (draw : UInt64)

theorem solo_filtering (k : Nat) (hk : k ≤ s.replicas.length) :
    solo step p (List.replicate k (.load draw)) s (.filtering r 0 []) =
      some (s, .filtering r k ((List.range k).filter s.isHealthy)) := by
  induction k with
  | zero => rfl
  | succ k ih =>
      rw [List.replicate_succ', solo_append (ih (by omega))]
      have hget : s.replicas[k]? = some s.replicas[k] := List.getElem?_eq_getElem (by omega)
      have hflag := isHealthy_of_getElem? hget
      rw [solo, step, hget, List.range_succ, List.filter_append]
      cases hhealthy : s.replicas[k].healthy with
      | true => simp [solo, hflag, hhealthy]
      | false => simp [solo, hflag, hhealthy]

theorem solo_comparing (loaded : List (Nat × UInt64)) (rest : List Nat) :
    solo step p (List.replicate rest.length (.load draw)) s (.comparing r loaded rest) =
      some (s, .comparing r (loaded ++ rest.map fun i => (i, s.activeConnections i)) []) := by
  induction rest generalizing loaded with
  | nil => simp [solo]
  | cons i rest ih =>
      rw [List.length_cons, List.replicate_succ, solo, step]
      have hrest := ih (loaded ++ [(i, s.activeConnections i)])
      rw [List.append_assoc] at hrest
      exact hrest

theorem solo_route (hreads : r.Reads) : ∃ k,
    solo step p (.submit r :: List.replicate k (.load draw)) s .idle =
      some ((s.routeRead draw).2, r.follow s.replicas (s.routeRead draw).1) := by
  have henter : r.enter = .filtering r 0 [] := by
    cases r with
    | fetchAll sql => exact if_pos hreads
    | stream sql => exact if_pos hreads
    | execute => exact hreads.elim
    | begin => exact hreads.elim
    | selectReplica => rfl
  have hfilter := solo_filtering (p := p) (r := r) draw s.replicas.length (Nat.le_refl _)
  generalize hhealthy : (List.range s.replicas.length).filter s.isHealthy = healthy at hfilter
  have hchoose : ∀ more, solo step p (.submit r ::
      List.replicate (s.replicas.length + (1 + more)) (.load draw)) s .idle =
      solo step p (List.replicate more (.load draw)) (s.choose r healthy draw).1
        (s.choose r healthy draw).2 := by
    intro more
    rw [solo, step, henter]
    dsimp only [Option.bind_some]
    rw [List.replicate_add, solo_append hfilter, List.replicate_add]
    have hget : s.replicas[s.replicas.length]? = none := List.getElem?_eq_none (Nat.le_refl _)
    rw [show List.replicate 1 (Act.load draw) = [.load draw] from rfl, List.singleton_append, solo,
      step, hget]
    rfl
  by_cases hcount : healthy.length = 0
  · refine ⟨s.replicas.length + (1 + 0), (hchoose 0).trans ?_⟩
    simp [solo, choose, routeRead, pickHealthy, hhealthy, hcount]
  · cases hlb : s.loadBalancing with
    | roundRobin =>
        refine ⟨s.replicas.length + (1 + 0), (hchoose 0).trans ?_⟩
        simp [solo, choose, routeRead, pickHealthy, hhealthy, hcount, hlb]
    | leastConnections =>
        refine ⟨s.replicas.length + (1 + (healthy.length + 1)), (hchoose _).trans ?_⟩
        have hstart : s.choose r healthy draw = (s, .comparing r [] healthy) := by
          simp [choose, hcount, hlb]
        rw [hstart, List.replicate_succ', solo_append (solo_comparing draw [] healthy), solo, step]
        rw [List.nil_append, Extremes.minByKey_map, Option.map_map]
        simp [solo, routeRead, pickHealthy, hhealthy, hcount, hlb, Function.comp_def]
    | random =>
        refine ⟨s.replicas.length + (1 + 0), (hchoose 0).trans ?_⟩
        simp [solo, choose, routeRead, pickHealthy, hhealthy, hcount, hlb]

end Alone

-- The replicas that are handed out, in the order in which the index is taken.
section Turns

variable {P : Type} [DecidableEq P] {w v : World P RoutedPool Stage} {p : P} {a : Act}

def handed : Stage → Stage → Option Nat
  | .filtering _ _ _, .picked _ i => some i
  | .filtering _ _ _, .selected (some i) => some i
  | _, _ => none

def handedOut (w : World P RoutedPool Stage) : List (P × Act) → List Nat
  | [] => []
  | (p, a) :: rest =>
      match next step w p a with
      | none => []
      | some v => (handed (w.party p) (v.party p)).toList ++ handedOut v rest

def RoutedPool.healthyReplicas (s : RoutedPool) : List Nat :=
  (List.range s.replicas.length).filter s.isHealthy

-- No flag changes over a run.
def Steady (w : World P RoutedPool Stage) (schedule : List (P × Act)) : Prop :=
  ∀ past, past <+: schedule → ∀ u, run step w past = some u →
    ∀ i, u.shared.isHealthy i = w.shared.isHealthy i

theorem Steady.next {rest : List (P × Act)} (h : Steady w ((p, a) :: rest))
    (hnext : Interleave.next step w p a = some v) :
    (∀ i, v.shared.isHealthy i = w.shared.isHealthy i) ∧ Steady v rest := by
  have hfirst := h [(p, a)] ⟨rest, rfl⟩ v (by rw [run, hnext]; rfl)
  refine ⟨hfirst, fun past hpast u hu i => ?_⟩
  have hlater := h ((p, a) :: past) (List.cons_prefix_cons.mpr ⟨rfl, hpast⟩) u
    (by rw [run, hnext]; exact hu) i
  exact hlater.trans (hfirst i).symm

-- What a read has looked at so far is what stands there.
def Looked (s : RoutedPool) (t : Stage) : Prop :=
  ∀ r i healthy, t = .filtering r i healthy → r.Reads ∧ i ≤ s.replicas.length ∧
    healthy = (List.range i).filter s.isHealthy

theorem looked_follow {s : RoutedPool} {r : Request} {replicas : List ReplicaPool}
    {route : ReadRoute} : Looked s (r.follow replicas route) := by
  intro r' i healthy h
  cases r <;> cases route <;> cases h

theorem looked_enter {s : RoutedPool} (r : Request) : Looked s r.enter := by
  intro r' i healthy h
  have hstart : ∀ r : Request, r.Reads → Stage.filtering r 0 [] = .filtering r' i healthy →
      r'.Reads ∧ i ≤ s.replicas.length ∧ healthy = (List.range i).filter s.isHealthy := by
    rintro r hreads ⟨⟩
    exact ⟨hreads, Nat.zero_le _, rfl⟩
  cases r with
  | fetchAll sql =>
      rw [Request.enter] at h
      split at h
      · next hsafe => exact hstart (.fetchAll sql) hsafe h
      · cases h
  | stream sql =>
      rw [Request.enter] at h
      split at h
      · next hsafe => exact hstart (.stream sql) hsafe h
      · cases h
  | execute => cases h
  | begin => cases h
  | selectReplica => exact hstart .selectReplica trivial h

theorem Looked.alike {s s' : RoutedPool} {t : Stage} (h : Looked s t) (halike : Alike s s')
    (hflags : ∀ i, s'.isHealthy i = s.isHealthy i) : Looked s' t := by
  intro r i healthy ht
  obtain ⟨hreads, hle, heq⟩ := h r i healthy ht
  refine ⟨hreads, halike.length ▸ hle, heq.trans (List.filter_congr fun j _ => (hflags j).symm)⟩

theorem Move.looked {s s' : RoutedPool} {t t' : Stage} (h : Move s a t s' t')
    (hlooked : Looked s t) : Looked s t' := by
  have hother : ∀ {t : Stage}, (∀ r i healthy, t ≠ .filtering r i healthy) → Looked s t :=
    fun hne r i healthy ht => absurd ht (hne r i healthy)
  cases h with
  | submit r => exact looked_enter r
  | @look r i healthy draw hlt =>
      obtain ⟨hreads, -, rfl⟩ := hlooked r i healthy rfl
      rintro _ _ _ ⟨⟩
      refine ⟨hreads, hlt, ?_⟩
      rw [List.range_succ, List.filter_append]
      cases hflag : s.isHealthy i with
      | true => simp [hflag]
      | false => simp [hflag]
  | @choose r i healthy draw hle =>
      rcases (choose_cases s r healthy draw).2.2 with ⟨-, heq⟩ | ⟨-, heq⟩ | ⟨j, -, heq⟩
      · rw [heq]
        exact looked_follow
      · rw [heq]
        exact hother (by simp)
      · rw [heq]
        exact looked_follow
  | compare => exact hother (by simp)
  | decide => exact looked_follow
  | start => exact hother (by simp)
  | drop => exact hother (by simp)
  | finish => exact hother (by simp)
  | setHealthy => exact hother (by simp)
  | checkHealth => exact hother (by simp)
  | ping => exact hother (by simp)

theorem handed_follow {r r' : Request} {index i : Nat} {healthy : List Nat}
    {replicas : List ReplicaPool} (hreads : r'.Reads) :
    handed (.filtering r index healthy) (r'.follow replicas (.replica i)) = some i := by
  cases r' with
  | fetchAll sql => rfl
  | stream sql => rfl
  | execute => exact hreads.elim
  | begin => exact hreads.elim
  | selectReplica => rfl

-- A step hands nothing out and leaves the index, or takes the turn that it stands at.
theorem Move.turn {s s' : RoutedPool} {t t' : Stage} (h : Move s a t s' t')
    (hlb : s.loadBalancing = .roundRobin) (hlooked : Looked s t) (hne : s.healthyReplicas ≠ []) :
    handed t t' = none ∧ s'.rrIndex = s.rrIndex ∨
      ∃ i, handed t t' = some i ∧ Turns.taker s.healthyReplicas s.rrIndex.toNat = some i ∧
        s'.rrIndex = s.rrIndex + 1 := by
  cases h with
  | submit => exact Or.inl ⟨rfl, rfl⟩
  | look => exact Or.inl ⟨rfl, rfl⟩
  | @choose r i healthy draw hle =>
      obtain ⟨hreads, hge, rfl⟩ := hlooked r i healthy rfl
      obtain rfl := Nat.le_antisymm hge hle
      obtain ⟨j, -, htaker⟩ := Turns.taker_eq_some hne s.rrIndex.toNat
      have hchoose : s.choose r s.healthyReplicas draw =
          (s.nextIndex, r.follow s.replicas (.replica j)) := by
        have hcount : s.healthyReplicas.length ≠ 0 := fun h => hne (List.length_eq_zero_iff.mp h)
        unfold RoutedPool.choose
        dsimp only
        rw [if_neg hcount, hlb, ← Turns.taker, htaker]
        rfl
      refine Or.inr ⟨j, ?_, htaker, ?_⟩
      · rw [← healthyReplicas, hchoose]
        exact handed_follow hreads
      · rw [← healthyReplicas, hchoose]
        rfl
  | compare => exact Or.inl ⟨rfl, rfl⟩
  | decide => exact Or.inl ⟨rfl, rfl⟩
  | start => exact Or.inl ⟨rfl, rfl⟩
  | drop => exact Or.inl ⟨rfl, rfl⟩
  | finish =>
      refine Or.inl ⟨?_, rfl⟩
      cases t <;> rfl
  | setHealthy => exact Or.inl ⟨rfl, rfl⟩
  | checkHealth => exact Or.inl ⟨rfl, rfl⟩
  | ping => exact Or.inl ⟨rfl, rfl⟩

theorem handedOut_eq {schedule : List (P × Act)} (hrun : run step w schedule = some v)
    (hlb : w.shared.loadBalancing = .roundRobin) (hlooked : ∀ p, Looked w.shared (w.party p))
    (hne : w.shared.healthyReplicas ≠ []) (hsteady : Steady w schedule)
    (hwrap : w.shared.rrIndex.toNat + (handedOut w schedule).length < 2 ^ 64) :
    handedOut w schedule = Turns.takers w.shared.healthyReplicas w.shared.rrIndex.toNat
      (handedOut w schedule).length := by
  induction schedule generalizing w with
  | nil => rfl
  | cons head rest ih =>
      obtain ⟨p, a⟩ := head
      obtain ⟨u, hnext, hrest⟩ := Option.bind_eq_some_iff.mp hrun
      obtain ⟨hflags, hlater⟩ := hsteady.next hnext
      have halike := alike_next hnext
      have hout : handedOut w ((p, a) :: rest) =
          (handed (w.party p) (u.party p)).toList ++ handedOut u rest := by
        rw [handedOut, hnext]
      obtain ⟨s, t, hstep, rfl⟩ := next_eq_some.mp hnext
      have hmove := step_move hstep
      have hsame : RoutedPool.healthyReplicas s = w.shared.healthyReplicas := by
        unfold healthyReplicas
        rw [halike.length]
        exact List.filter_congr fun i _ => hflags i
      have hlooked' : ∀ q, Looked s (Function.update w.party p t q) := by
        intro q
        by_cases hq : q = p
        · subst hq
          rw [Function.update_self]
          exact (hmove.looked (hlooked q)).alike halike hflags
        · rw [Function.update_of_ne hq]
          exact (hlooked q).alike halike hflags
      have hmore := ih hrest (halike.loadBalancing.trans hlb) hlooked' (hsame ▸ hne) hlater
      rw [hout] at hwrap ⊢
      dsimp only at hmore hwrap ⊢
      rw [Function.update_self] at hwrap ⊢
      rcases hmove.turn hlb (hlooked p) hne with ⟨hnone, hindex⟩ | ⟨i, hsome, htaker, hindex⟩
      · rw [hnone] at hwrap ⊢
        rw [hindex, hsame] at hmore
        exact hmore hwrap
      · rw [hsome] at hwrap ⊢
        simp only [Option.toList_some, List.singleton_append, List.length_cons] at hwrap ⊢
        have hadd : s.rrIndex.toNat = w.shared.rrIndex.toNat + 1 := by
          have hlt : w.shared.rrIndex.toNat + 1 < 2 ^ 64 := by omega
          rw [hindex, UInt64.toNat_add]
          exact Nat.mod_eq_of_lt hlt
        rw [hadd, hsame] at hmore
        rw [Turns.takers_succ htaker]
        exact congrArg (i :: ·) (hmore (by omega))

def Act.keepsFlags : Act → Bool
  | .setHealthy _ _ | .ping _ => false
  | _ => true

theorem Move.flags {s s' : RoutedPool} {t t' : Stage} (h : Move s a t s' t')
    (hkeeps : a.keepsFlags = true) (i : Nat) : s'.isHealthy i = s.isHealthy i := by
  have hmodify : ∀ (f : ReplicaPool → ReplicaPool) (j : Nat), (∀ r, (f r).healthy = r.healthy) →
      isHealthy { s with replicas := s.replicas.modify j f } i = s.isHealthy i := by
    intro f j hf
    unfold isHealthy
    rw [List.getElem?_modify]
    cases s.replicas[i]? with
    | none => split <;> rfl
    | some replica =>
        split
        · exact hf replica
        · rfl
  cases h with
  | submit | look | compare | decide | finish | checkHealth => rfl
  | @choose r j healthy draw hle =>
      unfold isHealthy
      rw [(choose_cases s r healthy draw).2.1]
  | @start r j draw => exact hmodify _ j fun _ => rfl
  | @drop r j => exact hmodify _ j fun _ => rfl
  | setHealthy => cases hkeeps
  | ping => cases hkeeps

theorem steady_of_actions {schedule : List (P × Act)}
    (h : ∀ e ∈ schedule, e.2.keepsFlags = true) : Steady w schedule := by
  rintro past ⟨later, rfl⟩ u hu i
  replace h := fun e he => h e (List.mem_append_left later he)
  induction past generalizing w with
  | nil =>
      obtain rfl := Option.some.inj hu
      rfl
  | cons head past ih =>
      obtain ⟨p, a⟩ := head
      obtain ⟨v, hnext, hrest⟩ := Option.bind_eq_some_iff.mp hu
      obtain ⟨s, t, hstep, rfl⟩ := next_eq_some.mp hnext
      rw [ih hrest fun e he => h e (List.mem_cons_of_mem _ he)]
      exact (step_move hstep).flags (h (p, a) List.mem_cons_self) i

-- Three times a pool is asked for, of two.
def threePools : List (Unit × Act) :=
  (List.replicate 3 [((), .submit .selectReplica), ((), .load 0), ((), .load 0), ((), .load 0),
    ((), .finish)]).flatten

end Turns

section LeastConnections

variable {P : Type} [DecidableEq P] {v : World P RoutedPool Stage} {p : P} {r : Request}
  {b : RoutedPoolBuilder}

end LeastConnections

end Ruprizzle.Runtime.Routing
