import Ruprizzle.Runtime.Replicas

namespace Ruprizzle.Runtime.Routing

open Interleave

namespace RoutedPool

variable (s : RoutedPool) (i j : Nat) (healthy : Bool)

@[simp] theorem length_setHealthy : (s.setHealthy i healthy).replicas.length = s.replicas.length :=
  List.length_modify _ _ _

@[simp] theorem length_start : (s.start i).replicas.length = s.replicas.length :=
  List.length_modify _ _ _

@[simp] theorem length_drop : (s.drop i).replicas.length = s.replicas.length :=
  List.length_modify _ _ _

theorem activeConnections_modify (f : ReplicaPool → ReplicaPool) (hj : j < s.replicas.length) :
    activeConnections { s with replicas := s.replicas.modify i f } j =
      if i = j then (f s.replicas[j]).activeConns else s.activeConnections j := by
  unfold activeConnections
  rw [List.getElem?_modify, List.getElem?_eq_getElem hj]
  split <;> rfl

theorem activeConnections_setHealthy (hj : j < s.replicas.length) :
    (s.setHealthy i healthy).activeConnections j = s.activeConnections j := by
  rw [setHealthy, activeConnections_modify s i j _ hj, activeConnections,
    List.getElem?_eq_getElem hj]
  split <;> rfl

theorem activeConnections_start (hj : j < s.replicas.length) : (s.start i).activeConnections j =
    if i = j then s.activeConnections j + 1 else s.activeConnections j := by
  rw [start, activeConnections_modify s i j _ hj, activeConnections, List.getElem?_eq_getElem hj]
  rfl

theorem activeConnections_drop (hj : j < s.replicas.length) : (s.drop i).activeConnections j =
    if i = j then s.activeConnections j - 1 else s.activeConnections j := by
  rw [drop, activeConnections_modify s i j _ hj, activeConnections, List.getElem?_eq_getElem hj]
  rfl

-- What no step changes.
structure Alike (s s' : RoutedPool) : Prop where
  length : s'.replicas.length = s.replicas.length
  loadBalancing : s'.loadBalancing = s.loadBalancing
  fallbackToPrimary : s'.fallbackToPrimary = s.fallbackToPrimary

variable {s} {s' s'' : RoutedPool}

theorem Alike.refl (s : RoutedPool) : Alike s s := ⟨rfl, rfl, rfl⟩

theorem Alike.trans (h : Alike s s') (h' : Alike s' s'') : Alike s s'' :=
  ⟨h'.length.trans h.length, h'.loadBalancing.trans h.loadBalancing,
    h'.fallbackToPrimary.trans h.fallbackToPrimary⟩

theorem Alike.replicas_eq_nil (h : Alike s s') : s'.replicas = [] ↔ s.replicas = [] := by
  rw [← List.length_eq_zero_iff, ← List.length_eq_zero_iff, h.length]

theorem lt_of_isHealthy (h : s.isHealthy i = true) : i < s.replicas.length := by
  by_contra hlt
  rw [isHealthy, List.getElem?_eq_none (Nat.le_of_not_lt hlt)] at h
  cases h

variable {i} in
theorem isHealthy_of_getElem? {replica : ReplicaPool} (h : s.replicas[i]? = some replica) :
    s.isHealthy i = replica.healthy := by
  rw [isHealthy, h]
  rfl

end RoutedPool

open RoutedPool

-- What is chosen among the healthy replicas, as one step or as the beginning of more.
theorem choose_cases (s : RoutedPool) (r : Request) (healthy : List Nat) (draw : UInt64) :
    Alike s (s.choose r healthy draw).1 ∧
    (s.choose r healthy draw).1.replicas = s.replicas ∧
    ((healthy = [] ∧ (s.choose r healthy draw).2 = r.follow s.replicas (s.route none)) ∨
      (healthy ≠ [] ∧ (s.choose r healthy draw).2 = .comparing r [] healthy) ∨
      ∃ i ∈ healthy, (s.choose r healthy draw).2 = r.follow s.replicas (.replica i)) := by
  have hget : ∀ k, healthy ≠ [] → ∃ i ∈ healthy, healthy[k % healthy.length]? = some i := by
    intro k hne
    have hlt := Nat.mod_lt k (List.length_pos_iff.mpr hne)
    exact ⟨_, List.getElem_mem hlt, List.getElem?_eq_getElem hlt⟩
  unfold choose
  dsimp only
  split
  · next h =>
      exact ⟨Alike.refl s, rfl, Or.inl ⟨List.length_eq_zero_iff.mp h, rfl⟩⟩
  · next h =>
      have hne : healthy ≠ [] := fun hnil => h (by rw [hnil]; rfl)
      cases hlb : s.loadBalancing with
      | roundRobin =>
          obtain ⟨i, hi, heq⟩ := hget s.rrIndex.toNat hne
          refine ⟨⟨rfl, rfl, rfl⟩, rfl, Or.inr (Or.inr ⟨i, hi, ?_⟩)⟩
          rw [heq]
          rfl
      | leastConnections => exact ⟨Alike.refl s, rfl, Or.inr (Or.inl ⟨hne, rfl⟩)⟩
      | random =>
          obtain ⟨i, hi, heq⟩ := hget draw.toNat hne
          refine ⟨⟨rfl, rfl, rfl⟩, rfl, Or.inr (Or.inr ⟨i, hi, ?_⟩)⟩
          rw [heq]
          rfl

-- What a step does, by the stage it is taken at.
inductive Move (s : RoutedPool) : Act → Stage → RoutedPool → Stage → Prop
  | submit (r : Request) : Move s (.submit r) .idle s r.enter
  | look {r : Request} {i : Nat} {healthy : List Nat} (draw : UInt64)
      (h : i < s.replicas.length) : Move s (.load draw) (.filtering r i healthy) s
        (.filtering r (i + 1) (if s.isHealthy i then healthy ++ [i] else healthy))
  | choose {r : Request} {i : Nat} {healthy : List Nat} (draw : UInt64)
      (h : s.replicas.length ≤ i) : Move s (.load draw) (.filtering r i healthy)
        (s.choose r healthy draw).1 (s.choose r healthy draw).2
  | compare {r : Request} {loaded : List (Nat × UInt64)} {i : Nat} {rest : List Nat}
      (draw : UInt64) : Move s (.load draw) (.comparing r loaded (i :: rest)) s
        (.comparing r (loaded ++ [(i, s.activeConnections i)]) rest)
  | decide {r : Request} {loaded : List (Nat × UInt64)} (draw : UInt64) :
      Move s (.load draw) (.comparing r loaded []) s (r.follow s.replicas
        (s.route ((Extremes.minByKey (fun e : Nat × UInt64 => e.2.toNat) loaded).map Prod.fst)))
  | start {r : Request} {i : Nat} (draw : UInt64) :
      Move s (.load draw) (.picked r i) (s.start i) (.reading r i)
  | drop {r : Request} {i : Nat} : Move s .finish (.reading r i) (s.drop i) .idle
  | finish {t : Stage} (h : ∀ r i, t ≠ .reading r i) (hchosen : ∀ r i, t ≠ .picked r i) :
      Move s .finish t s .idle
  | setHealthy (i : Nat) (healthy : Bool) :
      Move s (.setHealthy i healthy) .idle (s.setHealthy i healthy) .idle
  | checkHealth : Move s .checkHealth .idle s (.checking 0)
  | ping (ok : Bool) {i : Nat} (h : i < s.replicas.length) :
      Move s (.ping ok) (.checking i) (s.setHealthy i ok) (.checking (i + 1))

theorem step_move {P : Type} {p : P} {a : Act} {s s' : RoutedPool} {t t' : Stage}
    (h : step p a s t = some (s', t')) : Move s a t s' t' := by
  unfold step at h
  split at h
  · cases h
    exact .submit _
  · split at h
    · next replica heq =>
        cases h
        rw [← isHealthy_of_getElem? heq]
        exact .look _ (List.getElem?_eq_some_iff.mp heq).1
    · next heq =>
        obtain ⟨hs, ht⟩ := Prod.mk.inj (Option.some.inj h)
        rw [← hs, ← ht]
        exact .choose _ (List.getElem?_eq_none_iff.mp heq)
  · cases h
    exact .compare _
  · cases h
    exact .decide _
  · cases h
    exact .start _
  · cases h
    exact .drop
  · cases h
    exact .finish (by simp) (by simp)
  · cases h
    exact .finish (by simp) (by simp)
  · cases h
    exact .finish (by simp) (by simp)
  · cases h
    exact .finish (by simp) (by simp)
  · cases h
    exact .setHealthy _ _
  · cases h
    exact .checkHealth
  · split at h
    · next hlt =>
        cases h
        exact .ping _ hlt
    · cases h
  · cases h

theorem Move.alike {a : Act} {s s' : RoutedPool} {t t' : Stage} (h : Move s a t s' t') :
    Alike s s' := by
  cases h with
  | submit | look | compare | decide | finish | checkHealth => exact Alike.refl s
  | choose => exact (choose_cases _ _ _ _).1
  | start => exact ⟨length_start _ _, rfl, rfl⟩
  | drop => exact ⟨length_drop _ _, rfl, rfl⟩
  | setHealthy => exact ⟨length_setHealthy _ _ _, rfl, rfl⟩
  | ping => exact ⟨length_setHealthy _ _ _, rfl, rfl⟩

section Runs

variable {P : Type} [DecidableEq P] {w v v' : World P RoutedPool Stage} {p q : P} {a : Act}

-- At some moment since it was asked for, before it was answered, the replica was so.
def Saw (w v : World P RoutedPool Stage) (p : P) (i : Nat) (healthy : Bool) : Prop :=
  Since step (· = Stage.idle) w p
    (fun s => i < s.replicas.length ∧ s.isHealthy i = healthy) v

def AllUnhealthy (w v : World P RoutedPool Stage) (p : P) : Prop :=
  ∀ i < v.shared.replicas.length, Saw w v p i false

def Request.Reads : Request → Prop
  | .fetchAll sql => isReplicaSafe sql = true
  | .stream sql => isReplicaSafe sql = true
  | .selectReplica => True
  | _ => False

-- What a request knows of the replicas at each stage.
def Known (w v : World P RoutedPool Stage) (p : P) : Stage → Prop
  | .idle => True
  | .filtering r index healthy => r.Reads ∧ (∀ i ∈ healthy, Saw w v p i true) ∧
      ∀ i < index, i < v.shared.replicas.length → i ∉ healthy → Saw w v p i false
  | .comparing r loaded rest => r.Reads ∧ loaded.map Prod.fst ++ rest ≠ [] ∧
      ∀ i ∈ loaded.map Prod.fst ++ rest, Saw w v p i true
  | .picked r i => r.Reads ∧ Saw w v p i true
  | .reading r i => r.Reads ∧ Saw w v p i true
  | .onPrimary r => r.Reads →
      (v.shared.fallbackToPrimary = true ∨ v.shared.replicas = []) ∧ AllUnhealthy w v p
  | .refused r => r.Reads ∧ v.shared.fallbackToPrimary = false ∧ v.shared.replicas ≠ [] ∧
      AllUnhealthy w v p
  | .selected none =>
      (v.shared.fallbackToPrimary = true ∨ v.shared.replicas = []) ∧ AllUnhealthy w v p
  | .selected (some i) => Saw w v p i true ∨
      v.shared.fallbackToPrimary = false ∧ i = 0 ∧ v.shared.replicas ≠ [] ∧ AllUnhealthy w v p
  | .checking _ => True

theorem alike_next (h : next step v q a = some v') : Alike v.shared v'.shared := by
  obtain ⟨s, l, hstep, rfl⟩ := next_eq_some.mp h
  exact (step_move hstep).alike

theorem Saw.next {i : Nat} {healthy : Bool} (h : Saw w v p i healthy)
    (hmoving : v.party p ≠ .idle) (hnext : next step v q a = some v') : Saw w v' p i healthy :=
  Since.next h hmoving hnext

theorem AllUnhealthy.next (h : AllUnhealthy w v p) (hmoving : v.party p ≠ .idle)
    (hnext : next step v q a = some v') : AllUnhealthy w v' p := fun i hi =>
  (h i ((alike_next hnext).length ▸ hi)).next hmoving hnext

-- What is known stays known while the request is on its way.
theorem Known.next {t : Stage} (h : Known w v p t) (hmoving : v.party p ≠ .idle)
    (hnext : next step v q a = some v') : Known w v' p t := by
  have halike := alike_next hnext
  have hall : AllUnhealthy w v p → AllUnhealthy w v' p := fun h => h.next hmoving hnext
  have hsaw : ∀ {i b}, Saw w v p i b → Saw w v' p i b := fun h => h.next hmoving hnext
  cases t with
  | idle => exact h
  | filtering r index healthy =>
      obtain ⟨hreads, hhealthy, hothers⟩ := h
      exact ⟨hreads, fun i hi => hsaw (hhealthy i hi),
        fun i hi hlt hnot => hsaw (hothers i hi (halike.length ▸ hlt) hnot)⟩
  | comparing r loaded rest =>
      obtain ⟨hreads, hne, hhealthy⟩ := h
      exact ⟨hreads, hne, fun i hi => hsaw (hhealthy i hi)⟩
  | picked r i => exact ⟨h.1, hsaw h.2⟩
  | reading r i => exact ⟨h.1, hsaw h.2⟩
  | onPrimary r =>
      intro hreads
      obtain ⟨hallowed, hseen⟩ := h hreads
      rw [halike.fallbackToPrimary, halike.replicas_eq_nil]
      exact ⟨hallowed, hall hseen⟩
  | refused r =>
      obtain ⟨hreads, hoff, hne, hseen⟩ := h
      exact ⟨hreads, halike.fallbackToPrimary.trans hoff, mt halike.replicas_eq_nil.mp hne,
        hall hseen⟩
  | selected replica =>
      cases replica with
      | none =>
          obtain ⟨hallowed, hseen⟩ := h
          refine ⟨?_, hall hseen⟩
          rwa [halike.fallbackToPrimary, halike.replicas_eq_nil]
      | some i =>
          rcases h with h | ⟨hoff, hfirst, hne, hseen⟩
          · exact Or.inl (hsaw h)
          · exact Or.inr ⟨halike.fallbackToPrimary.trans hoff, hfirst,
              mt halike.replicas_eq_nil.mp hne, hall hseen⟩
  | checking index => exact h

theorem known_enter (r : Request) : Known w v p r.enter := by
  have hnone : ∀ r : Request, r.Reads → Known w v p (.filtering r 0 []) := fun r hreads =>
    ⟨hreads, by simp, fun i hi => absurd hi (Nat.not_lt_zero i)⟩
  cases r with
  | fetchAll sql =>
      rw [Request.enter]
      split
      · next hsafe => exact hnone _ hsafe
      · next hsafe => exact fun hreads => absurd hreads hsafe
  | stream sql =>
      rw [Request.enter]
      split
      · next hsafe => exact hnone _ hsafe
      · next hsafe => exact fun hreads => absurd hreads hsafe
  | execute => exact fun hreads => hreads.elim
  | begin => exact fun hreads => hreads.elim
  | selectReplica => exact hnone _ trivial

theorem known_replica {r : Request} {i : Nat} (hreads : r.Reads) (h : Saw w v p i true) :
    Known w v p (r.follow v.shared.replicas (.replica i)) := by
  cases r with
  | fetchAll sql => exact ⟨hreads, h⟩
  | stream sql => exact ⟨hreads, h⟩
  | execute => exact hreads.elim
  | begin => exact hreads.elim
  | selectReplica => exact Or.inl h

theorem known_none {r : Request} (hreads : r.Reads) (h : AllUnhealthy w v p) :
    Known w v p (r.follow v.shared.replicas (v.shared.route none)) := by
  by_cases hallowed : v.shared.fallbackToPrimary = true ∨ v.shared.replicas = []
  · rw [show v.shared.route none = .primary from if_pos hallowed]
    cases r with
    | fetchAll sql => exact fun _ => ⟨hallowed, h⟩
    | stream sql => exact fun _ => ⟨hallowed, h⟩
    | execute => exact hreads.elim
    | begin => exact hreads.elim
    | selectReplica => exact ⟨hallowed, h⟩
  · rw [show v.shared.route none = .noHealthyReplica from if_neg hallowed]
    rw [not_or, Bool.not_eq_true] at hallowed
    obtain ⟨hoff, hne⟩ := hallowed
    cases r with
    | fetchAll sql => exact ⟨hreads, hoff, hne, h⟩
    | stream sql => exact ⟨hreads, hoff, hne, h⟩
    | execute => exact hreads.elim
    | begin => exact hreads.elim
    | selectReplica =>
        rw [Request.follow, if_neg hne]
        exact Or.inr ⟨hoff, rfl, hne, h⟩

-- What a request knows after a step, still looked at from the world before it.
theorem Move.known {s' : RoutedPool} {t' : Stage} (h : Move v.shared a (v.party p) s' t')
    (hreach : Reach step w v) (hknown : Known w v p (v.party p)) : Known w v p t' := by
  generalize ht : v.party p = t at h hknown
  cases h with
  | submit r => exact known_enter r
  | @look r i healthy draw hlt =>
      obtain ⟨hreads, hhealthy, hothers⟩ := hknown
      have hnow : Saw w v p i (v.shared.isHealthy i) := Since.now hreach ⟨hlt, rfl⟩
      split
      · next hflag =>
          rw [hflag] at hnow
          refine ⟨hreads, fun j hj => ?_, fun j hj hjlt hnot => ?_⟩
          · rcases List.mem_append.mp hj with hj | hj
            · exact hhealthy j hj
            · rwa [List.mem_singleton.mp hj]
          · rw [List.mem_append, not_or, List.mem_singleton] at hnot
            exact hothers j (by omega) hjlt hnot.1
      · next hflag =>
          rw [Bool.not_eq_true] at hflag
          rw [hflag] at hnow
          refine ⟨hreads, hhealthy, fun j hj hjlt hnot => ?_⟩
          rcases Nat.lt_succ_iff_lt_or_eq.mp hj with hj | rfl
          · exact hothers j hj hjlt hnot
          · exact hnow
  | @choose r i healthy draw hle =>
      obtain ⟨hreads, hhealthy, hothers⟩ := hknown
      rcases (choose_cases v.shared r healthy draw).2.2 with ⟨rfl, heq⟩ | ⟨hne, heq⟩ | ⟨j, hj, heq⟩
      · rw [heq]
        exact known_none hreads fun j hj => hothers j (Nat.lt_of_lt_of_le hj hle) hj (by simp)
      · rw [heq]
        exact ⟨hreads, by simpa using hne, by simpa using hhealthy⟩
      · rw [heq]
        exact known_replica hreads (hhealthy j hj)
  | @compare r loaded i rest draw =>
      obtain ⟨hreads, -, hhealthy⟩ := hknown
      refine ⟨hreads, by simp, fun j hj => hhealthy j ?_⟩
      simpa [List.map_append, List.append_assoc] using hj
  | @decide r loaded draw =>
      obtain ⟨hreads, hne, hhealthy⟩ := hknown
      cases hbest : Extremes.minByKey (fun e : Nat × UInt64 => e.2.toNat) loaded with
      | none =>
          rw [Extremes.minByKey_eq_none] at hbest
          rw [hbest] at hne
          exact absurd rfl hne
      | some e =>
          obtain ⟨before, after, heq, -⟩ := Extremes.minByKey_iff.mp hbest
          refine known_replica hreads (hhealthy e.1 ?_)
          rw [List.append_nil]
          exact List.mem_map_of_mem (by rw [heq]; simp)
  | start => exact hknown
  | drop => trivial
  | finish => trivial
  | setHealthy => trivial
  | checkHealth => trivial
  | ping => trivial

theorem known_of_reach (hw : ∀ p, w.party p = .idle) (h : Reach step w v) (p : P) :
    Known w v p (v.party p) := by
  have hboth : Reach step w v ∧ ∀ p, Known w v p (v.party p) := by
    induction h with
    | start => exact ⟨.start, fun p => by rw [hw p]; trivial⟩
    | @step u u' q a hu hnext ih =>
        obtain ⟨hreach, hknown⟩ := ih
        refine ⟨.step q a hu hnext, fun p => ?_⟩
        obtain ⟨s, t, hstep, rfl⟩ := next_eq_some.mp hnext
        by_cases hp : p = q
        · subst hp
          dsimp only
          rw [Function.update_self]
          by_cases hidle : u.party p = .idle
          · have hmove := step_move hstep
            rw [hidle] at hmove
            cases hmove with
            | submit r => exact known_enter r
            | finish => trivial
            | setHealthy => trivial
            | checkHealth => trivial
          · exact ((step_move hstep).known hu (hknown p)).next hidle hnext
        · dsimp only
          rw [Function.update_of_ne hp]
          by_cases hidle : u.party p = .idle
          · rw [hidle]
            trivial
          · exact (hknown p).next hidle hnext
  exact hboth.2 p

-- The counter of a replica shows how many reads run there.

def Stage.On (i : Nat) (t : Stage) : Prop := ∃ r, t = .reading r i

theorem not_on_follow {r : Request} {replicas : List ReplicaPool} {route : ReadRoute} {i : Nat} :
    ¬ (r.follow replicas route).On i := by
  rintro ⟨r', h⟩
  cases r <;> cases route <;> cases h

theorem not_on_enter {r : Request} {i : Nat} : ¬ r.enter.On i := by
  rintro ⟨r', h⟩
  cases r with
  | fetchAll sql | stream sql =>
      rw [Request.enter] at h
      split at h <;> cases h
  | execute | begin | selectReplica => cases h

theorem Move.counts {s s' : RoutedPool} {t t' : Stage} {i : Nat} (h : Move s a t s' t')
    (hi : i < s.replicas.length) :
    (t'.On i ↔ t.On i) ∧ s'.activeConnections i = s.activeConnections i ∨
      ¬ t.On i ∧ t'.On i ∧ s'.activeConnections i = s.activeConnections i + 1 ∨
      t.On i ∧ ¬ t'.On i ∧ s'.activeConnections i = s.activeConnections i - 1 := by
  have hsame : ∀ {t t' : Stage}, ¬ t.On i → ¬ t'.On i → (t'.On i ↔ t.On i) :=
    fun h h' => ⟨fun on => absurd on h', fun on => absurd on h⟩
  have hnot : ∀ {t : Stage}, (∀ r, t ≠ .reading r i) → ¬ t.On i := fun h ⟨r, on⟩ => h r on
  cases h with
  | submit r => exact Or.inl ⟨hsame (hnot (by simp)) not_on_enter, rfl⟩
  | look => exact Or.inl ⟨hsame (hnot (by simp)) (hnot (by simp)), rfl⟩
  | @choose r j healthy draw hle =>
      obtain ⟨-, hreplicas, hstage⟩ := choose_cases s r healthy draw
      refine Or.inl ⟨hsame (hnot (by simp)) ?_, ?_⟩
      · rcases hstage with ⟨-, heq⟩ | ⟨-, heq⟩ | ⟨k, -, heq⟩
        · rw [heq]
          exact not_on_follow
        · rw [heq]
          exact hnot (by simp)
        · rw [heq]
          exact not_on_follow
      · unfold activeConnections
        rw [hreplicas]
  | compare => exact Or.inl ⟨hsame (hnot (by simp)) (hnot (by simp)), rfl⟩
  | decide => exact Or.inl ⟨hsame (hnot (by simp)) not_on_follow, rfl⟩
  | @start r j draw =>
      rw [activeConnections_start s j i hi]
      by_cases hj : j = i
      · subst hj
        exact Or.inr (Or.inl ⟨hnot (by simp), ⟨r, rfl⟩, if_pos rfl⟩)
      · exact Or.inl ⟨hsame (hnot (by simp)) (hnot (by simpa using hj)), if_neg hj⟩
  | @drop r j =>
      rw [activeConnections_drop s j i hi]
      by_cases hj : j = i
      · subst hj
        exact Or.inr (Or.inr ⟨⟨r, rfl⟩, hnot (by simp), if_pos rfl⟩)
      · exact Or.inl ⟨hsame (hnot (by simpa using hj)) (hnot (by simp)), if_neg hj⟩
  | finish hother => exact Or.inl ⟨hsame (hnot fun r => hother r i) (hnot (by simp)), rfl⟩
  | setHealthy j healthy =>
      exact Or.inl ⟨Iff.rfl, activeConnections_setHealthy s j i healthy hi⟩
  | checkHealth => exact Or.inl ⟨hsame (hnot (by simp)) (hnot (by simp)), rfl⟩
  | ping ok =>
      exact Or.inl ⟨hsame (hnot (by simp)) (hnot (by simp)),
        activeConnections_setHealthy s _ i ok hi⟩

def initial (b : RoutedPoolBuilder) : World P RoutedPool Stage := ⟨b.build, fun _ => .idle⟩

theorem length_of_reach {b : RoutedPoolBuilder} (h : Reach step (initial b) v) :
    v.shared.replicas.length = b.replicas := by
  refine h.invariant (I := fun v => v.shared.replicas.length = b.replicas) ?_
    fun u u' p a hu hnext => (alike_next hnext).length.trans hu
  exact List.length_replicate

theorem gauged_of_reach {b : RoutedPoolBuilder} {i : Nat} (hi : i < b.replicas)
    (h : Reach step (initial b) v) :
    Gauged (fun s => activeConnections s i) UInt64.ofNat (Stage.On i) v := by
  have hboth := h.invariant (I := fun v => v.shared.replicas.length = b.replicas ∧
    Gauged (fun s => activeConnections s i) UInt64.ofNat (Stage.On i) v) ?_ ?_
  · exact hboth.2
  · have hnone : group (Stage.On i) (initial (P := P) b).party = ∅ := by
      ext p
      simp [group, initial, Stage.On]
    refine ⟨List.length_replicate, by rw [hnone]; exact Set.finite_empty, ?_⟩
    rw [hnone, Set.ncard_empty, activeConnections, initial, RoutedPoolBuilder.build,
      List.getElem?_replicate, if_pos hi]
    rfl
  · rintro u u' p a ⟨hlength, hgauged⟩ hnext
    refine ⟨(alike_next hnext).length.trans hlength, ?_⟩
    refine hgauged.next (u := (· + 1)) (d := (· - 1)) (fun n => UInt64.ofNat_add n 1)
      (fun n => ?_) (fun s l hstep => (step_move hstep).counts (hlength ▸ hi)) hnext
    rw [UInt64.ofNat_add]
    exact UInt64.add_sub_cancel _ _

def readers (v : World P RoutedPool Stage) (i : Nat) : Set P :=
  {p | ∃ r, v.party p = .reading r i}

-- In every world a router can come to: the counter of each replica shows the reads that
-- run there, a replica runs plain reads alone and was healthy at some moment since they
-- were asked for, and a read is on the primary, or refused, only where it may be and when
-- every replica was seen unhealthy since.
structure Routed (b : RoutedPoolBuilder) (v : World P RoutedPool Stage) : Prop where
  counted : ∀ i < b.replicas, (readers v i).Finite ∧
    v.shared.activeConnections i = UInt64.ofNat (readers v i).ncard
  reading : ∀ p r i, v.party p = .reading r i → r.Reads ∧ Saw (initial b) v p i true
  onPrimary : ∀ p r, v.party p = .onPrimary r → r.Reads →
    (b.fallbackToPrimary = true ∨ b.replicas = 0) ∧ ∀ i < b.replicas, Saw (initial b) v p i false
  refused : ∀ p r, v.party p = .refused r → r.Reads ∧ b.fallbackToPrimary = false ∧
    b.replicas ≠ 0 ∧ ∀ i < b.replicas, Saw (initial b) v p i false
  selected : ∀ p i, v.party p = .selected (some i) → Saw (initial b) v p i true ∨
    b.fallbackToPrimary = false ∧ i = 0 ∧ ∀ i < b.replicas, Saw (initial b) v p i false
  selectedPrimary : ∀ p, v.party p = .selected none →
    (b.fallbackToPrimary = true ∨ b.replicas = 0) ∧ ∀ i < b.replicas, Saw (initial b) v p i false

theorem fallback_of_reach {b : RoutedPoolBuilder} (h : Reach step (initial b) v) :
    v.shared.fallbackToPrimary = b.fallbackToPrimary :=
  h.invariant (I := fun v => v.shared.fallbackToPrimary = b.fallbackToPrimary) rfl
    fun _ _ _ _ hu hnext => (alike_next hnext).fallbackToPrimary.trans hu

theorem routed_of_reach {b : RoutedPoolBuilder} (h : Reach step (initial b) v) : Routed b v := by
  have hlength := length_of_reach h
  have hnil : v.shared.replicas = [] ↔ b.replicas = 0 := by
    rw [← hlength, List.length_eq_zero_iff]
  have hknown := fun p => known_of_reach (fun _ => rfl) h p
  have hall : ∀ p, AllUnhealthy (initial b) v p → ∀ i < b.replicas, Saw (initial b) v p i false :=
    fun p hp i hi => hp i (hlength ▸ hi)
  refine ⟨fun i hi => ?_, fun p r i ht => ?_, fun p r ht hreads => ?_, fun p r ht => ?_,
    fun p i ht => ?_, fun p ht => ?_⟩
  · have hgauged := gauged_of_reach hi h
    exact ⟨hgauged.finite, hgauged.shows⟩
  · have hp := hknown p
    rw [ht] at hp
    exact hp
  · have hp := hknown p
    rw [ht] at hp
    obtain ⟨hallowed, hseen⟩ := hp hreads
    rw [fallback_of_reach h, hnil] at hallowed
    exact ⟨hallowed, hall p hseen⟩
  · have hp := hknown p
    rw [ht] at hp
    obtain ⟨hreads, hoff, hne, hseen⟩ := hp
    rw [fallback_of_reach h] at hoff
    exact ⟨hreads, hoff, mt hnil.mpr hne, hall p hseen⟩
  · have hp := hknown p
    rw [ht] at hp
    rcases hp with hp | ⟨hoff, hfirst, -, hseen⟩
    · exact Or.inl hp
    · rw [fallback_of_reach h] at hoff
      exact Or.inr ⟨hoff, hfirst, hall p hseen⟩
  · have hp := hknown p
    rw [ht] at hp
    obtain ⟨hallowed, hseen⟩ := hp
    rw [fallback_of_reach h, hnil] at hallowed
    exact ⟨hallowed, hall p hseen⟩

def selectOne : Request := .fetchAll "SELECT 1".toList

theorem routed_selectOne : ∃ v : World Bool RoutedPool Stage,
    v.party true = .reading selectOne 0 ∧ Routed ⟨1, .roundRobin, false⟩ v := by
  have hstage : (run step (initial ⟨1, .roundRobin, false⟩)
      ((true, .submit selectOne) :: List.replicate 3 (true, .load 0))).map (fun v => v.party true) =
      some (.reading selectOne 0) := by decide +kernel
  obtain ⟨v, hrun, hreading⟩ := Option.map_eq_some_iff.mp hstage
  exact ⟨v, hreading, routed_of_reach (reach_run hrun)⟩

end Runs

end Ruprizzle.Runtime.Routing
