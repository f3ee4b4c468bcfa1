import Mathlib.Data.List.Chain
import Mathlib.Data.List.Nodup

namespace Ruprizzle.Walks

-- Walks through a graph that is given by the list of what follows each node. A walk
-- stands in a list with its last node first.

variable {α : Type} {next : α → List α} {s a b x : α} {w v : List α} {m n : Nat}

inductive Steps (next : α → List α) (s : α) : Nat → α → Prop
  | start : Steps next s 0 s
  | step {n : Nat} {a b : α} (h : Steps next s n a) (hb : b ∈ next a) : Steps next s (n + 1) b

def IsDistance (next : α → List α) (s : α) (n : Nat) (a : α) : Prop :=
  Steps next s n a ∧ ∀ m, Steps next s m a → n ≤ m

-- A walk from the start that comes to no node twice.
structure Simple (next : α → List α) (s : α) (w : List α) : Prop where
  start : w.getLast? = some s
  steps : w.IsChain fun later earlier => later ∈ next earlier
  nodup : w.Nodup

theorem Simple.cons (h : Simple next s (a :: w)) (hb : b ∈ next a) (hnew : b ∉ a :: w) :
    Simple next s (b :: a :: w) :=
  ⟨h.start, List.isChain_cons_cons.mpr ⟨hb, h.steps⟩, List.nodup_cons.mpr ⟨hnew, h.nodup⟩⟩

theorem Simple.tail (h : Simple next s (b :: a :: w)) :
    Simple next s (a :: w) ∧ b ∈ next a ∧ b ∉ a :: w :=
  ⟨⟨h.start, (List.isChain_cons_cons.mp h.steps).2, (List.nodup_cons.mp h.nodup).2⟩,
    (List.isChain_cons_cons.mp h.steps).1, (List.nodup_cons.mp h.nodup).1⟩

theorem simple_singleton : Simple next s [a] ↔ a = s := by
  constructor
  · exact fun h => Option.some.inj h.start
  · rintro rfl
    exact ⟨rfl, List.isChain_singleton a, List.nodup_singleton a⟩

theorem Simple.later (h : Simple next s (v ++ a :: w)) : Simple next s (a :: w) := by
  induction v with
  | nil => exact h
  | cons b v ih =>
      refine ih ?_
      cases v with
      | nil => exact h.tail.1
      | cons c v => exact h.tail.1

theorem Simple.steps_head (h : Simple next s (a :: w)) : Steps next s w.length a := by
  induction w generalizing a with
  | nil =>
      rw [simple_singleton.mp h]
      exact .start
  | cons b w ih =>
      obtain ⟨hrest, ha, -⟩ := h.tail
      exact .step (ih hrest) ha

-- What can be walked to can be walked to without coming to a node twice.
theorem exists_simple [DecidableEq α] (h : Steps next s n a) :
    ∃ w, Simple next s (a :: w) ∧ w.length ≤ n := by
  induction h with
  | start => exact ⟨[], simple_singleton.mpr rfl, Nat.le_refl 0⟩
  | @step n a b _ hb ih =>
      obtain ⟨w, hw, hlength⟩ := ih
      by_cases hmem : b ∈ a :: w
      · obtain ⟨before, after, heq⟩ := List.append_of_mem hmem
        rw [heq] at hw
        refine ⟨after, hw.later, ?_⟩
        have hall := congrArg List.length heq
        rw [List.length_append, List.length_cons, List.length_cons] at hall
        omega
      · exact ⟨a :: w, hw.cons hb hmem, Nat.succ_le_succ hlength⟩

-- Where none of the nodes that are met follows two, or none is followed by two, there is
-- one simple walk to each.

def Met (next : α → List α) (s a : α) : Prop := a = s ∨ ∃ b, a ∈ next b

theorem Simple.met (h : Simple next s (a :: w)) : Met next s a := by
  cases w with
  | nil => exact Or.inl (simple_singleton.mp h)
  | cons b w => exact Or.inr ⟨b, h.tail.2.1⟩

theorem eq_of_backward
    (hback : ∀ a b x, Met next s a → Met next s b → x ∈ next a → x ∈ next b → a = b)
    (hw : Simple next s (a :: w)) (hv : Simple next s (a :: v)) : w = v := by
  have hends : ∀ {a b : α} {w : List α}, Simple next s (s :: b :: w) → False := by
    intro a b w h
    have hlast : s ∈ b :: w := List.mem_of_getLast? (h.start.symm ▸ rfl)
    exact (List.nodup_cons.mp h.nodup).1 hlast
  induction w generalizing a v with
  | nil =>
      cases v with
      | nil => rfl
      | cons b v =>
          rw [simple_singleton.mp hw] at hv
          exact (hends (a := a) hv).elim
  | cons b w ih =>
      cases v with
      | nil =>
          rw [simple_singleton.mp hv] at hw
          exact (hends (a := a) hw).elim
      | cons c v =>
          obtain ⟨hw', hb, -⟩ := hw.tail
          obtain ⟨hv', hc, -⟩ := hv.tail
          obtain rfl := hback b c a hw'.met hv'.met hb hc
          rw [ih hw' hv']

theorem eq_of_length (hforward : ∀ a b x, a ∈ next x → b ∈ next x → a = b)
    (hw : Simple next s w) (hv : Simple next s v) (h : w.length = v.length) : w = v := by
  induction w generalizing v with
  | nil => exact (List.length_eq_zero_iff.mp h.symm).symm
  | cons a w ih =>
      cases v with
      | nil => cases h
      | cons b v =>
          have hlength : w.length = v.length := Nat.succ.inj h
          cases w with
          | nil =>
              obtain rfl := List.length_eq_zero_iff.mp hlength.symm
              rw [simple_singleton.mp hw, simple_singleton.mp hv]
          | cons a' w =>
              cases v with
              | nil => cases hlength
              | cons b' v =>
                  obtain ⟨hw', ha, -⟩ := hw.tail
                  obtain ⟨hv', hb, -⟩ := hv.tail
                  obtain ⟨rfl, rfl⟩ := List.cons.inj (ih hw' hv' hlength)
                  rw [hforward a b a' ha hb]

theorem eq_of_shorter (hforward : ∀ a b x, a ∈ next x → b ∈ next x → a = b)
    (hw : Simple next s (a :: w)) (hv : Simple next s (a :: v)) (h : w.length ≤ v.length) :
    w = v := by
  have hsplit := List.take_append_drop (v.length - w.length) (a :: v)
  generalize hu : (a :: v).take (v.length - w.length) = u at hsplit
  generalize hrest : (a :: v).drop (v.length - w.length) = rest at hsplit
  have hlength : (a :: w).length = rest.length := by
    rw [← hrest, List.length_drop, List.length_cons, List.length_cons]
    omega
  have hsimple : Simple next s rest := by
    cases rest with
    | nil => cases hlength
    | cons b rest => exact (hsplit ▸ hv : Simple next s (u ++ b :: rest)).later
  have heq := eq_of_length hforward hw hsimple hlength
  cases u with
  | nil =>
      rw [List.nil_append, ← heq] at hsplit
      exact (List.cons.inj hsplit).2
  | cons b u =>
      obtain ⟨rfl, rfl⟩ := List.cons.inj hsplit
      have hmem : b ∈ u ++ rest := by
        rw [← heq]
        exact List.mem_append_right u List.mem_cons_self
      exact absurd hmem (List.nodup_cons.mp hv.nodup).1

theorem eq_of_forward (hforward : ∀ a b x, a ∈ next x → b ∈ next x → a = b)
    (hw : Simple next s (a :: w)) (hv : Simple next s (a :: v)) : w = v := by
  rcases Nat.le_total w.length v.length with h | h
  · exact eq_of_shorter hforward hw hv h
  · exact (eq_of_shorter hforward hv hw h).symm

-- All simple walks of one length, made from those one shorter.
section Rounds

variable [DecidableEq α]

def extensions (next : α → List α) : List α → List (List α)
  | [] => []
  | a :: w => ((next a).filter (· ∉ a :: w)).map (· :: a :: w)

def walks (next : α → List α) (starts : List α) : Nat → List (List α)
  | 0 => starts.map ([·])
  | n + 1 => (walks next starts n).flatMap (extensions next)

theorem mem_extensions : v ∈ extensions next w ↔
    ∃ a rest b, w = a :: rest ∧ b ∈ next a ∧ b ∉ w ∧ v = b :: w := by
  cases w with
  | nil => simp [extensions]
  | cons a rest =>
      simp only [extensions, List.mem_map, List.mem_filter, decide_eq_true_eq]
      constructor
      · rintro ⟨b, ⟨hb, hnew⟩, rfl⟩
        exact ⟨a, rest, b, rfl, hb, hnew, rfl⟩
      · rintro ⟨a', rest', b, heq, hb, hnew, rfl⟩
        obtain ⟨rfl, rfl⟩ := List.cons.inj heq
        exact ⟨b, ⟨hb, hnew⟩, rfl⟩

theorem mem_walks : w ∈ walks next [s] n ↔ Simple next s w ∧ w.length = n + 1 := by
  induction n generalizing w with
  | zero =>
      rw [walks, List.map_singleton, List.mem_singleton]
      constructor
      · rintro rfl
        exact ⟨simple_singleton.mpr rfl, rfl⟩
      · rintro ⟨h, hlength⟩
        obtain ⟨a, rfl⟩ := List.length_eq_one_iff.mp hlength
        rw [simple_singleton.mp h]
  | succ n ih =>
      rw [walks, List.mem_flatMap]
      constructor
      · rintro ⟨v, hv, hw⟩
        obtain ⟨hsimple, hlength⟩ := ih.mp hv
        obtain ⟨a, rest, b, rfl, hb, hnew, rfl⟩ := mem_extensions.mp hw
        exact ⟨hsimple.cons hb hnew, congrArg Nat.succ hlength⟩
      · rintro ⟨h, hlength⟩
        cases w with
        | nil => cases hlength
        | cons b v =>
            cases v with
            | nil => cases hlength
            | cons a rest =>
                obtain ⟨hrest, hb, hnew⟩ := h.tail
                exact ⟨a :: rest, ih.mpr ⟨hrest, Nat.succ.inj hlength⟩,
                  mem_extensions.mpr ⟨a, rest, b, rfl, hb, hnew, rfl⟩⟩

theorem nodup_walks (hnext : ∀ a, (next a).Nodup) : (walks next [s] n).Nodup := by
  induction n with
  | zero => exact List.nodup_singleton _
  | succ n ih =>
      refine List.nodup_flatMap.mpr ⟨fun w _ => ?_, ih.imp fun {w v} hne => ?_⟩
      · cases w with
        | nil => exact List.nodup_nil
        | cons a rest =>
            exact ((hnext a).filter _).map fun _ _ heq => (List.cons.inj heq).1
      · intro x hx hx'
        obtain ⟨a, rest, b, rfl, -, -, rfl⟩ := mem_extensions.mp hx
        obtain ⟨a', rest', b', rfl, -, -, heq⟩ := mem_extensions.mp hx'
        exact hne (List.cons.inj heq).2

-- The simple walks of up to some length.
def walksTo (next : α → List α) (s : α) (limit : Nat) : List (List α) :=
  (List.range (limit + 1)).flatMap (walks next [s])

theorem mem_walksTo {limit : Nat} :
    w ∈ walksTo next s limit ↔ Simple next s w ∧ w.length ≤ limit + 1 := by
  simp only [walksTo, List.mem_flatMap, List.mem_range, mem_walks]
  constructor
  · rintro ⟨n, hn, h, hlength⟩
    exact ⟨h, by omega⟩
  · rintro ⟨h, hlength⟩
    have hpos : 0 < w.length := by
      cases w with
      | nil => cases h.start
      | cons a w => exact Nat.succ_pos _
    exact ⟨w.length - 1, by omega, h, by omega⟩

theorem nodup_walksTo (hnext : ∀ a, (next a).Nodup) (limit : Nat) :
    (walksTo next s limit).Nodup := by
  refine List.nodup_flatMap.mpr ⟨fun n _ => nodup_walks hnext, ?_⟩
  refine List.nodup_range.imp fun {m n} hne w hw hw' => hne ?_
  have hm := (mem_walks.mp hw).2
  have hn := (mem_walks.mp hw').2
  omega

-- With one simple walk to each node, each node within reach is walked to once, and by
-- the shortest way.
section Unique

variable
  (hunique : ∀ {a : α} {w v : List α}, Simple next s (a :: w) → Simple next s (a :: v) → w = v)
  (hnext : ∀ a, (next a).Nodup)
include hunique

theorem distance_of_simple (h : Simple next s (a :: w)) : IsDistance next s w.length a := by
  refine ⟨h.steps_head, fun m hm => ?_⟩
  obtain ⟨v, hv, hle⟩ := exists_simple hm
  rwa [hunique h hv]

theorem mem_walksTo_iff {limit : Nat} : (∃ w, a :: w ∈ walksTo next s limit ∧ w.length = n) ↔
    IsDistance next s n a ∧ n ≤ limit := by
  constructor
  · rintro ⟨w, hw, rfl⟩
    obtain ⟨hsimple, hlength⟩ := mem_walksTo.mp hw
    exact ⟨distance_of_simple hunique hsimple, Nat.le_of_succ_le_succ hlength⟩
  · rintro ⟨⟨hsteps, hleast⟩, hle⟩
    obtain ⟨w, hw, hlength⟩ := exists_simple hsteps
    have heq : w.length = n := Nat.le_antisymm hlength (hleast _ hw.steps_head)
    exact ⟨w, mem_walksTo.mpr ⟨hw, by rw [List.length_cons]; omega⟩, heq⟩

include hnext in
theorem nodup_heads (limit : Nat) : ((walksTo next s limit).map List.head?).Nodup := by
  refine (nodup_walksTo hnext limit).map_on fun w hw v hv heq => ?_
  cases w with
  | nil => cases (mem_walksTo.mp hw).1.start
  | cons a w =>
      cases v with
      | nil => cases (mem_walksTo.mp hv).1.start
      | cons b v =>
          obtain rfl := Option.some.inj heq
          rw [hunique (mem_walksTo.mp hw).1 (mem_walksTo.mp hv).1]

end Unique

end Rounds

-- A recursive union: what a round adds is what the next one works on, until a round adds
-- nothing.
section Union

variable {R : Type} {step : R → List R} {work out : List R}

inductive Evaluates (step : R → List R) : List R → List R → Prop
  | done : Evaluates step [] []
  | round {work out : List R} (hne : work ≠ []) (rest : Evaluates step (work.flatMap step) out) :
      Evaluates step work (work ++ out)

def roundOf (step : R → List R) (work : List R) : Nat → List R
  | 0 => work
  | n + 1 => (roundOf step work n).flatMap step

theorem roundOf_succ (n : Nat) :
    roundOf step work (n + 1) = roundOf step (work.flatMap step) n := by
  induction n with
  | zero => rfl
  | succ n ih => rw [roundOf, ih, roundOf]

theorem roundOf_nil (n : Nat) : roundOf step [] n = [] := by
  induction n with
  | zero => rfl
  | succ n ih => rw [roundOf, ih, List.flatMap_nil]

theorem evaluates_of_end (h : roundOf step work n = []) :
    Evaluates step work ((List.range n).flatMap (roundOf step work)) := by
  induction n generalizing work with
  | zero =>
      obtain rfl : work = [] := h
      exact .done
  | succ n ih =>
      rw [roundOf_succ] at h
      have hrest : (List.range (n + 1)).flatMap (roundOf step work) =
          work ++ (List.range n).flatMap (roundOf step (work.flatMap step)) := by
        rw [List.range_succ_eq_map, List.flatMap_cons, List.flatMap_map]
        simp only [roundOf_succ]
        rfl
      rw [hrest]
      by_cases hne : work = []
      · subst hne
        have hnone : (List.range n).flatMap (roundOf step []) = [] :=
          List.flatMap_eq_nil_iff.mpr fun k _ => roundOf_nil k
        rw [List.flatMap_nil, List.nil_append, hnone]
        exact .done
      · exact .round hne (ih h)

theorem Evaluates.unique {out' : List R} (h : Evaluates step work out)
    (h' : Evaluates step work out') : out = out' := by
  induction h generalizing out' with
  | done =>
      cases h' with
      | done => rfl
      | round hne => exact absurd rfl hne
  | round hne _ ih =>
      cases h' with
      | done => exact absurd rfl hne
      | round _ rest => rw [ih rest]

end Union

end Ruprizzle.Walks
