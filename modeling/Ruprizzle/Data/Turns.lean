import Mathlib.Data.List.Rotate

namespace Ruprizzle.Turns

-- The members of a list taken in turns, each by the number of the turn.

variable {α : Type} {l : List α} {a : α}

def taker (l : List α) (turn : Nat) : Option α := l[turn % l.length]?

def takers (l : List α) (first count : Nat) : List α :=
  (List.range' first count).filterMap (taker l)

theorem taker_eq_some (hne : l ≠ []) (turn : Nat) : ∃ a ∈ l, taker l turn = some a := by
  have hlt := Nat.mod_lt turn (List.length_pos_iff.mpr hne)
  exact ⟨l[turn % l.length], List.getElem_mem hlt, List.getElem?_eq_getElem hlt⟩

theorem takers_succ {first count : Nat} (h : taker l first = some a) :
    takers l first (count + 1) = a :: takers l (first + 1) count := by
  rw [takers, List.range'_succ, List.filterMap_cons_some h]
  rfl

theorem takers_add (l : List α) (first m n : Nat) :
    takers l first (m + n) = takers l first m ++ takers l (first + m) n := by
  rw [takers, ← List.range'_append_1, List.filterMap_append]
  rfl

theorem length_takers (hne : l ≠ []) (first count : Nat) :
    (takers l first count).length = count := by
  induction count generalizing first with
  | zero => rfl
  | succ count ih =>
      obtain ⟨a, -, h⟩ := taker_eq_some hne first
      rw [takers_succ h, List.length_cons, ih]

-- As many turns as there are members make one round.
theorem takers_round (hne : l ≠ []) (first : Nat) : takers l first l.length = l.rotate first := by
  have hlength := length_takers hne first l.length
  refine List.ext_getElem (hlength.trans (List.length_rotate l first).symm) fun k hk hk' => ?_
  rw [List.getElem_rotate]
  have hbound : k < l.length := hlength ▸ hk
  have hsplit := takers_add l first k (l.length - k)
  rw [Nat.add_sub_cancel' (Nat.le_of_lt hbound)] at hsplit
  obtain ⟨m, hm⟩ : ∃ m, l.length - k = m + 1 := ⟨l.length - k - 1, by omega⟩
  obtain ⟨a, -, htaker⟩ := taker_eq_some hne (first + k)
  rw [hm, takers_succ htaker] at hsplit
  have hat : (takers l first l.length)[k]? = some a := by
    rw [hsplit, List.getElem?_append_right (by rw [length_takers hne]),
      length_takers hne, Nat.sub_self]
    rfl
  rw [taker, Nat.add_comm first k] at htaker
  rw [List.getElem?_eq_getElem hk] at hat
  rw [List.getElem?_eq_getElem (Nat.mod_lt _ (List.length_pos_iff.mpr hne))] at htaker
  exact (Option.some.inj hat).trans (Option.some.inj htaker).symm

theorem mem_takers {first count : Nat} (h : a ∈ takers l first count) : a ∈ l := by
  obtain ⟨turn, -, htaker⟩ := List.mem_filterMap.mp h
  exact List.mem_of_getElem? htaker

variable [DecidableEq α]

theorem count_round (hnodup : l.Nodup) (ha : a ∈ l) (first : Nat) :
    (takers l first l.length).count a = 1 := by
  rw [takers_round (List.ne_nil_of_mem ha), (List.rotate_perm l first).count_eq]
  exact List.count_eq_one_of_mem hnodup ha

theorem count_takers_mono {m n : Nat} (first : Nat) (h : m ≤ n) :
    (takers l first m).count a ≤ (takers l first n).count a := by
  obtain ⟨k, rfl⟩ := Nat.exists_eq_add_of_le h
  rw [takers_add, List.count_append]
  exact Nat.le_add_right _ _

theorem count_rounds (hnodup : l.Nodup) (ha : a ∈ l) (rounds first : Nat) :
    (takers l first (rounds * l.length)).count a = rounds := by
  induction rounds generalizing first with
  | zero => rw [Nat.zero_mul]; rfl
  | succ rounds ih =>
      rw [Nat.succ_mul, takers_add, List.count_append, ih, count_round hnodup ha]

-- However the turns begin and end, no member takes more than one beyond the others.
theorem count_takers (hnodup : l.Nodup) (ha : a ∈ l) (first count : Nat) :
    count / l.length ≤ (takers l first count).count a ∧
      (takers l first count).count a ≤ count / l.length + 1 := by
  have hpos := List.length_pos_of_mem ha
  have hle : count / l.length * l.length ≤ count := Nat.div_mul_le_self count l.length
  have hlt : count ≤ (count / l.length + 1) * l.length := by
    rw [Nat.succ_mul]
    exact Nat.le_of_lt (Nat.lt_div_mul_add hpos)
  constructor
  · have hmono := count_takers_mono (l := l) (a := a) first hle
    rwa [count_rounds hnodup ha] at hmono
  · have hmono := count_takers_mono (l := l) (a := a) first hlt
    rwa [count_rounds hnodup ha] at hmono

end Ruprizzle.Turns
