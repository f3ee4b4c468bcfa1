import Mathlib.Algebra.Group.Nat.Defs
import Mathlib.Data.List.Basic
import Mathlib.Order.Compare

namespace Ruprizzle.TextOrder

-- Texts in the order of their characters: what texts of numbers are like there.

-- A text that ends stands before what goes on from there.
def order : List Char → List Char → Ordering
  | [], [] => .eq
  | [], _ :: _ => .lt
  | _ :: _, [] => .gt
  | a :: as, b :: bs => (compare a.toNat b.toNat).then (order as bs)

theorem order_self (a : List Char) : order a a = .eq := by
  induction a with
  | nil => rfl
  | cons c rest ih => simp [order, ih]

theorem order_swap (a b : List Char) : (order a b).swap = order b a := by
  induction a generalizing b with
  | nil => cases b <;> rfl
  | cons c rest ih =>
      cases b with
      | nil => rfl
      | cons c' rest' =>
          rw [order, order, Ordering.swap_then, ih, Nat.compare_swap]

theorem order_append {a b : List Char} (h : a.length = b.length) (x y : List Char) :
    order (a ++ x) (b ++ y) = (order a b).then (order x y) := by
  induction a generalizing b with
  | nil =>
      obtain rfl := List.length_eq_zero_iff.mp h.symm
      rfl
  | cons c rest ih =>
      obtain ⟨c', rest', rfl⟩ := List.exists_cons_of_ne_nil
        (List.ne_nil_of_length_pos (l := b) (by rw [← h, List.length_cons]; omega))
      rw [List.cons_append, List.cons_append, order, order,
        ih (by simpa using h), Ordering.then_assoc]

-- A text stands before another one, however both go on.
theorem order_before {a b : List Char} (hlength : a.length = b.length) (h : order a b = .lt)
    (x y : List Char) : order (a ++ x) (b ++ y) = .lt := by
  rw [order_append hlength, h]
  rfl

theorem order_same (a x y : List Char) : order (a ++ x) (a ++ y) = order x y := by
  rw [order_append rfl, order_self]
  rfl

theorem order_cons (c : Char) (x y : List Char) : order (c :: x) (c :: y) = order x y :=
  order_same [c] x y

-- An order that the texts keep where they differ is theirs.
theorem order_eq {α : Type} {cmp : α → α → Ordering} {text : α → List Char}
    (hswap : ∀ a b, (cmp a b).swap = cmp b a) (heq : ∀ a b, cmp a b = .eq → text a = text b)
    (hlt : ∀ a b, cmp a b = .lt → order (text a) (text b) = .lt) (a b : α) :
    order (text a) (text b) = cmp a b := by
  cases h : cmp a b with
  | lt => exact hlt a b h
  | eq => rw [heq a b h, order_self]
  | gt =>
      have hba : cmp b a = .lt := by rw [← hswap, h]; rfl
      rw [← order_swap, hlt b a hba]
      rfl

-- The last digits of a number, zeros in front.
def padded : Nat → Nat → List Char
  | 0, _ => []
  | places + 1, n => padded places (n / 10) ++ [Nat.digitChar (n % 10)]

theorem length_padded (places n : Nat) : (padded places n).length = places := by
  induction places generalizing n with
  | zero => rfl
  | succ places ih => rw [padded, List.length_append, ih, List.length_singleton]

theorem padded_lt {places m n : Nat} (h : m < n) (hn : n < 10 ^ places) :
    order (padded places m) (padded places n) = .lt := by
  induction places generalizing m n with
  | zero =>
      rw [Nat.pow_zero] at hn
      omega
  | succ places ih =>
      have hlength : (padded places (m / 10)).length = (padded places (n / 10)).length := by
        rw [length_padded, length_padded]
      rw [Nat.pow_succ] at hn
      by_cases hlead : m / 10 < n / 10
      · exact order_before hlength (ih hlead (by omega)) _ _
      · have hsame : m / 10 = n / 10 := by omega
        have hlast : m % 10 < n % 10 := by omega
        rw [padded, padded, hsame, order_same, order,
          Nat.toNat_digitChar_of_lt_ten (by omega), Nat.toNat_digitChar_of_lt_ten (by omega),
          Nat.compare_eq_lt.mpr (by omega)]
        rfl

theorem padded_add (i j n : Nat) :
    padded (i + j) n = padded i (n / 10 ^ j) ++ padded j (n % 10 ^ j) := by
  induction j generalizing n with
  | zero => simp [padded]
  | succ j ih =>
      have hlead : n / 10 / 10 ^ j = n / 10 ^ (j + 1) := by
        rw [Nat.div_div_eq_div_mul, Nat.pow_succ, Nat.mul_comm]
      have hmiddle : n / 10 % 10 ^ j = n % 10 ^ (j + 1) / 10 := by
        rw [Nat.pow_succ, Nat.mul_comm, Nat.mod_mul_right_div_self]
      have hlast : n % 10 = n % 10 ^ (j + 1) % 10 := by
        rw [Nat.pow_succ, Nat.mul_comm, Nat.mod_mul_right_mod]
      rw [← Nat.add_assoc, padded, padded, ih, hlead, hmiddle, ← hlast, List.append_assoc]

theorem padded_cons (places n : Nat) :
    ∃ c rest, padded (places + 1) n = c :: rest ∧ 48 ≤ c.toNat := by
  have hsplit : padded (places + 1) n = padded 1 (n / 10 ^ places) ++ padded places (n % 10 ^ places) := by
    rw [Nat.add_comm, padded_add]
  refine ⟨_, _, hsplit, ?_⟩
  rw [Nat.toNat_digitChar_of_lt_ten (Nat.mod_lt _ (by omega))]
  omega

-- The decimal places of a part of 10 ^ 9, of which some are shown. The point
-- stands only before digits.
def fraction (places n : Nat) : List Char :=
  if places = 0 then [] else '.' :: padded places (n / 10 ^ (9 - places))

-- Nothing but zeros is left out.
def Exact (places n : Nat) : Prop := places ≤ 9 ∧ 10 ^ (9 - places) ∣ n

-- What comes before a point and before digits.
def Low (tail : List Char) : Prop := ∀ c rest, tail = c :: rest → c.toNat < 46

theorem Low.before {tail : List Char} (h : Low tail) {c : Char} (hc : 46 ≤ c.toNat)
    (rest : List Char) : order tail (c :: rest) = .lt := by
  cases tail with
  | nil => rfl
  | cons c' rest' =>
      have hless := h c' rest' rfl
      rw [order, Nat.compare_eq_lt.mpr (by omega)]
      rfl

theorem Low.before_padded {tail : List Char} (h : Low tail) {places : Nat} (hplaces : places ≠ 0)
    (n : Nat) (rest : List Char) : order tail (padded places n ++ rest) = .lt := by
  obtain ⟨more, rfl⟩ := Nat.exists_eq_succ_of_ne_zero hplaces
  obtain ⟨c, digits, hdigits, hc⟩ := padded_cons more n
  rw [hdigits]
  exact h.before (by omega) _

-- However many places are shown, the texts stand as the numbers do.
theorem fraction_lt {tail : List Char} (htail : Low tail) {k k' n n' : Nat} (hk : Exact k n)
    (hk' : Exact k' n') (h : n < n') (hn' : n' < 10 ^ 9) :
    order (fraction k n ++ tail) (fraction k' n' ++ tail) = .lt := by
  obtain ⟨hle, m, rfl⟩ := hk
  obtain ⟨hle', m', rfl⟩ := hk'
  have hk'pos : k' ≠ 0 := by
    rintro rfl
    have hm' : m' = 0 := by
      by_contra hne
      have hpos : 1 ≤ m' := Nat.one_le_iff_ne_zero.mpr hne
      have hmul := Nat.mul_le_mul_left (10 ^ (9 - 0)) hpos
      omega
    subst hm'
    omega
  have hpow : ∀ e, 0 < 10 ^ e := fun e => Nat.pow_pos (by omega)
  rw [fraction, fraction, if_neg hk'pos, Nat.mul_div_cancel_left _ (hpow _),
    Nat.mul_div_cancel_left _ (hpow _)]
  by_cases hkzero : k = 0
  · rw [if_pos hkzero]
    exact htail.before (by decide) _
  rw [if_neg hkzero, List.cons_append, List.cons_append, order_cons]
  rcases Nat.le_total k k' with hkk | hkk
  · obtain ⟨j, rfl⟩ := Nat.exists_eq_add_of_le hkk
    have hexp : 9 - k = j + (9 - (k + j)) := by omega
    have hless : m * 10 ^ j < m' := by
      rw [hexp, Nat.pow_add, Nat.mul_comm (10 ^ j), Nat.mul_assoc] at h
      have hcancel := Nat.lt_of_mul_lt_mul_left h
      rwa [Nat.mul_comm] at hcancel
    have hlead : m ≤ m' / 10 ^ j := (Nat.le_div_iff_mul_le (hpow j)).mpr (by omega)
    have hbound : m' / 10 ^ j < 10 ^ k := by
      have hall : 10 ^ 9 = 10 ^ (9 - (k + j)) * (10 ^ k * 10 ^ j) := by
        rw [← Nat.pow_add, ← Nat.pow_add]
        congr 1
        omega
      rw [hall] at hn'
      exact (Nat.div_lt_iff_lt_mul (hpow j)).mpr (Nat.lt_of_mul_lt_mul_left hn')
    rw [padded_add, List.append_assoc]
    rcases Nat.lt_or_eq_of_le hlead with hlt | heq
    · refine order_before ?_ (padded_lt hlt hbound) _ _
      rw [length_padded, length_padded]
    · have hj : j ≠ 0 := by
        rintro rfl
        rw [Nat.pow_zero, Nat.mul_one] at hless
        rw [Nat.pow_zero, Nat.div_one] at heq
        omega
      rw [← heq, order_same]
      exact htail.before_padded hj _ _
  · obtain ⟨j, rfl⟩ := Nat.exists_eq_add_of_le hkk
    have hexp : 9 - k' = j + (9 - (k' + j)) := by omega
    have hless : m / 10 ^ j < m' := by
      rw [hexp, Nat.pow_add, Nat.mul_comm (10 ^ j), Nat.mul_assoc] at h
      have hcancel := Nat.lt_of_mul_lt_mul_left h
      exact (Nat.div_lt_iff_lt_mul (hpow j)).mpr (by rwa [Nat.mul_comm] at hcancel)
    have hbound : m' < 10 ^ k' := by
      have hall : 10 ^ 9 = 10 ^ (9 - k') * 10 ^ k' := by
        rw [← Nat.pow_add]
        congr 1
        omega
      rw [hall] at hn'
      exact Nat.lt_of_mul_lt_mul_left hn'
    rw [padded_add, List.append_assoc]
    refine order_before ?_ (padded_lt hless hbound) _ _
    rw [length_padded, length_padded]

end Ruprizzle.TextOrder
