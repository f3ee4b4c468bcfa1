import Mathlib.Data.List.Basic
import Mathlib.Data.List.Nodup
import Mathlib.Data.List.Perm.Basic

namespace Ruprizzle.Batches

-- Lists looked up in batches by keys: what is asked for once, in pieces, and
-- handed out to everyone who asked.

variable {α κ μ : Type}

section

variable [DecidableEq κ]

-- The first occurrence of each key that was not seen before.
def dedupFrom (seen : List κ) : List κ → List κ
  | [] => []
  | k :: rest => if k ∈ seen then dedupFrom seen rest else k :: dedupFrom (k :: seen) rest

def dedup (keys : List κ) : List κ := dedupFrom [] keys

theorem mem_dedupFrom {seen keys : List κ} {k : κ} :
    k ∈ dedupFrom seen keys ↔ k ∈ keys ∧ k ∉ seen := by
  induction keys generalizing seen with
  | nil => simp [dedupFrom]
  | cons first rest ih =>
      rw [dedupFrom]
      by_cases hseen : first ∈ seen
      · rw [if_pos hseen, ih, List.mem_cons]
        constructor
        · rintro ⟨hk, hnot⟩
          exact ⟨Or.inr hk, hnot⟩
        · rintro ⟨rfl | hk, hnot⟩
          · exact absurd hseen hnot
          · exact ⟨hk, hnot⟩
      · rw [if_neg hseen, List.mem_cons, ih, List.mem_cons, List.mem_cons]
        by_cases heq : k = first
        · subst heq
          simp [hseen]
        · simp [heq]

theorem mem_dedup {keys : List κ} {k : κ} : k ∈ dedup keys ↔ k ∈ keys := by
  simp [dedup, mem_dedupFrom]

theorem nodup_dedupFrom (seen keys : List κ) : (dedupFrom seen keys).Nodup := by
  induction keys generalizing seen with
  | nil => exact List.nodup_nil
  | cons first rest ih =>
      rw [dedupFrom]
      by_cases hseen : first ∈ seen
      · rw [if_pos hseen]
        exact ih seen
      · rw [if_neg hseen, List.nodup_cons, mem_dedupFrom]
        exact ⟨fun h => h.2 (List.mem_cons_self), ih _⟩

theorem nodup_dedup (keys : List κ) : (dedup keys).Nodup := nodup_dedupFrom [] keys

theorem length_dedup {a b : List κ} (h : a.Perm b) : (dedup a).length = (dedup b).length := by
  have hperm : (dedup a).Perm (dedup b) :=
    (List.perm_ext_iff_of_nodup (nodup_dedup a) (nodup_dedup b)).mpr fun k => by
      rw [mem_dedup, mem_dedup, h.mem_iff]
  exact hperm.length_eq

end

def chunksWithin (size : Nat) : Nat → List α → List (List α)
  | 0, _ => []
  | n + 1, l => if l.isEmpty then [] else l.take size :: chunksWithin size n (l.drop size)

-- Pieces of the size, the last one of what is left.
def chunks (size : Nat) (l : List α) : List (List α) := chunksWithin size l.length l

theorem flatten_chunksWithin {size : Nat} (hsize : 0 < size) {n : Nat} {l : List α}
    (h : l.length ≤ n) : (chunksWithin size n l).flatten = l := by
  induction n generalizing l with
  | zero =>
      obtain rfl := List.length_eq_zero_iff.mp (Nat.le_zero.mp h)
      rfl
  | succ n ih =>
      rw [chunksWithin]
      split
      · next hempty => rw [List.isEmpty_iff.mp hempty, List.flatten_nil]
      · have hdrop : (l.drop size).length ≤ n := by
          rw [List.length_drop]
          omega
        rw [List.flatten_cons, ih hdrop, List.take_append_drop]

theorem flatten_chunks {size : Nat} (hsize : 0 < size) (l : List α) :
    (chunks size l).flatten = l :=
  flatten_chunksWithin hsize (Nat.le_refl _)

theorem chunks_single {size : Nat} {l : List α} (hne : l ≠ []) (h : l.length ≤ size) :
    chunks size l = [l] := by
  obtain ⟨first, rest, rfl⟩ := List.exists_cons_of_ne_nil hne
  rw [chunks, List.length_cons, chunksWithin, if_neg (by simp), List.take_of_length_le h,
    List.drop_of_length_le h]
  cases rest <;> rfl

-- A full piece, and one of what is left.
theorem chunks_pair {size : Nat} {first rest : List α} (hsize : 0 < size) (hfirst : first.length = size)
    (hne : rest ≠ []) (hrest : rest.length ≤ size) : chunks size (first ++ rest) = [first, rest] := by
  have hlength : (first ++ rest).length = (first.length - 1 + rest.length) + 1 := by
    rw [List.length_append]
    omega
  have hcons : (first ++ rest).isEmpty = false := by
    rw [List.isEmpty_eq_false_iff]
    exact fun h => hne (List.append_eq_nil_iff.mp h).2
  obtain ⟨a, more, rfl⟩ := List.exists_cons_of_ne_nil hne
  rw [chunks, hlength, chunksWithin, if_neg (by simp [hcons]), ← hfirst, List.take_left, List.drop_left,
    List.length_cons, ← Nat.add_assoc, chunksWithin, if_neg (by simp),
    List.take_of_length_le (by omega), List.drop_of_length_le (by omega)]
  cases first.length - 1 + more.length <;> rfl

theorem length_chunksWithin {size n : Nat} {l piece : List α}
    (h : piece ∈ chunksWithin size n l) : piece.length ≤ size := by
  induction n generalizing l with
  | zero => simp [chunksWithin] at h
  | succ n ih =>
      rw [chunksWithin] at h
      split at h
      · simp at h
      · rcases List.mem_cons.mp h with rfl | hmem
        · rw [List.length_take]
          omega
        · exact ih hmem

theorem length_chunk {size : Nat} {l piece : List α} (h : piece ∈ chunks size l) :
    piece.length ≤ size :=
  length_chunksWithin h

theorem mem_chunksWithin {size n : Nat} {l piece : List α} (hsize : 0 < size)
    (h : piece ∈ chunksWithin size n l) : piece ≠ [] := by
  induction n generalizing l with
  | zero => simp [chunksWithin] at h
  | succ n ih =>
      rw [chunksWithin] at h
      split at h
      · simp at h
      · next hne =>
          rcases List.mem_cons.mp h with rfl | hmem
          · rw [List.isEmpty_iff] at hne
            simp [List.take_eq_nil_iff, hne, Nat.pos_iff_ne_zero.mp hsize]
          · exact ih hmem

theorem chunk_ne_nil {size : Nat} (hsize : 0 < size) {l piece : List α}
    (h : piece ∈ chunks size l) : piece ≠ [] :=
  mem_chunksWithin hsize h

theorem take_mem_chunks {size : Nat} {l : List α} (h : l ≠ []) : l.take size ∈ chunks size l := by
  obtain ⟨first, rest, rfl⟩ := List.exists_cons_of_ne_nil h
  rw [chunks, List.length_cons, chunksWithin, if_neg (by simp)]
  exact List.mem_cons_self

-- The first piece is the longest.
theorem chunks_within {size extra bound : Nat} {l : List α} (hsize : 0 < size) :
    (∀ piece ∈ chunks size l, piece.length + extra ≤ bound) ↔
      l = [] ∨ min size l.length + extra ≤ bound := by
  constructor
  · intro h
    by_cases hne : l = []
    · exact .inl hne
    · have hfirst := h _ (take_mem_chunks hne)
      rw [List.length_take] at hfirst
      exact .inr hfirst
  · rintro (rfl | h) piece hpiece
    · exact absurd hpiece (by simp [chunks, chunksWithin])
    · have hlength := length_chunk hpiece
      have hpart : piece.length ≤ l.length := by
        rw [← flatten_chunks hsize l]
        exact (List.sublist_flatten_of_mem hpiece).length_le
      omega

section

variable {P : List κ → List α → Prop} {key : α → κ} {pieces : List (List κ)}
  {batches : List (List α)}

theorem exists_batches (h : ∀ piece ∈ pieces, ∃ batch, P piece batch) :
    ∃ batches, List.Forall₂ P pieces batches := by
  induction pieces with
  | nil => exact ⟨[], .nil⟩
  | cons piece rest ih =>
      obtain ⟨hfirst, hrest⟩ := List.forall_mem_cons.mp h
      obtain ⟨batch, hbatch⟩ := hfirst
      obtain ⟨batches, hbatches⟩ := ih hrest
      exact ⟨batch :: batches, .cons hbatch hbatches⟩

theorem key_mem_batches (h : List.Forall₂ P pieces batches)
    (hkeys : ∀ piece batch, P piece batch → ∀ a ∈ batch, key a ∈ piece) :
    ∀ a ∈ batches.flatten, key a ∈ pieces.flatten := by
  induction h with
  | nil => simp
  | cons hfirst _ ih =>
      intro a ha
      rw [List.flatten_cons, List.mem_append] at ha ⊢
      exact ha.imp (hkeys _ _ hfirst a) (ih a)

variable [DecidableEq κ]

-- A key that is asked for once has its items in one batch alone.
theorem filter_batches (h : List.Forall₂ P pieces batches) (hnodup : pieces.flatten.Nodup)
    (hkeys : ∀ piece batch, P piece batch → ∀ a ∈ batch, key a ∈ piece) {k : κ}
    (hk : k ∈ pieces.flatten) :
    ∃ piece batch, P piece batch ∧ k ∈ piece ∧
      batches.flatten.filter (fun a => key a = k) = batch.filter fun a => key a = k := by
  induction h with
  | nil => simp at hk
  | @cons piece batch pieces batches hfirst hrest ih =>
      rw [List.flatten_cons] at hnodup hk
      obtain ⟨-, hmore, hdisjoint⟩ := List.nodup_append.mp hnodup
      rw [List.flatten_cons, List.filter_append]
      by_cases hin : k ∈ piece
      · have hnone : batches.flatten.filter (fun a => key a = k) = [] := by
          rw [List.filter_eq_nil_iff]
          intro a ha hkey
          have hlater := key_mem_batches hrest hkeys a ha
          exact hdisjoint k hin _ hlater (decide_eq_true_iff.mp hkey).symm
        exact ⟨piece, batch, hfirst, hin, by rw [hnone, List.append_nil]⟩
      · have hnone : batch.filter (fun a => key a = k) = [] := by
          rw [List.filter_eq_nil_iff]
          intro a ha hkey
          exact hin (decide_eq_true_iff.mp hkey ▸ hkeys _ _ hfirst a ha)
        rw [hnone, List.nil_append]
        exact ih hmore ((List.mem_append.mp hk).resolve_left hin)

theorem filter_or_perm {p q : α → Bool} (l : List α) (h : ∀ a ∈ l, p a = true → q a = false) :
    (l.filter p ++ l.filter q).Perm (l.filter fun a => p a || q a) := by
  induction l with
  | nil => exact List.Perm.refl _
  | cons a rest ih =>
      obtain ⟨hfirst, hrest⟩ := List.forall_mem_cons.mp h
      have hmore := ih hrest
      rw [List.filter_cons, List.filter_cons, List.filter_cons]
      by_cases hp : p a = true
      · simp only [hp, hfirst hp, Bool.false_eq_true, ite_true, ite_false, Bool.true_or,
          List.cons_append]
        exact hmore.cons a
      · by_cases hq : q a = true
        · simp only [hp, hq, ite_true, Bool.false_eq_true, ite_false, Bool.or_true]
          exact List.perm_middle.trans (hmore.cons a)
        · simpa [hp, hq] using hmore

-- Where each batch is what belongs to the keys of its piece, all of them together
-- are what belongs to the keys.
theorem perm_batches {q : α → Bool} {table : List α}
    (h : List.Forall₂ (fun piece batch => batch.Perm (table.filter fun a => key a ∈ piece && q a))
      pieces batches) (hnodup : pieces.flatten.Nodup) :
    batches.flatten.Perm (table.filter fun a => key a ∈ pieces.flatten && q a) := by
  induction h with
  | nil => simp
  | @cons piece batch pieces batches hfirst _ ih =>
      rw [List.flatten_cons] at hnodup
      obtain ⟨-, hmore, hdisjoint⟩ := List.nodup_append.mp hnodup
      rw [List.flatten_cons, List.flatten_cons]
      refine (hfirst.append (ih hmore)).trans ((filter_or_perm table ?_).trans (.of_eq ?_))
      · intro a _ ha
        rw [Bool.and_eq_true, decide_eq_true_iff] at ha
        have hnot : key a ∉ pieces.flatten := fun hlater => hdisjoint _ ha.1 _ hlater rfl
        simp [hnot]
      · refine List.filter_congr fun a _ => ?_
        simp only [← Bool.and_or_distrib_right, List.mem_append, Bool.decide_or]

end

-- Every item is put into the buckets that its key stands for, once for each time
-- they are named there.
def distribute (index : κ → List Nat) (key : α → κ) (n : Nat) (items : List α) : List (List α) :=
  items.foldl (fun buckets item =>
    (index (key item)).foldl (fun buckets i => buckets.modify i (· ++ [item])) buckets)
    (List.replicate n [])

theorem foldl_modify (item : α) (indices : List Nat) (buckets : List (List α)) (i : Nat) :
    (indices.foldl (fun buckets i => buckets.modify i (· ++ [item])) buckets)[i]?
      = buckets[i]?.map (· ++ List.replicate (indices.count i) item) := by
  induction indices generalizing buckets with
  | nil => simp
  | cons first rest ih =>
      rw [List.foldl_cons, ih, List.getElem?_modify, List.count_cons]
      by_cases heq : first = i
      · subst heq
        cases buckets[first]? <;> simp [List.replicate_succ]
      · simp [heq]

theorem getElem_distribute (index : κ → List Nat) (key : α → κ) (n i : Nat) (items : List α) :
    (distribute index key n items)[i]? = if i < n then
      some (items.flatMap fun item => List.replicate ((index (key item)).count i) item) else none := by
  have hfold : ∀ (items : List α) (buckets : List (List α)),
      (items.foldl (fun buckets item =>
        (index (key item)).foldl (fun buckets i => buckets.modify i (· ++ [item])) buckets)
        buckets)[i]?
        = buckets[i]?.map
          (· ++ items.flatMap fun item => List.replicate ((index (key item)).count i) item) := by
    intro items
    induction items with
    | nil =>
        intro buckets
        simp
    | cons item rest ih =>
        intro buckets
        rw [List.foldl_cons, ih, foldl_modify, Option.map_map, List.flatMap_cons]
        cases buckets[i]? <;> simp
  rw [distribute, hfold, List.getElem?_replicate]
  by_cases hi : i < n
  · simp [hi]
  · simp [hi]

theorem flatMap_replicate_one {p : α → Bool} (items : List α) :
    (items.flatMap fun item => List.replicate (if p item then 1 else 0) item) = items.filter p := by
  induction items with
  | nil => rfl
  | cons item rest ih =>
      rw [List.flatMap_cons, ih, List.filter_cons]
      cases p item <;> rfl

-- Copies stand beside each other.
theorem pairwise_flatMap_replicate {R : α → α → Prop} (hrefl : ∀ a, R a a) (count : α → Nat)
    {items : List α} (h : items.Pairwise R) :
    (items.flatMap fun item => List.replicate (count item) item).Pairwise R := by
  rw [List.pairwise_flatMap]
  refine ⟨fun a _ => List.pairwise_replicate.mpr (Or.inr (hrefl a)), h.imp fun hab x hx y hy => ?_⟩
  rw [List.eq_of_mem_replicate hx, List.eq_of_mem_replicate hy]
  exact hab

theorem flatMap_filter (p : α → Bool) (f : α → List α) (items : List α) :
    (items.filter p).flatMap f = items.flatMap fun a => if p a then f a else [] := by
  induction items with
  | nil => rfl
  | cons item rest ih =>
      rw [List.filter_cons, List.flatMap_cons, ← ih]
      cases p item <;> simp

variable [DecidableEq κ]

-- Where the ones who ask for a key stand.
def positions (key : μ → κ) (askers : List μ) (k : κ) : List Nat :=
  askers.zipIdx.filterMap fun p => if key p.1 = k then some p.2 else none

theorem count_positionsFrom (key : μ → κ) (askers : List μ) (k : κ) (start i : Nat) :
    ((askers.zipIdx start).filterMap fun p => if key p.1 = k then some p.2 else none).count i
      = if start ≤ i ∧ (askers[i - start]?.map key) = some k then 1 else 0 := by
  induction askers generalizing start with
  | nil => simp
  | cons first rest ih =>
      rw [List.zipIdx_cons, List.filterMap_cons]
      have hnext := ih (start + 1)
      by_cases heq : i = start
      · subst heq
        have hrest : ¬ (i + 1 ≤ i ∧ (rest[i - (i + 1)]?.map key) = some k) := fun h => by omega
        rw [if_neg hrest] at hnext
        by_cases hkey : key first = k
        · simp [hkey, hnext]
        · simp [hkey, hnext]
      · by_cases hlt : start ≤ i
        · obtain ⟨j, rfl⟩ : ∃ j, i = start + (j + 1) := ⟨i - start - 1, by omega⟩
          have hfirst : (first :: rest)[start + (j + 1) - start]? = rest[j]? := by
            rw [Nat.add_sub_cancel_left, List.getElem?_cons_succ]
          have hmore : start + (j + 1) - (start + 1) = j := by omega
          rw [hmore] at hnext
          have hle : start + 1 ≤ start + (j + 1) := by omega
          simp only [hle, true_and] at hnext
          rw [hfirst]
          by_cases hkey : key first = k
          · simp [hkey, hnext]
          · simp [hkey, hnext]
        · have hnone : ¬ (start + 1 ≤ i ∧ (rest[i - (start + 1)]?.map key) = some k) :=
            fun h => by omega
          rw [if_neg hnone] at hnext
          have hne : ¬ start = i := by omega
          by_cases hkey : key first = k
          · simp [hkey, hnext, hlt, hne]
          · simp [hkey, hnext, hlt]

theorem count_positions {key : μ → κ} {askers : List μ} {i : Nat} {m : μ} (hi : askers[i]? = some m)
    (k : κ) : (positions key askers k).count i = if key m = k then 1 else 0 := by
  rw [positions, count_positionsFrom]
  simp [hi]

-- Each asker is given what stands under the key.
theorem distribute_positions (asked : μ → κ) (key : α → κ) (askers : List μ) (items : List α) :
    distribute (positions asked askers) key askers.length items
      = askers.map fun m => items.filter fun a => asked m = key a := by
  refine List.ext_getElem? fun i => ?_
  rw [getElem_distribute, List.getElem?_map]
  by_cases hi : i < askers.length
  · rw [if_pos hi, List.getElem?_eq_getElem hi, Option.map_some]
    have hcount : ∀ a : α, (positions asked askers (key a)).count i
        = if decide (asked askers[i] = key a) then 1 else 0 := fun a => by
      rw [count_positions (List.getElem?_eq_getElem hi)]
      simp
    simp only [hcount, flatMap_replicate_one]
  · rw [if_neg hi, List.getElem?_eq_none (Nat.le_of_not_lt hi)]
    rfl

-- What is collected for each key is found under the key again.
theorem filter_flatMap {keys : List κ} {key : α → κ} {items : κ → List α} (hnodup : keys.Nodup)
    (h : ∀ k ∈ keys, ∀ a ∈ items k, key a = k) (k : κ) :
    (keys.flatMap items).filter (fun a => key a = k) = if k ∈ keys then items k else [] := by
  induction keys with
  | nil => rfl
  | cons first rest ih =>
      obtain ⟨hnot, hrest⟩ := List.nodup_cons.mp hnodup
      obtain ⟨hfirst, hmore⟩ := List.forall_mem_cons.mp h
      rw [List.flatMap_cons, List.filter_append, ih hrest hmore]
      by_cases heq : k = first
      · subst heq
        rw [if_neg hnot, if_pos List.mem_cons_self, List.append_nil, List.filter_eq_self]
        intro a ha
        exact decide_eq_true (hfirst a ha)
      · have hnone : (items first).filter (fun a => key a = k) = [] := by
          rw [List.filter_eq_nil_iff]
          intro a ha hkey
          exact heq ((decide_eq_true_iff.mp hkey).symm.trans (hfirst a ha))
        simp [hnone, heq]

end Ruprizzle.Batches
