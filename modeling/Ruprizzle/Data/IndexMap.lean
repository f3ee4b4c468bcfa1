import Mathlib.Data.List.Nodup
import Mathlib.Data.List.Lemmas

namespace Ruprizzle

-- A map that keeps its entries in the order their keys were first inserted.
-- The nodup field is what makes an entry list a map.
structure IndexMap (κ α : Type) where
  entries : List (κ × α)
  nodup : (entries.map Prod.fst).Nodup

-- Picking from a list what has the key it is picked by leaves the keys in place.
theorem sublist_map_filterMap {α β κ : Type} {f : α → Option β} {key : α → κ} {key' : β → κ}
    {l : List α} (h : ∀ a ∈ l, ∀ b, f a = some b → key' b = key a) :
    ((l.filterMap f).map key').Sublist (l.map key) := by
  induction l with
  | nil => exact List.Sublist.slnil
  | cons a rest ih =>
      have ih := ih fun b hb => h b (List.mem_cons_of_mem a hb)
      rw [List.filterMap_cons, List.map_cons]
      split
      · exact ih.cons (key a)
      · rename_i b hb
        rw [List.map_cons, h a (by simp) b hb]
        exact ih.cons_cons (key a)

namespace IndexMap

variable {κ α β : Type}

theorem ext_entries {m n : IndexMap κ α} (h : m.entries = n.entries) : m = n := by
  cases m
  cases n
  simp only at h
  subst h
  rfl

instance [DecidableEq κ] [DecidableEq α] : DecidableEq (IndexMap κ α) := fun m n =>
  decidable_of_iff (m.entries = n.entries) ⟨ext_entries, congrArg entries⟩

instance [Repr κ] [Repr α] : Repr (IndexMap κ α) where
  reprPrec m n := reprPrec m.entries n

def empty : IndexMap κ α := ⟨[], List.nodup_nil⟩

instance : Inhabited (IndexMap κ α) := ⟨empty⟩

def keys (m : IndexMap κ α) : List κ := m.entries.map Prod.fst

def values (m : IndexMap κ α) : List α := m.entries.map Prod.snd

def mapValues (m : IndexMap κ α) (f : α → β) : IndexMap κ β :=
  ⟨m.entries.map (fun e => (e.1, f e.2)), by
    rw [List.map_map]
    exact m.nodup⟩

def filterKeys (m : IndexMap κ α) (p : κ → Bool) : IndexMap κ α :=
  ⟨m.entries.filter (fun e => p e.1), m.nodup.sublist (List.Sublist.map _ List.filter_sublist)⟩

@[simp] theorem entries_empty : (empty : IndexMap κ α).entries = [] := rfl

@[simp] theorem keys_empty : (empty : IndexMap κ α).keys = [] := rfl

@[simp] theorem values_empty : (empty : IndexMap κ α).values = [] := rfl

theorem keys_nodup (m : IndexMap κ α) : m.keys.Nodup := m.nodup

theorem mem_keys {m : IndexMap κ α} {k : κ} : k ∈ m.keys ↔ ∃ v, (k, v) ∈ m.entries := by
  simp [keys]

theorem mem_values {m : IndexMap κ α} {v : α} : v ∈ m.values ↔ ∃ k, (k, v) ∈ m.entries := by
  simp [values]

@[simp] theorem entries_mapValues (m : IndexMap κ α) (f : α → β) :
    (m.mapValues f).entries = m.entries.map (fun e => (e.1, f e.2)) := rfl

@[simp] theorem entries_filterKeys (m : IndexMap κ α) (p : κ → Bool) :
    (m.filterKeys p).entries = m.entries.filter (fun e => p e.1) := rfl

theorem keys_mapValues (m : IndexMap κ α) (f : α → β) : (m.mapValues f).keys = m.keys := by
  simp [keys, List.map_map, Function.comp_def]

theorem values_mapValues (m : IndexMap κ α) (f : α → β) :
    (m.mapValues f).values = m.values.map f := by
  simp [values]

-- Two maps that a function makes equal hold values it makes equal.
theorem exists_of_mapValues_eq {γ : Type} {m : IndexMap κ α} {n : IndexMap κ β} {f : α → γ}
    {g : β → γ} (h : m.mapValues f = n.mapValues g) {k : κ} {v : α} (hv : (k, v) ∈ m.entries) :
    ∃ w, (k, w) ∈ n.entries ∧ f v = g w := by
  have hmem : (k, f v) ∈ (n.mapValues g).entries := h ▸ List.mem_map.mpr ⟨(k, v), hv, rfl⟩
  obtain ⟨⟨k', w⟩, hw, he⟩ := List.mem_map.mp hmem
  simp only [Prod.mk.injEq] at he
  obtain ⟨rfl, hf⟩ := he
  exact ⟨w, hw, hf.symm⟩

theorem filterKeys_true (m : IndexMap κ α) : m.filterKeys (fun _ => true) = m :=
  ext_entries (List.filter_eq_self.mpr (fun _ _ => rfl))

theorem keys_eq_of_mapValues_eq {γ : Type} {m : IndexMap κ α} {n : IndexMap κ β} {f : α → γ}
    {g : β → γ} (h : m.mapValues f = n.mapValues g) : m.keys = n.keys := by
  rw [← keys_mapValues m f, h, keys_mapValues]

theorem entry_unique {m : IndexMap κ α} {k : κ} {v w : α}
    (hv : (k, v) ∈ m.entries) (hw : (k, w) ∈ m.entries) : v = w := by
  have h := List.inj_on_of_nodup_map m.nodup hv hw rfl
  exact congrArg Prod.snd h

-- A function that is empty but for one entry gives what it gives there.
theorem flatMap_entries_eq {m : IndexMap κ α} {e : κ × α} {g : κ × α → List β}
    (he : e ∈ m.entries) (hg : ∀ e' ∈ m.entries, e' ≠ e → g e' = []) :
    m.entries.flatMap g = g e := by
  have hnodup : m.entries.Nodup := List.Nodup.of_map _ m.nodup
  obtain ⟨a, b, hsplit⟩ := List.append_of_mem he
  rw [hsplit] at hg hnodup ⊢
  have hne := List.nodup_middle.mp hnodup
  obtain ⟨hnot, _⟩ := List.nodup_cons.mp hne
  have ha : a.flatMap g = [] := List.flatMap_eq_nil_iff.mpr fun e' he' =>
    hg e' (by simp [he']) (by rintro rfl; exact hnot (List.mem_append_left _ he'))
  have hb : b.flatMap g = [] := List.flatMap_eq_nil_iff.mpr fun e' he' =>
    hg e' (by simp [he']) (by rintro rfl; exact hnot (List.mem_append_right _ he'))
  rw [List.flatMap_append, List.flatMap_cons, ha, hb, List.nil_append, List.append_nil]

variable [DecidableEq κ]

def get? (m : IndexMap κ α) (k : κ) : Option α :=
  (m.entries.find? (fun e => e.1 = k)).map Prod.snd

def contains (m : IndexMap κ α) (k : κ) : Bool := decide (k ∈ m.keys)

-- An existing key keeps its place, a new one goes to the end.
def insert (m : IndexMap κ α) (k : κ) (v : α) : IndexMap κ α :=
  if h : k ∈ m.keys then
    ⟨m.entries.map (fun e => if e.1 = k then (k, v) else e), by
      have hk : (m.entries.map (fun e => if e.1 = k then (k, v) else e)).map Prod.fst =
          m.entries.map Prod.fst := by
        rw [List.map_map]
        apply List.map_congr_left
        intro e _
        by_cases he : e.1 = k <;> simp [he]
      rw [hk]
      exact m.nodup⟩
  else
    ⟨m.entries ++ [(k, v)], by
      rw [List.map_append]
      exact List.Nodup.append m.nodup (by simp) (by
        intro a ha hb
        simp only [List.map_cons, List.map_nil, List.mem_singleton] at hb
        subst hb
        exact h ha)⟩

def shiftRemove (m : IndexMap κ α) (k : κ) : IndexMap κ α :=
  ⟨m.entries.filter (fun e => e.1 ≠ k),
    m.nodup.sublist (List.Sublist.map _ List.filter_sublist)⟩

-- What writing through a mutable reference to an entry amounts to.
def modify (m : IndexMap κ α) (k : κ) (f : α → α) : IndexMap κ α :=
  ⟨m.entries.map (fun e => if e.1 = k then (e.1, f e.2) else e), by
    have hk : (m.entries.map (fun e => if e.1 = k then (e.1, f e.2) else e)).map Prod.fst =
        m.entries.map Prod.fst := by
      rw [List.map_map]
      apply List.map_congr_left
      intro e _
      by_cases he : e.1 = k <;> simp [he]
    rw [hk]
    exact m.nodup⟩

theorem get?_eq_some {m : IndexMap κ α} {k : κ} {v : α} :
    m.get? k = some v ↔ (k, v) ∈ m.entries := by
  constructor
  · intro h
    obtain ⟨e, he, rfl⟩ := Option.map_eq_some_iff.mp h
    have hk : e.1 = k := by simpa using List.find?_some he
    have hm := List.mem_of_find?_eq_some he
    rwa [← hk]
  · intro h
    unfold get?
    cases hf : m.entries.find? (fun e => e.1 = k) with
    | none =>
        have := List.find?_eq_none.mp hf (k, v) h
        simp at this
    | some e =>
        have hk : e.1 = k := by simpa using List.find?_some hf
        have hm := List.mem_of_find?_eq_some hf
        have he : (k, e.2) ∈ m.entries := by rwa [← hk]
        simp [entry_unique he h]

theorem get?_eq_none {m : IndexMap κ α} {k : κ} : m.get? k = none ↔ k ∉ m.keys := by
  constructor
  · intro h hk
    obtain ⟨v, hv⟩ := mem_keys.mp hk
    rw [get?_eq_some.mpr hv] at h
    cases h
  · intro hk
    cases h : m.get? k with
    | none => rfl
    | some v => exact absurd (mem_keys.mpr ⟨v, get?_eq_some.mp h⟩) hk

theorem mem_keys_iff_get? {m : IndexMap κ α} {k : κ} : k ∈ m.keys ↔ ∃ v, m.get? k = some v := by
  simp only [mem_keys, get?_eq_some]

@[simp] theorem contains_iff {m : IndexMap κ α} {k : κ} : m.contains k = true ↔ k ∈ m.keys := by
  simp [contains]

@[simp] theorem get?_empty (k : κ) : (empty : IndexMap κ α).get? k = none := rfl

theorem mem_values_of_get? {m : IndexMap κ α} {k : κ} {v : α} (h : m.get? k = some v) :
    v ∈ m.values :=
  mem_values.mpr ⟨k, get?_eq_some.mp h⟩

theorem mem_entries_insert {m : IndexMap κ α} {k k' : κ} {v v' : α} :
    (k', v') ∈ (m.insert k v).entries ↔
      (k' = k ∧ v' = v) ∨ (k' ≠ k ∧ (k', v') ∈ m.entries) := by
  unfold insert
  split
  · rename_i h
    simp only [List.mem_map]
    constructor
    · rintro ⟨e, he, heq⟩
      by_cases hek : e.1 = k
      · simp only [hek, ite_true, Prod.mk.injEq] at heq
        exact Or.inl ⟨heq.1.symm, heq.2.symm⟩
      · simp only [hek, ite_false] at heq
        subst heq
        exact Or.inr ⟨hek, he⟩
    · rintro (⟨rfl, rfl⟩ | ⟨hne, he⟩)
      · obtain ⟨w, hw⟩ := mem_keys.mp h
        exact ⟨(k', w), hw, by simp⟩
      · exact ⟨(k', v'), he, by simp [hne]⟩
  · rename_i h
    simp only [List.mem_append, List.mem_singleton, Prod.mk.injEq]
    constructor
    · rintro (he | ⟨rfl, rfl⟩)
      · refine Or.inr ⟨?_, he⟩
        rintro rfl
        exact h (mem_keys.mpr ⟨v', he⟩)
      · exact Or.inl ⟨rfl, rfl⟩
    · rintro (⟨rfl, rfl⟩ | ⟨_, he⟩)
      · exact Or.inr ⟨rfl, rfl⟩
      · exact Or.inl he

theorem entries_insert (m : IndexMap κ α) (k : κ) (v : α) :
    (m.insert k v).entries = if k ∈ m.keys then
      m.entries.map (fun e => if e.1 = k then (k, v) else e) else m.entries ++ [(k, v)] := by
  unfold insert
  split <;> rfl

theorem insert_mapValues (m : IndexMap κ α) (k : κ) (v : α) (f : α → β) :
    (m.insert k v).mapValues f = (m.mapValues f).insert k (f v) := by
  apply ext_entries
  simp only [entries_mapValues, entries_insert, keys_mapValues]
  split
  · simp only [List.map_map]
    apply List.map_congr_left
    intro e _
    by_cases he : e.1 = k <;> simp [he]
  · simp

theorem mem_keys_insert {m : IndexMap κ α} {k k' : κ} {v : α} :
    k' ∈ (m.insert k v).keys ↔ k' = k ∨ k' ∈ m.keys := by
  simp only [mem_keys, mem_entries_insert]
  by_cases h : k' = k
  · simp [h]
  · simp [h]

theorem get?_insert (m : IndexMap κ α) (k k' : κ) (v : α) :
    (m.insert k v).get? k' = if k' = k then some v else m.get? k' := by
  by_cases h : k' = k
  · subst h
    simp [get?_eq_some, mem_entries_insert]
  · simp only [h, ite_false]
    apply Option.ext
    intro w
    simp [get?_eq_some, mem_entries_insert, h]

theorem mem_entries_modify {m : IndexMap κ α} {k k' : κ} {f : α → α} {v' : α} :
    (k', v') ∈ (m.modify k f).entries ↔
      ∃ v, (k', v) ∈ m.entries ∧ v' = if k' = k then f v else v := by
  simp only [modify, List.mem_map]
  constructor
  · rintro ⟨⟨a, v⟩, he, heq⟩
    by_cases hek : a = k
    · simp only [hek, ite_true, Prod.mk.injEq] at heq
      obtain ⟨rfl, rfl⟩ := heq
      exact ⟨v, hek ▸ he, by simp⟩
    · simp only [hek, ite_false, Prod.mk.injEq] at heq
      obtain ⟨rfl, rfl⟩ := heq
      exact ⟨v, he, by simp [hek]⟩
  · rintro ⟨v, he, rfl⟩
    refine ⟨(k', v), he, ?_⟩
    by_cases hek : k' = k <;> simp [hek]

theorem get?_mapValues (m : IndexMap κ α) (f : α → β) (k : κ) :
    (m.mapValues f).get? k = (m.get? k).map f := by
  unfold get?
  rw [entries_mapValues, List.find?_map, Option.map_map, Option.map_map]
  rfl

theorem get?_modify (m : IndexMap κ α) (k k' : κ) (f : α → α) :
    (m.modify k f).get? k' = if k' = k then (m.get? k').map f else m.get? k' := by
  apply Option.ext
  intro w
  by_cases h : k' = k
  · subst h
    rw [if_pos rfl, get?_eq_some, mem_entries_modify, Option.map_eq_some_iff]
    simp only [ite_true, get?_eq_some, eq_comm (a := w)]
  · simp [get?_eq_some, mem_entries_modify, h]

@[simp] theorem keys_modify (m : IndexMap κ α) (k : κ) (f : α → α) :
    (m.modify k f).keys = m.keys := by
  simp only [keys, modify, List.map_map]
  apply List.map_congr_left
  intro e _
  by_cases he : e.1 = k <;> simp [he]

theorem mem_entries_shiftRemove {m : IndexMap κ α} {k k' : κ} {v : α} :
    (k', v) ∈ (m.shiftRemove k).entries ↔ k' ≠ k ∧ (k', v) ∈ m.entries := by
  simp [shiftRemove, and_comm]

theorem mem_keys_shiftRemove {m : IndexMap κ α} {k k' : κ} :
    k' ∈ (m.shiftRemove k).keys ↔ k' ≠ k ∧ k' ∈ m.keys := by
  simp only [mem_keys, mem_entries_shiftRemove, exists_and_left]

theorem get?_shiftRemove (m : IndexMap κ α) (k k' : κ) :
    (m.shiftRemove k).get? k' = if k' = k then none else m.get? k' := by
  apply Option.ext
  intro v
  by_cases h : k' = k <;> simp [get?_eq_some, mem_entries_shiftRemove, h]

end IndexMap

end Ruprizzle
