import Ruprizzle.Cache.Memory

namespace Ruprizzle.Cache

-- What each piece of an operation does to the entry of a key, and to what the
-- index says of it.

theorem mem_insertKey {keys : List String} {key k : String} :
    k ∈ insertKey keys key ↔ k = key ∨ k ∈ keys := by
  unfold insertKey
  split
  · rename_i h
    constructor
    · exact Or.inr
    · rintro (rfl | hk)
      · exact h
      · exact hk
  · exact List.mem_cons

theorem mem_removeKey {keys : List String} {key k : String} :
    k ∈ removeKey keys key ↔ k ≠ key ∧ k ∈ keys := by
  simp [removeKey, and_comm]

-- The keys an index has under a tag.
def keysOf (index : IndexMap String (List String)) (tag : String) : List String :=
  (index.get? tag).getD []

theorem mem_keysOf {index : IndexMap String (List String)} {tag key : String} :
    key ∈ keysOf index tag ↔ ∃ keys, index.get? tag = some keys ∧ key ∈ keys := by
  unfold keysOf
  cases index.get? tag <;> simp

theorem mem_keysOf_modify {index : IndexMap String (List String)} {tag key t k : String} :
    k ∈ keysOf (index.modify tag fun keys => removeKey keys key) t ↔
      k ∈ keysOf index t ∧ ¬(t = tag ∧ k = key) := by
  simp only [keysOf, IndexMap.get?_modify]
  by_cases ht : t = tag
  · subst ht
    cases index.get? t <;> simp [mem_removeKey, and_comm]
  · simp [ht]

theorem mem_keysOf_unindex {index : IndexMap String (List String)} {key : String}
    {tags : List String} {t k : String} :
    k ∈ keysOf (unindex index key tags) t ↔ k ∈ keysOf index t ∧ ¬(t ∈ tags ∧ k = key) := by
  unfold unindex
  induction tags generalizing index with
  | nil => simp
  | cons tag rest ih =>
      rw [List.foldl_cons, ih, mem_keysOf_modify]
      by_cases hk : k = key
      · subst hk
        simp [and_assoc]
      · simp [hk]

theorem mem_keysOf_insert {index : IndexMap String (List String)} {tag key t k : String} :
    k ∈ keysOf (index.insert tag (insertKey ((index.get? tag).getD []) key)) t ↔
      (t = tag ∧ k = key) ∨ k ∈ keysOf index t := by
  simp only [keysOf, IndexMap.get?_insert]
  by_cases ht : t = tag
  · subst ht
    simp [mem_insertKey]
  · simp [ht]

theorem mem_keysOf_pruneOther {index : IndexMap String (List String)} {other : String × String}
    {t k : String} :
    k ∈ keysOf (InMemoryCache.pruneOther index other) t ↔ k ∈ keysOf index t ∧ (t, k) ≠ other := by
  obtain ⟨tag, key⟩ := other
  have hpair : (t, k) = (tag, key) ↔ t = tag ∧ k = key := Prod.mk.injEq .. ▸ Iff.rfl
  unfold InMemoryCache.pruneOther
  by_cases ht : t = tag
  · subst ht
    cases h : index.get? t with
    | none => simp [keysOf, h]
    | some keys =>
        have hkeys : keysOf index t = keys := by simp [keysOf, h]
        simp only
        split
        · rename_i hempty
          have hnone := List.isEmpty_iff.mp hempty
          have hk : keysOf (index.shiftRemove t) t = [] := by
            simp [keysOf, IndexMap.get?_shiftRemove]
          rw [hk, hkeys, Ne, hpair]
          constructor
          · intro hmem
            exact absurd hmem List.not_mem_nil
          · intro hmem
            have hkept : k ∈ removeKey keys key :=
              mem_removeKey.mpr ⟨fun heq => hmem.2 ⟨rfl, heq⟩, hmem.1⟩
            rw [hnone] at hkept
            exact hkept
        · have hk : keysOf (index.insert t (removeKey keys key)) t = removeKey keys key := by
            simp [keysOf, IndexMap.get?_insert]
          rw [hk, hkeys, mem_removeKey]
          simp [and_comm]
  · have hne : (t, k) ≠ (tag, key) := fun h => ht (hpair.mp h).1
    cases h : index.get? tag with
    | none => simp [hne]
    | some keys =>
        simp only
        split
        · simp [keysOf, IndexMap.get?_shiftRemove, ht, hne]
        · simp [keysOf, IndexMap.get?_insert, ht, hne]

namespace InMemoryCache

variable {c : InMemoryCache}

theorem tagged_iff {tag key : String} : c.Tagged tag key ↔ key ∈ keysOf c.tagIndex tag :=
  mem_keysOf.symm

theorem mem_taggedKeys {tag key : String} : key ∈ c.taggedKeys tag ↔ c.Tagged tag key :=
  tagged_iff.symm

-- Eviction.

theorem evict_of_none {key : String} (h : c.entries.get? key = none) : c.evict (some key) = c := by
  simp only [evict, h]

theorem evict_of_some {key : String} {old : CacheEntry} (h : c.entries.get? key = some old) :
    c.evict (some key) = { c with
      entries := c.entries.shiftRemove key, tagIndex := unindex c.tagIndex key old.tags } := by
  simp only [evict, h]

theorem evict_maxEntries (victim : Option String) : (c.evict victim).maxEntries = c.maxEntries := by
  cases victim with
  | none => rfl
  | some key =>
      cases h : c.entries.get? key with
      | none => rw [evict_of_none h]
      | some old => rw [evict_of_some h]

theorem evict_get? {victim : Option String} {k : String} :
    (c.evict victim).entries.get? k = if victim = some k then none else c.entries.get? k := by
  cases victim with
  | none => simp [evict]
  | some key =>
      cases h : c.entries.get? key with
      | none =>
          rw [evict_of_none h]
          by_cases hk : key = k
          · subst hk
            simpa using h
          · simp [hk]
      | some old =>
          simp only [evict_of_some h, IndexMap.get?_shiftRemove, Option.some.injEq, eq_comm]

theorem evict_tagged {victim : Option String} {t k : String} :
    (c.evict victim).Tagged t k ↔ c.Tagged t k ∧ ¬(victim = some k ∧ c.Carries t k) := by
  cases victim with
  | none => simp [evict]
  | some key =>
      cases h : c.entries.get? key with
      | none =>
          have hnot : ¬(some key = some k ∧ c.Carries t k) := by
            rintro ⟨hk, e, he, -⟩
            cases hk
            rw [h] at he
            cases he
          rw [evict_of_none h]
          exact ⟨fun ht => ⟨ht, hnot⟩, And.left⟩
      | some old =>
          have hold : (t ∈ old.tags ∧ k = key) ↔ (some key = some k ∧ c.Carries t k) := by
            constructor
            · rintro ⟨ht, rfl⟩
              exact ⟨rfl, old, h, ht⟩
            · rintro ⟨hk, e, he, ht⟩
              cases hk
              rw [h] at he
              cases he
              exact ⟨ht, rfl⟩
          rw [evict_of_some h, tagged_iff, tagged_iff, mem_keysOf_unindex, hold]

theorem evict_carries {victim : Option String} {t k : String} :
    (c.evict victim).Carries t k ↔ c.Carries t k ∧ victim ≠ some k := by
  simp only [Carries, evict_get?]
  by_cases h : victim = some k <;> simp [h]

-- Storing an entry, and writing its key into the index.

@[simp] theorem setEntry_maxEntries {first : Option String} {key : String} {e : CacheEntry} :
    (c.setEntry first key e).maxEntries = c.maxEntries := evict_maxEntries _

theorem setEntry_get? {first : Option String} {key : String} {e : CacheEntry} {k : String} :
    (c.setEntry first key e).entries.get? k =
      if k = key then some e
      else if c.evicts first key = some k then none else c.entries.get? k := by
  simp only [setEntry, IndexMap.get?_insert, evict_get?]

theorem setEntry_tagged {first : Option String} {key : String} {e : CacheEntry} {t k : String} :
    (c.setEntry first key e).Tagged t k ↔
      c.Tagged t k ∧ ¬(c.evicts first key = some k ∧ c.Carries t k) :=
  @evict_tagged c (c.evicts first key) t k

@[simp] theorem setIndex_maxEntries {key : String} {tags : List String} :
    (c.setIndex key tags).maxEntries = c.maxEntries := rfl

@[simp] theorem setIndex_entries {key : String} {tags : List String} :
    (c.setIndex key tags).entries = c.entries := rfl

theorem setIndex_tagged {key : String} {tags : List String} {t k : String} :
    (c.setIndex key tags).Tagged t k ↔ (t ∈ tags ∧ k = key) ∨ c.Tagged t k := by
  simp only [tagged_iff, setIndex]
  generalize c.tagIndex = index
  induction tags generalizing index with
  | nil => simp
  | cons tag rest ih =>
      rw [List.foldl_cons, ih, mem_keysOf_insert]
      by_cases hk : k = key
      · subst hk
        by_cases ht : t = tag <;> simp [ht]
      · simp [hk]

-- Taking a tag, dropping its keys, and pruning the other tags they had.

@[simp] theorem takeTag_entries {tag : String} : (c.takeTag tag).entries = c.entries := rfl

@[simp] theorem takeTag_maxEntries {tag : String} : (c.takeTag tag).maxEntries = c.maxEntries := rfl

theorem takeTag_tagged {tag t k : String} :
    (c.takeTag tag).Tagged t k ↔ t ≠ tag ∧ c.Tagged t k := by
  simp only [Tagged, takeTag, IndexMap.get?_shiftRemove]
  by_cases h : t = tag <;> simp [h]

theorem mem_otherTags {tag : String} {keys : List String} {t k : String} :
    (t, k) ∈ c.otherTags tag keys ↔ k ∈ keys ∧ t ≠ tag ∧ c.Carries t k := by
  unfold otherTags
  rw [List.mem_flatMap]
  constructor
  · rintro ⟨key, hkey, hmem⟩
    cases h : c.entries.get? key with
    | none => simp [h] at hmem
    | some e =>
        simp only [h, List.mem_map, List.mem_filter, Prod.mk.injEq] at hmem
        obtain ⟨_, ⟨ht, hne⟩, rfl, rfl⟩ := hmem
        exact ⟨hkey, by simpa using hne, e, h, ht⟩
  · rintro ⟨hkey, hne, e, he, ht⟩
    exact ⟨k, hkey, by simp [he, ht, hne]⟩

@[simp] theorem dropKeys_maxEntries {keys : List String} :
    (c.dropKeys keys).maxEntries = c.maxEntries := rfl

@[simp] theorem dropKeys_tagIndex {keys : List String} :
    (c.dropKeys keys).tagIndex = c.tagIndex := rfl

theorem dropKeys_get? {keys : List String} {k : String} :
    (c.dropKeys keys).entries.get? k = if k ∈ keys then none else c.entries.get? k := by
  simp only [dropKeys]
  generalize c.entries = entries
  induction keys generalizing entries with
  | nil => simp
  | cons key rest ih =>
      rw [List.foldl_cons, ih, IndexMap.get?_shiftRemove]
      by_cases hk : k = key
      · simp [hk]
      · simp [hk]

@[simp] theorem pruneOthers_entries {others : List (String × String)} :
    (c.pruneOthers others).entries = c.entries := rfl

@[simp] theorem pruneOthers_maxEntries {others : List (String × String)} :
    (c.pruneOthers others).maxEntries = c.maxEntries := rfl

theorem pruneOthers_tagged {others : List (String × String)} {t k : String} :
    (c.pruneOthers others).Tagged t k ↔ c.Tagged t k ∧ (t, k) ∉ others := by
  simp only [tagged_iff, pruneOthers]
  generalize c.tagIndex = index
  induction others generalizing index with
  | nil => simp
  | cons other rest ih =>
      rw [List.foldl_cons, ih, mem_keysOf_pruneOther, List.mem_cons]
      tauto

-- Removing what has expired.

theorem mem_expiredKeys {now : Nat} {k : String} :
    k ∈ c.expiredKeys now ↔ ∃ e, c.entries.get? k = some e ∧ e.expired now = true := by
  simp only [expiredKeys, List.mem_map, List.mem_filter, IndexMap.get?_eq_some]
  constructor
  · rintro ⟨⟨k', e⟩, ⟨hmem, he⟩, rfl⟩
    exact ⟨e, hmem, he⟩
  · rintro ⟨e, hmem, he⟩
    exact ⟨(k, e), ⟨hmem, he⟩, rfl⟩

theorem removeExpired_maxEntries {keys : List String} :
    (c.removeExpired keys).maxEntries = c.maxEntries := by
  unfold removeExpired
  induction keys generalizing c with
  | nil => rfl
  | cons key rest ih => rw [List.foldl_cons, ih, evict_maxEntries]

theorem removeExpired_get? {keys : List String} {k : String} :
    (c.removeExpired keys).entries.get? k = if k ∈ keys then none else c.entries.get? k := by
  unfold removeExpired
  induction keys generalizing c with
  | nil => simp
  | cons key rest ih =>
      rw [List.foldl_cons, ih, evict_get?]
      by_cases hk : k = key
      · simp [hk]
      · simp [hk, Ne.symm hk]

theorem removeExpired_tagged {keys : List String} {t k : String} :
    (c.removeExpired keys).Tagged t k ↔ c.Tagged t k ∧ ¬(k ∈ keys ∧ c.Carries t k) := by
  unfold removeExpired
  induction keys generalizing c with
  | nil => simp
  | cons key rest ih =>
      rw [List.foldl_cons, ih, evict_tagged, evict_carries, List.mem_cons]
      by_cases hk : k = key
      · subst hk
        simp only [ne_eq, not_true_eq_false, and_false, true_or, true_and]
        tauto
      · simp [hk, Ne.symm hk]

theorem carries_of_get? {c' : InMemoryCache} {t k : String}
    (h : c'.entries.get? k = c.entries.get? k) : c'.Carries t k ↔ c.Carries t k := by
  unfold Carries
  rw [h]

theorem not_carries_of_none {t k : String} (h : c.entries.get? k = none) : ¬c.Carries t k := by
  rintro ⟨e, he, -⟩
  rw [h] at he
  cases he

end InMemoryCache

end Ruprizzle.Cache
