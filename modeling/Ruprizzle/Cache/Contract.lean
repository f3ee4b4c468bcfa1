import Ruprizzle.Cache.Pieces
import Ruprizzle.Data.Steps

namespace Ruprizzle.Cache

-- One caller, one operation after another. Beside the cache stands what the latest
-- sets have stored and no operation has taken away.

inductive Op
  | set (key : String) (data : List UInt8) (ttl : Option Nat) (tags : List String)
  | get (key : String)
  | invalidateTag (tag : String)
  | pruneExpired
  | clear
  deriving DecidableEq, Repr

-- The time since the operation before, and which key the entries meet first.
structure Event where
  elapsed : Nat
  pick : Nat
  op : Op
  deriving DecidableEq, Repr

structure Session where
  cache : InMemoryCache
  latest : String → Option CacheEntry
  now : Nat

def InMemoryCache.first (c : InMemoryCache) (pick : Nat) : Option String :=
  c.entries.keys[pick % c.entries.keys.length]?

namespace Session

def start (maxEntries : Nat) : Session := ⟨.new maxEntries, fun _ => none, 0⟩

def step (s : Session) (event : Event) : Session :=
  let now := s.now + event.elapsed
  match event.op with
  | .set key data ttl tags =>
      let first := s.cache.first event.pick
      let expiresAt := ttl.map fun d => now + d
      { cache := s.cache.set first key data expiresAt tags
        latest := fun k =>
          if k = key then some ⟨data, expiresAt, tags⟩
          else if s.cache.evicts first key = some k then none
          else s.latest k
        now }
  | .get _ => { s with now }
  | .invalidateTag tag =>
      { cache := s.cache.invalidateTag tag
        latest := fun k => (s.latest k).filter fun e => tag ∉ e.tags
        now }
  | .pruneExpired => { s with cache := s.cache.pruneExpired now, now }
  | .clear => { cache := s.cache.clear, latest := fun _ => none, now }

-- What the cache promises, as it stands after an operation.
structure Upheld (s : Session) : Prop where
  bounded : s.cache.entries.keys.length ≤ s.cache.maxEntries
  reads : ∀ now key, s.now ≤ now →
    s.cache.get now key =
      (s.latest key).bind fun e => if e.expired now then none else some e.data
  removes : ∀ tag key e, s.latest key = some e → tag ∈ e.tags →
    (s.cache.invalidateTag tag).entries.get? key = none
  keeps : ∀ tag key, (∀ e, s.latest key = some e → tag ∉ e.tags) →
    (s.cache.invalidateTag tag).entries.get? key = s.cache.entries.get? key
  indexed : ∀ tag key, s.cache.Tagged tag key ↔ s.cache.Carries tag key

-- A set that has room to store into and takes no tag from the key.
def Covers (s : Session) (event : Event) : Prop :=
  match event.op with
  | .set key _ _ tags => 0 < s.cache.maxEntries ∧
      ∀ old, s.cache.entries.get? key = some old → ∀ tag ∈ old.tags, tag ∈ tags
  | _ => True

-- An entry is the latest one, and what is missing has expired.
structure Sound (s : Session) : Prop where
  bounded : s.cache.entries.keys.length ≤ s.cache.maxEntries
  stored : ∀ key, s.cache.entries.get? key = s.latest key ∨
    s.cache.entries.get? key = none ∧ ∃ e, s.latest key = some e ∧ e.expired s.now = true
  indexed : ∀ tag key, s.cache.Tagged tag key ↔ s.cache.Carries tag key

end Session

theorem expired_mono {e : CacheEntry} {now later : Nat} (hle : now ≤ later)
    (h : e.expired now = true) : e.expired later = true := by
  unfold CacheEntry.expired at *
  cases he : e.expiresAt with
  | none => simp [he] at h
  | some t =>
      simp only [he, Option.any_some, decide_eq_true_eq] at h ⊢
      omega

namespace InMemoryCache

variable {c : InMemoryCache}

theorem first_eq_none {pick : Nat} : c.first pick = none ↔ c.entries.keys = [] := by
  unfold first
  rw [List.getElem?_eq_none_iff]
  constructor
  · intro h
    by_contra hne
    have hpos := List.length_pos_iff.mpr hne
    have := Nat.mod_lt pick hpos
    omega
  · intro h
    simp [h]

theorem mem_of_first {pick : Nat} {key : String} (h : c.first pick = some key) :
    key ∈ c.entries.keys :=
  List.mem_of_getElem? h

theorem length_insert {m : IndexMap String CacheEntry} {key : String} {e : CacheEntry} :
    (m.insert key e).keys.length = m.keys.length + if key ∈ m.keys then 0 else 1 := by
  have hlength : ∀ m : IndexMap String CacheEntry, m.keys.length = m.entries.length :=
    fun _ => List.length_map _
  rw [hlength, hlength, IndexMap.entries_insert]
  split <;> simp

theorem length_shiftRemove {m : IndexMap String CacheEntry} {key : String} (h : key ∈ m.keys) :
    (m.shiftRemove key).keys.length < m.keys.length := by
  obtain ⟨e, he⟩ := IndexMap.mem_keys.mp h
  simp only [IndexMap.keys, List.length_map, IndexMap.shiftRemove]
  exact List.length_filter_lt_length_iff_exists.mpr ⟨(key, e), he, by simp⟩

-- Entries that are only taken away become no more.
theorem length_le_of_get? {m n : IndexMap String CacheEntry}
    (h : ∀ k, n.get? k = none ∨ n.get? k = m.get? k) : n.keys.length ≤ m.keys.length := by
  have hsub : n.keys ⊆ m.keys := by
    intro k hk
    obtain ⟨e, he⟩ := IndexMap.mem_keys_iff_get?.mp hk
    rcases h k with hnone | heq
    · rw [hnone] at he
      cases he
    · exact IndexMap.mem_keys_iff_get?.mpr ⟨e, heq ▸ he⟩
  exact List.Nodup.length_le_of_subset n.keys_nodup hsub

theorem evicts_eq_some {first : Option String} {key victim : String} :
    c.evicts first key = some victim ↔
      c.maxEntries ≤ c.entries.keys.length ∧ key ∉ c.entries.keys ∧ first = some victim := by
  unfold evicts
  split
  · rename_i h
    simp [h.1, h.2]
  · rename_i h
    constructor
    · intro h
      cases h
    · rintro ⟨hfull, hnot, -⟩
      exact absurd ⟨hfull, hnot⟩ h

-- An entry goes into a cache with room for one without passing what it may hold.
theorem setEntry_bounded {pick : Nat} {key : String} {e : CacheEntry} (hpos : 0 < c.maxEntries)
    (h : c.entries.keys.length ≤ c.maxEntries) :
    (c.setEntry (c.first pick) key e).entries.keys.length ≤ c.maxEntries := by
  simp only [setEntry, length_insert]
  by_cases hkey : key ∈ c.entries.keys
  · have hnone : c.evicts (c.first pick) key = none := by
      unfold evicts
      rw [if_neg fun h => h.2 hkey]
    simp only [hnone, evict, hkey, ite_true]
    omega
  · by_cases hroom : c.entries.keys.length < c.maxEntries
    · have hnone : c.evicts (c.first pick) key = none := by
        unfold evicts
        rw [if_neg fun h => absurd h.1 (by omega)]
      simp only [hnone, evict, hkey, ite_false]
      omega
    · have hne : c.entries.keys ≠ [] := by
        intro hnil
        rw [hnil, List.length_nil] at hroom
        omega
      obtain ⟨victim, hfirst⟩ := Option.ne_none_iff_exists'.mp (mt first_eq_none.mp hne)
      have hvictim := mem_of_first hfirst
      obtain ⟨old, hold⟩ := IndexMap.mem_keys_iff_get?.mp hvictim
      have hsome := evicts_eq_some.mpr ⟨by omega, hkey, hfirst⟩
      have hlt := length_shiftRemove hvictim
      rw [hsome, evict_of_some hold]
      simp only
      split <;> omega

theorem set_maxEntries {first : Option String} {key : String} {data : List UInt8}
    {expiresAt : Option Nat} {tags : List String} :
    (c.set first key data expiresAt tags).maxEntries = c.maxEntries :=
  setEntry_maxEntries (e := ⟨data, expiresAt, tags⟩)

theorem set_get? {first : Option String} {key : String} {data : List UInt8}
    {expiresAt : Option Nat} {tags : List String} {k : String} :
    (c.set first key data expiresAt tags).entries.get? k =
      if k = key then some ⟨data, expiresAt, tags⟩
      else if c.evicts first key = some k then none else c.entries.get? k :=
  setEntry_get?

theorem set_tagged {first : Option String} {key : String} {data : List UInt8}
    {expiresAt : Option Nat} {tags : List String} {t k : String} :
    (c.set first key data expiresAt tags).Tagged t k ↔
      (t ∈ tags ∧ k = key) ∨
        c.Tagged t k ∧ ¬(c.evicts first key = some k ∧ c.Carries t k) := by
  unfold set
  rw [setIndex_tagged, setEntry_tagged]

theorem invalidateTag_get? {tag k : String} :
    (c.invalidateTag tag).entries.get? k =
      if k ∈ c.taggedKeys tag then none else c.entries.get? k :=
  dropKeys_get?

theorem invalidateTag_tagged {tag t k : String} :
    (c.invalidateTag tag).Tagged t k ↔
      (t ≠ tag ∧ c.Tagged t k) ∧ ¬(c.Tagged tag k ∧ t ≠ tag ∧ c.Carries t k) := by
  unfold invalidateTag
  rw [pruneOthers_tagged, mem_otherTags, mem_taggedKeys]
  exact and_congr_left' takeTag_tagged

theorem invalidateTag_carries {tag t k : String} :
    (c.invalidateTag tag).Carries t k ↔ ¬c.Tagged tag k ∧ c.Carries t k := by
  simp only [Carries, invalidateTag_get?, ← mem_taggedKeys]
  split <;> simp [*]

theorem pruneExpired_get? {now : Nat} {k : String} :
    (c.pruneExpired now).entries.get? k =
      if k ∈ c.expiredKeys now then none else c.entries.get? k :=
  removeExpired_get?

theorem pruneExpired_tagged {now : Nat} {t k : String} :
    (c.pruneExpired now).Tagged t k ↔
      c.Tagged t k ∧ ¬(k ∈ c.expiredKeys now ∧ c.Carries t k) :=
  removeExpired_tagged

theorem pruneExpired_carries {now : Nat} {t k : String} :
    (c.pruneExpired now).Carries t k ↔ k ∉ c.expiredKeys now ∧ c.Carries t k := by
  simp only [Carries, pruneExpired_get?]
  split <;> simp [*]

theorem clear_not_tagged {tag key : String} : ¬c.clear.Tagged tag key := by
  rintro ⟨keys, hkeys, -⟩
  cases hkeys

end InMemoryCache

namespace Session

variable {s : Session}

theorem Sound.latest_of_get? (h : Sound s) {key : String} {e : CacheEntry}
    (he : s.cache.entries.get? key = some e) : s.latest key = some e := by
  rcases h.stored key with heq | ⟨hnone, -⟩
  · rw [← heq, he]
  · rw [hnone] at he
    cases he

theorem Sound.upheld (h : Sound s) : Upheld s where
  bounded := h.bounded
  reads := by
    intro now key hnow
    unfold InMemoryCache.get
    rcases h.stored key with heq | ⟨hnone, e, he, hexpired⟩
    · rw [heq]
    · simp [hnone, he, expired_mono hnow hexpired]
  removes := by
    intro tag key e he ht
    rw [InMemoryCache.invalidateTag_get?]
    rcases h.stored key with heq | ⟨hnone, -⟩
    · have htagged := (h.indexed tag key).mpr ⟨e, heq.trans he, ht⟩
      rw [if_pos (InMemoryCache.mem_taggedKeys.mpr htagged)]
    · rw [hnone, ite_self]
  keeps := by
    intro tag key hnot
    rw [InMemoryCache.invalidateTag_get?, if_neg]
    intro hmem
    obtain ⟨e, he, ht⟩ := (h.indexed tag key).mp (InMemoryCache.mem_taggedKeys.mp hmem)
    exact hnot e (h.latest_of_get? he) ht
  indexed := h.indexed

theorem start_sound (maxEntries : Nat) : Sound (start maxEntries) where
  bounded := Nat.zero_le _
  stored := fun _ => Or.inl rfl
  indexed := by
    intro tag key
    constructor
    · rintro ⟨keys, hkeys, -⟩
      cases hkeys
    · rintro ⟨e, he, -⟩
      cases he

theorem Sound.later (h : Sound s) {now : Nat} (hle : s.now ≤ now) : Sound { s with now } where
  bounded := h.bounded
  stored := fun key => (h.stored key).imp_right fun ⟨hnone, e, he, hexpired⟩ =>
    ⟨hnone, e, he, expired_mono hle hexpired⟩
  indexed := h.indexed

-- One lemma for each operation.

theorem Sound.set (h : Sound s) {pick : Nat} {key : String} {data : List UInt8}
    {expiresAt : Option Nat} {tags : List String} (hpos : 0 < s.cache.maxEntries)
    (hcovers : ∀ old, s.cache.entries.get? key = some old → ∀ tag ∈ old.tags, tag ∈ tags) :
    Sound
      { cache := s.cache.set (s.cache.first pick) key data expiresAt tags
        latest := fun k =>
          if k = key then some ⟨data, expiresAt, tags⟩
          else if s.cache.evicts (s.cache.first pick) key = some k then none
          else s.latest k
        now := s.now } where
  bounded := by
    refine le_of_le_of_eq ?_ InMemoryCache.set_maxEntries.symm
    exact InMemoryCache.setEntry_bounded hpos h.bounded
  stored := by
    intro k
    simp only [InMemoryCache.set_get?]
    split
    · exact Or.inl rfl
    · split
      · exact Or.inl rfl
      · exact h.stored k
  indexed := by
    intro t k
    simp only [InMemoryCache.set_tagged, InMemoryCache.Carries, InMemoryCache.set_get?]
    by_cases hk : k = key
    · subst hk
      have hnot : s.cache.evicts (s.cache.first pick) k ≠ some k := by
        intro hevicts
        obtain ⟨-, hmem, hfirst⟩ := InMemoryCache.evicts_eq_some.mp hevicts
        exact hmem (InMemoryCache.mem_of_first hfirst)
      simp only [and_true, hnot, false_and, not_false_eq_true, ite_true, Option.some.injEq,
        exists_eq_left']
      refine ⟨fun htagged => ?_, Or.inl⟩
      rcases htagged with ht | htagged
      · exact ht
      · obtain ⟨old, hold, ht⟩ := (h.indexed t k).mp htagged
        exact hcovers old hold t ht
    · simp only [hk, and_false, false_or, ite_false]
      by_cases hvictim : s.cache.evicts (s.cache.first pick) key = some k
      · simp only [hvictim, true_and, h.indexed, ite_true, reduceCtorEq, false_and, exists_false,
          iff_false]
        exact and_not_self
      · simp only [hvictim, false_and, not_false_eq_true, and_true, ite_false]
        exact h.indexed t k

theorem Sound.invalidateTag (h : Sound s) {tag : String} :
    Sound
      { cache := s.cache.invalidateTag tag
        latest := fun k => (s.latest k).filter fun e => tag ∉ e.tags
        now := s.now } where
  bounded := by
    refine (InMemoryCache.length_le_of_get? fun k => ?_).trans h.bounded
    rw [InMemoryCache.invalidateTag_get?]
    split <;> simp
  stored := by
    intro k
    rw [InMemoryCache.invalidateTag_get?]
    by_cases hcarries : s.cache.Carries tag k
    · obtain ⟨e, he, ht⟩ := hcarries
      have hmem := InMemoryCache.mem_taggedKeys.mpr ((h.indexed tag k).mpr ⟨e, he, ht⟩)
      left
      simp [Option.filter, hmem, h.latest_of_get? he, ht]
    · have hmem : k ∉ s.cache.taggedKeys tag := fun hmem =>
        hcarries ((h.indexed tag k).mp (InMemoryCache.mem_taggedKeys.mp hmem))
      rw [if_neg hmem]
      rcases h.stored k with heq | ⟨hnone, e, he, hexpired⟩
      · left
        cases he : s.latest k with
        | none => simpa [he] using heq
        | some e =>
            have hnot : tag ∉ e.tags := fun ht => hcarries ⟨e, heq.trans he, ht⟩
            simpa [Option.filter, he, hnot] using heq
      · by_cases ht : tag ∈ e.tags
        · left
          simp [Option.filter, hnone, he, ht]
        · exact Or.inr ⟨hnone, e, by simp [Option.filter, he, ht], hexpired⟩
  indexed := by
    intro t k
    rw [InMemoryCache.invalidateTag_tagged, InMemoryCache.invalidateTag_carries, h.indexed,
      h.indexed]
    by_cases ht : t = tag
    · subst ht
      tauto
    · tauto

theorem Sound.pruneExpired (h : Sound s) :
    Sound { s with cache := s.cache.pruneExpired s.now } where
  bounded := by
    simp only [InMemoryCache.pruneExpired, InMemoryCache.removeExpired_maxEntries]
    refine (InMemoryCache.length_le_of_get? fun k => ?_).trans h.bounded
    rw [InMemoryCache.removeExpired_get?]
    split <;> simp
  stored := by
    intro k
    simp only [InMemoryCache.pruneExpired_get?]
    split
    · rename_i hmem
      obtain ⟨e, he, hexpired⟩ := InMemoryCache.mem_expiredKeys.mp hmem
      exact Or.inr ⟨rfl, e, h.latest_of_get? he, hexpired⟩
    · exact h.stored k
  indexed := by
    intro t k
    rw [InMemoryCache.pruneExpired_tagged, InMemoryCache.pruneExpired_carries, h.indexed]
    tauto

theorem Sound.clear (_h : Sound s) :
    Sound { s with cache := s.cache.clear, latest := fun _ => none } where
  bounded := Nat.zero_le _
  stored := fun _ => Or.inl rfl
  indexed := by
    intro tag key
    refine ⟨fun htagged => absurd htagged InMemoryCache.clear_not_tagged, ?_⟩
    intro hcarries
    exact absurd hcarries (InMemoryCache.not_carries_of_none rfl)

theorem Sound.step (h : Sound s) {event : Event} (hcovers : Covers s event) :
    Sound (s.step event) := by
  have hlater := h.later (Nat.le_add_right s.now event.elapsed)
  obtain ⟨elapsed, pick, op⟩ := event
  cases op with
  | set key data ttl tags => exact hlater.set hcovers.1 hcovers.2
  | get key => exact hlater
  | invalidateTag tag => exact hlater.invalidateTag
  | pruneExpired => exact hlater.pruneExpired
  | clear => exact hlater.clear

-- A set into a cache of no capacity leaves more than the cache may hold, and one
-- that takes a tag from its key leaves the key under it.
theorem Sound.not_upheld (h : Sound s) {event : Event} (hnot : ¬Covers s event) :
    ¬Upheld (s.step event) := by
  obtain ⟨elapsed, pick, op⟩ := event
  intro hupheld
  cases op with
  | set key data ttl tags =>
      refine hnot ⟨?_, fun old hold tag ht => ?_⟩
      · have hkey : key ∈ (s.cache.set (s.cache.first pick) key data
            (ttl.map fun d => s.now + elapsed + d) tags).entries.keys :=
          IndexMap.mem_keys_iff_get?.mpr ⟨_, InMemoryCache.set_get?.trans (if_pos rfl)⟩
        have hle := hupheld.bounded
        rw [show (s.step ⟨elapsed, pick, .set key data ttl tags⟩).cache.maxEntries =
          s.cache.maxEntries from InMemoryCache.set_maxEntries] at hle
        exact (List.length_pos_of_mem hkey).trans_le hle
      · have hstays : s.cache.evicts (s.cache.first pick) key ≠ some key := fun hevicts =>
          (InMemoryCache.evicts_eq_some.mp hevicts).2.1 (IndexMap.mem_keys_iff_get?.mpr ⟨old, hold⟩)
        have htagged : (s.step ⟨elapsed, pick, .set key data ttl tags⟩).cache.Tagged tag key :=
          InMemoryCache.set_tagged.mpr (Or.inr
            ⟨(h.indexed tag key).mpr ⟨old, hold, ht⟩, fun hgone => hstays hgone.1⟩)
        obtain ⟨e, he, hmem⟩ := (hupheld.indexed tag key).mp htagged
        rw [show (s.step ⟨elapsed, pick, .set key data ttl tags⟩).cache.entries.get? key =
          some ⟨data, _, tags⟩ from InMemoryCache.set_get?.trans (if_pos rfl)] at he
        cases he
        exact hmem
  | get key => exact hnot trivial
  | invalidateTag tag => exact hnot trivial
  | pruneExpired => exact hnot trivial
  | clear => exact hnot trivial

-- Every operation of a sequence keeps what the cache promises, just when each set
-- has room to store into and gives its key every tag that the key had.
theorem contract_iff (maxEntries : Nat) (events : List Event) :
    Steps.Always Session.step Upheld (start maxEntries) events ↔
      Steps.Along Session.step Covers (start maxEntries) events :=
  Steps.always_iff (fun s (h : Sound s) => h.upheld) (fun _ _ h hcovers => h.step hcovers)
    (fun _ _ h hnot => h.not_upheld hnot) (start_sound maxEntries)

-- A key that was under a tag before is dropped with it.
def retagged : List Event :=
  [⟨0, 0, .set "profile" [1] none ["users"]⟩, ⟨0, 0, .set "profile" [2] none ["posts"]⟩,
    ⟨0, 0, .invalidateTag "users"⟩]

theorem retagged_dropped :
    ¬Steps.Always Session.step Upheld (start 100) retagged ∧
      (retagged.foldl Session.step (start 100)).cache.get 0 "profile" = none := by
  have hnone : (retagged.foldl Session.step (start 100)).cache.get 0 "profile" = none := by decide
  refine ⟨fun h => ?_, hnone⟩
  have hreads := (h retagged List.prefix_rfl).reads 0 "profile" (by decide)
  rw [hnone] at hreads
  exact absurd hreads (by decide)

end Session

end Ruprizzle.Cache
