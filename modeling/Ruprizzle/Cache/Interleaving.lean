import Ruprizzle.Cache.Pieces
import Ruprizzle.Cache.Contract
import Ruprizzle.Data.Interleave

namespace Ruprizzle.Cache

open Interleave

-- Any number of callers of one cache. A call goes piece by piece, each under a lock
-- it takes and releases, and pieces of other calls may come between. The piece of
-- set that evicts takes the lock of the index inside that of the entries: a piece
-- that only needs the index may come before it takes the second, and then sees
-- what it would have seen before the first.

variable {P : Type} [DecidableEq P]

-- A call of set. The number tells the calls of a run apart.
structure SetCall (P : Type) where
  caller : P
  number : Nat
  key : String
  tags : List String
  deriving DecidableEq, Repr

inductive Request
  | set (key : String) (data : List UInt8) (ttl : Option Nat) (tags : List String)
  | get (key : String)
  | invalidateTag (tag : String)
  | pruneExpired
  deriving DecidableEq, Repr

-- Beside the cache: which call stored the entry of a key, which calls of set have
-- returned, and which of these had returned before an invalidation of one of their
-- tags was called that has returned as well.
structure Shared (P : Type) where
  cache : InMemoryCache
  writer : String → Option (SetCall P)
  calls : Nat
  returned : List (SetCall P)
  dead : List (SetCall P)

-- Where a caller is. An invalidation keeps the calls of set that had returned when
-- it was called, and a get those that were dead when it was called.
inductive Call (P : Type)
  | idle
  | setting (call : SetCall P) (e : CacheEntry)
  | indexing (call : SetCall P)
  | taking (tag : String) (marked : List (SetCall P))
  | dropping (tag : String) (keys : List String) (marked : List (SetCall P))
  | pruning (others : List (String × String)) (marked : List (SetCall P))
  | scanning (now : Nat)
  | removing (keys : List String)
  | reading (key : String) (dead : List (SetCall P))
  | answered (answer : Option (SetCall P × List UInt8)) (dead : List (SetCall P))
  deriving DecidableEq, Repr

-- A caller calls, or goes on with its call.
inductive Act
  | call (request : Request) (now : Nat)
  | piece (pick : Nat) (now : Nat)
  deriving DecidableEq, Repr

namespace Shared

def start (maxEntries : Nat) : Shared P := ⟨.new maxEntries, fun _ => none, 0, [], []⟩

variable (s : Shared P)

def invoke (p : P) (now : Nat) : Request → Shared P × Call P
  | .set key data ttl tags =>
      ({ s with calls := s.calls + 1 },
        .setting ⟨p, s.calls, key, tags⟩ ⟨data, ttl.map fun d => now + d, tags⟩)
  | .get key => (s, .reading key s.dead)
  | .invalidateTag tag => (s, .taking tag (s.returned.filter fun c => tag ∈ c.tags))
  | .pruneExpired => (s, .scanning now)

-- An invalidation that returns.
def bury (marked : List (SetCall P)) : Shared P := { s with dead := marked ++ s.dead }

def piece (pick now : Nat) : Call P → Option (Shared P × Call P)
  | .idle => none
  | .setting call e =>
      some ({ s with
        cache := s.cache.setEntry (s.cache.first pick) call.key e
        writer := Function.update s.writer call.key (some call) }, .indexing call)
  | .indexing call =>
      some ({ s with
        cache := s.cache.setIndex call.key call.tags
        returned := call :: s.returned }, .idle)
  | .taking tag marked =>
      let keys := s.cache.taggedKeys tag
      let s := { s with cache := s.cache.takeTag tag }
      if keys.isEmpty then some (s.bury marked, .idle) else some (s, .dropping tag keys marked)
  | .dropping tag keys marked =>
      let others := s.cache.otherTags tag keys
      let s := { s with cache := s.cache.dropKeys keys }
      if others.isEmpty then some (s.bury marked, .idle) else some (s, .pruning others marked)
  | .pruning others marked =>
      some ({ s with cache := s.cache.pruneOthers others }.bury marked, .idle)
  | .scanning now =>
      let keys := s.cache.expiredKeys now
      if keys.isEmpty then some (s, .idle) else some (s, .removing keys)
  | .removing keys => some ({ s with cache := s.cache.removeExpired keys }, .idle)
  | .reading key dead =>
      some (s, .answered ((s.cache.get now key).bind fun data =>
        (s.writer key).map fun call => (call, data)) dead)
  | .answered _ _ => some (s, .idle)

end Shared

def step (p : P) (a : Act) (s : Shared P) (l : Call P) : Option (Shared P × Call P) :=
  match a, l with
  | .call request now, .idle => some (s.invoke p now request)
  | .call _ _, _ => none
  | .piece pick now, l => s.piece pick now l

abbrev Callers (P : Type) := World P (Shared P) (Call P)

def Callers.start (maxEntries : Nat) : Callers P := ⟨.start maxEntries, fun _ => .idle⟩

-- No get answers what an invalidation before it has promised to be gone.
def NoStale (w : Callers P) : Prop :=
  ∀ p answer dead, w.party p = .answered answer dead →
    ∀ call data, answer = some (call, data) → call ∉ dead

-- The call that stored what a key has now.
def Shared.Current (s : Shared P) (key : String) (call : SetCall P) : Prop :=
  (∃ e, s.cache.entries.get? key = some e) ∧ s.writer key = some call

-- What an invalidation of a tag may still have to drop.
def Callers.Held (w : Callers P) (tag key : String) : Prop :=
  ∃ q keys marked, w.party q = .dropping tag keys marked ∧ key ∈ keys

-- The index loses no pair that a later invalidation has to find there: when the tags
-- of a dropped entry are pruned, no newer entry of the key stands under them, and
-- when a tag is taken, no other invalidation of it holds a key that has an entry to
-- be found by this one.
def Meets (w : Callers P) (p : P) (_a : Act) : Prop :=
  match w.party p with
  | .pruning others _ => ∀ tag key call, (tag, key) ∈ others → w.shared.Current key call →
      tag ∈ call.tags → call ∈ w.shared.returned → ¬w.shared.cache.Tagged tag key
  | .taking tag marked => ∀ key call, w.Held tag key → w.shared.Current key call →
      call ∈ marked → w.shared.cache.Tagged tag key
  | _ => True

namespace Shared

variable {s s' : Shared P} {p q : P} {l : Call P}

-- What a caller knows of the shared state.
def Holds (s : Shared P) (p : P) : Call P → Prop
  | .setting call e => call.caller = p ∧ call.number < s.calls ∧ call ∉ s.returned ∧
      e.tags = call.tags
  | .indexing call => call.caller = p ∧ call.number < s.calls ∧ call ∉ s.returned
  | .taking tag marked => ∀ call ∈ marked, call ∈ s.returned ∧ tag ∈ call.tags
  | .dropping _ keys marked => (∀ call ∈ marked, call ∈ s.returned) ∧
      ∀ key call, s.Current key call → call ∈ marked → key ∈ keys
  | .pruning _ marked => (∀ call ∈ marked, call ∈ s.returned) ∧
      ∀ key call, s.Current key call → call ∉ marked
  | .reading _ dead => ∀ call ∈ dead, call ∈ s.dead
  | .answered answer dead => ∀ call data, answer = some (call, data) → call ∉ dead
  | _ => True

-- What the piece of a caller can do to the others.
structure Effect (p : P) (s s' : Shared P) : Prop where
  calls : s.calls ≤ s'.calls
  keeps : ∀ call ∈ s.returned, call ∈ s'.returned
  returns : ∀ call ∈ s'.returned, call ∈ s.returned ∨ call.caller = p
  buries : ∀ call ∈ s.dead, call ∈ s'.dead
  stores : ∀ key call, s'.Current key call → s.Current key call ∨ call ∉ s.returned

omit [DecidableEq P] in
theorem Effect.cache {cache : InMemoryCache}
    (h : ∀ key call, Current { s with cache } key call → s.Current key call) :
    Effect p s { s with cache } :=
  ⟨le_rfl, fun _ h => h, fun _ h => Or.inl h, fun _ h => h, fun key call hc => Or.inl (h key call hc)⟩

omit [DecidableEq P] in
theorem Effect.holds (heffect : Effect p s s') (hne : q ≠ p) (h : s.Holds q l) :
    s'.Holds q l := by
  have hfresh : ∀ call : SetCall P, call.caller = q → call ∉ s.returned → call ∉ s'.returned := by
    intro call hcaller hnot hmem
    rcases heffect.returns call hmem with hold | hp
    · exact hnot hold
    · exact hne (hcaller.symm.trans hp)
  have hcurrent : ∀ key call, s'.Current key call → call ∈ s.returned → s.Current key call :=
    fun key call hstands hmem => (heffect.stores key call hstands).resolve_right (absurd hmem)
  cases l with
  | setting call e =>
      obtain ⟨hcaller, hnumber, hnot, htags⟩ := h
      exact ⟨hcaller, hnumber.trans_le heffect.calls, hfresh call hcaller hnot, htags⟩
  | indexing call =>
      obtain ⟨hcaller, hnumber, hnot⟩ := h
      exact ⟨hcaller, hnumber.trans_le heffect.calls, hfresh call hcaller hnot⟩
  | taking tag marked =>
      intro call hmem
      exact ⟨heffect.keeps call (h call hmem).1, (h call hmem).2⟩
  | dropping tag keys marked =>
      refine ⟨fun call hmem => heffect.keeps call (h.1 call hmem), fun key call hstands hmem => ?_⟩
      exact h.2 key call (hcurrent key call hstands (h.1 call hmem)) hmem
  | pruning others marked =>
      refine ⟨fun call hmem => heffect.keeps call (h.1 call hmem), fun key call hstands hmem => ?_⟩
      exact h.2 key call (hcurrent key call hstands (h.1 call hmem)) hmem
  | reading key dead => exact fun call hmem => heffect.buries call (h call hmem)
  | answered answer dead => exact h
  | idle => trivial
  | scanning now => trivial
  | removing keys => trivial

end Shared

-- Each entry is that of the call that stored it, none is of a dead one, and once
-- the call has returned, its key is under each of its tags, or an invalidation of
-- the tag is about to drop it.
structure Sound (w : Callers P) : Prop where
  stored : ∀ key e, w.shared.cache.entries.get? key = some e →
    ∃ call, w.shared.writer key = some call ∧ call.key = key ∧ call.tags = e.tags
  fresh : ∀ key call, w.shared.Current key call → call ∉ w.shared.dead
  buried : ∀ call ∈ w.shared.dead, call ∈ w.shared.returned
  numbered : ∀ call ∈ w.shared.returned, call.number < w.shared.calls
  parties : ∀ p, w.shared.Holds p (w.party p)
  indexed : ∀ key call tag, w.shared.Current key call → call ∈ w.shared.returned →
    tag ∈ call.tags → w.shared.cache.Tagged tag key ∨ w.Held tag key

namespace Sound

variable {w : Callers P} {p : P} {s : Shared P} {l : Call P}

-- What is left to show of a step, when its effect on the others is known.
theorem update (h : Sound w) (heffect : Shared.Effect p w.shared s)
    (hstored : ∀ key e, s.cache.entries.get? key = some e →
      ∃ call, s.writer key = some call ∧ call.key = key ∧ call.tags = e.tags)
    (hfresh : ∀ key call, s.Current key call → call ∉ s.dead)
    (hburied : ∀ call ∈ s.dead, call ∈ s.returned)
    (hnumbered : ∀ call ∈ s.returned, call.number < s.calls)
    (hown : s.Holds p l)
    (hindexed : ∀ key call tag, s.Current key call → call ∈ s.returned → tag ∈ call.tags →
      s.cache.Tagged tag key ∨ Callers.Held ⟨s, Function.update w.party p l⟩ tag key) :
    Sound ⟨s, Function.update w.party p l⟩ where
  stored := hstored
  fresh := hfresh
  buried := hburied
  numbered := hnumbered
  parties := by
    intro q
    by_cases hq : q = p
    · subst hq
      simpa using hown
    · simpa [Function.update_of_ne hq] using heffect.holds hq (h.parties q)
  indexed := hindexed

end Sound

end Ruprizzle.Cache
