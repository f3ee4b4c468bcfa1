import Ruprizzle.Data.IndexMap

namespace Ruprizzle.Cache

-- The query cache in memory: entries by key, and for each tag the keys that carry
-- it, each map behind a lock of its own. An operation is given in the pieces that
-- it does under one lock. No lock is ever poisoned.

structure CacheEntry where
  data : List UInt8
  expiresAt : Option Nat
  tags : List String
  deriving DecidableEq, Repr

structure InMemoryCache where
  entries : IndexMap String CacheEntry
  tagIndex : IndexMap String (List String)
  maxEntries : Nat
  deriving DecidableEq, Repr

def CacheEntry.expired (e : CacheEntry) (now : Nat) : Bool := e.expiresAt.any fun t => decide (t ≤ now)

-- Of sets of keys only the members matter.
def insertKey (keys : List String) (key : String) : List String :=
  if key ∈ keys then keys else key :: keys

def removeKey (keys : List String) (key : String) : List String := keys.filter fun k => k ≠ key

-- Takes a key out of the sets of its tags.
def unindex (index : IndexMap String (List String)) (key : String) (tags : List String) :
    IndexMap String (List String) :=
  tags.foldl (fun index tag => index.modify tag fun keys => removeKey keys key) index

namespace InMemoryCache

def new (maxEntries : Nat) : InMemoryCache := ⟨.empty, .empty, maxEntries⟩

variable (c : InMemoryCache)

def get (now : Nat) (key : String) : Option (List UInt8) :=
  (c.entries.get? key).bind fun e => if e.expired now then none else some e.data

-- The first key of the entries, in whatever order they are met.
def evicts (first : Option String) (key : String) : Option String :=
  if c.maxEntries ≤ c.entries.keys.length ∧ key ∉ c.entries.keys then first else none

def evict (victim : Option String) : InMemoryCache :=
  match victim with
  | some key =>
      match c.entries.get? key with
      | some old => { c with
          entries := c.entries.shiftRemove key, tagIndex := unindex c.tagIndex key old.tags }
      | none => c
  | none => c

-- The two pieces of set.

def setEntry (first : Option String) (key : String) (e : CacheEntry) : InMemoryCache :=
  let c := c.evict (c.evicts first key)
  { c with entries := c.entries.insert key e }

def setIndex (key : String) (tags : List String) : InMemoryCache :=
  { c with
    tagIndex := tags.foldl (fun index tag =>
      index.insert tag (insertKey ((index.get? tag).getD []) key)) c.tagIndex }

-- The three pieces of invalidate_tag: the keys are taken from the index, their
-- entries removed, and what other tags these had is taken from the index too.

def taggedKeys (tag : String) : List String := (c.tagIndex.get? tag).getD []

def takeTag (tag : String) : InMemoryCache := { c with tagIndex := c.tagIndex.shiftRemove tag }

def otherTags (tag : String) (keys : List String) : List (String × String) :=
  keys.flatMap fun key => match c.entries.get? key with
    | some e => (e.tags.filter fun t => t ≠ tag).map fun t => (t, key)
    | none => []

def dropKeys (keys : List String) : InMemoryCache :=
  { c with entries := keys.foldl (fun entries key => entries.shiftRemove key) c.entries }

def pruneOther (index : IndexMap String (List String)) (other : String × String) :
    IndexMap String (List String) :=
  match index.get? other.1 with
  | some keys =>
      if (removeKey keys other.2).isEmpty then index.shiftRemove other.1
      else index.insert other.1 (removeKey keys other.2)
  | none => index

def pruneOthers (others : List (String × String)) : InMemoryCache :=
  { c with tagIndex := others.foldl pruneOther c.tagIndex }

-- The two pieces of prune_expired. The second one holds both locks.

def expiredKeys (now : Nat) : List String :=
  (c.entries.entries.filter fun e => e.2.expired now).map Prod.fst

def removeExpired (keys : List String) : InMemoryCache :=
  keys.foldl (fun c key => c.evict (some key)) c

-- The operations, where nothing comes between the pieces.

def set (first : Option String) (key : String) (data : List UInt8) (expiresAt : Option Nat)
    (tags : List String) : InMemoryCache :=
  (c.setEntry first key ⟨data, expiresAt, tags⟩).setIndex key tags

def invalidateTag (tag : String) : InMemoryCache :=
  let keys := c.taggedKeys tag
  let c := c.takeTag tag
  (c.dropKeys keys).pruneOthers (c.otherTags tag keys)

def pruneExpired (now : Nat) : InMemoryCache := c.removeExpired (c.expiredKeys now)

def clear : InMemoryCache := { c with entries := .empty, tagIndex := .empty }

-- What the index says of a key.
def Tagged (tag key : String) : Prop := ∃ keys, c.tagIndex.get? tag = some keys ∧ key ∈ keys

-- What the entry of a key says.
def Carries (tag key : String) : Prop := ∃ e, c.entries.get? key = some e ∧ tag ∈ e.tags

end InMemoryCache

end Ruprizzle.Cache
