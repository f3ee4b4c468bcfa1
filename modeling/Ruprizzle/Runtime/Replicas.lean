import Ruprizzle.Data.Extremes
import Ruprizzle.Data.Interleave
import Ruprizzle.Runtime.ReplicaSafe

namespace Ruprizzle.Runtime.Routing

open Interleave

-- The router that all clones share.

inductive LoadBalancing
  | roundRobin
  | leastConnections
  | random
  deriving DecidableEq, Repr

structure ReplicaPool where
  healthy : Bool
  activeConns : UInt64
  deriving DecidableEq, Repr

def ReplicaPool.new : ReplicaPool := ⟨true, 0⟩

structure RoutedPool where
  replicas : List ReplicaPool
  loadBalancing : LoadBalancing
  rrIndex : UInt64
  fallbackToPrimary : Bool
  deriving DecidableEq, Repr

structure RoutedPoolBuilder where
  replicas : Nat
  loadBalancing : LoadBalancing
  fallbackToPrimary : Bool

def RoutedPoolBuilder.build (b : RoutedPoolBuilder) : RoutedPool :=
  ⟨List.replicate b.replicas .new, b.loadBalancing, 0, b.fallbackToPrimary⟩

inductive ReadRoute
  | replica (index : Nat)
  | primary
  | noHealthyReplica
  deriving DecidableEq, Repr

namespace RoutedPool

variable (s : RoutedPool)

def isHealthy (i : Nat) : Bool := s.replicas[i]?.elim false ReplicaPool.healthy

def activeConnections (i : Nat) : UInt64 := s.replicas[i]?.elim 0 ReplicaPool.activeConns

def setHealthy (i : Nat) (healthy : Bool) : RoutedPool :=
  { s with replicas := s.replicas.modify i fun r => { r with healthy } }

-- The token of a read that runs, and its drop.
def start (i : Nat) : RoutedPool :=
  { s with replicas := s.replicas.modify i fun r => { r with activeConns := r.activeConns + 1 } }

def drop (i : Nat) : RoutedPool :=
  { s with replicas := s.replicas.modify i fun r => { r with activeConns := r.activeConns - 1 } }

def nextIndex : RoutedPool := { s with rrIndex := s.rrIndex + 1 }

-- The draw is what the keyed hash of the index comes out as.
def pickHealthy (draw : UInt64) : Option Nat × RoutedPool :=
  let healthy := (List.range s.replicas.length).filter s.isHealthy
  let count := healthy.length
  if count = 0 then (none, s)
  else
    match s.loadBalancing with
    | .roundRobin => (healthy[s.rrIndex.toNat % count]?, s.nextIndex)
    | .leastConnections =>
        (Extremes.minByKey (fun i => (s.activeConnections i).toNat) healthy, s)
    | .random => (healthy[draw.toNat % count]?, s.nextIndex)

def route : Option Nat → ReadRoute
  | some i => .replica i
  | none =>
      if s.fallbackToPrimary ∨ s.replicas = [] then .primary else .noHealthyReplica

def routeRead (draw : UInt64) : ReadRoute × RoutedPool :=
  let (picked, s') := s.pickHealthy draw
  (s.route picked, s')

end RoutedPool

-- What is asked of a router, and how far it has come. A read that is on its way looks
-- at one shared cell at a time: the flags of the replicas in their order, the index or
-- the counters, and the counter that it adds itself to.
inductive Request
  | fetchAll (sql : List Char)
  | stream (sql : List Char)
  | execute
  | begin
  | selectReplica
  deriving DecidableEq, Repr

inductive Stage
  | idle
  | filtering (r : Request) (index : Nat) (healthy : List Nat)
  | comparing (r : Request) (loaded : List (Nat × UInt64)) (rest : List Nat)
  | picked (r : Request) (replica : Nat)
  | reading (r : Request) (replica : Nat)
  | onPrimary (r : Request)
  | refused (r : Request)
  -- The pool that is handed out, or none for the primary's.
  | selected (replica : Option Nat)
  | checking (index : Nat)
  deriving DecidableEq, Repr

-- A read ends when its result is returned, with rows or with an error, or when it is
-- cancelled; a stream when it is dropped.
inductive Act
  | submit (r : Request)
  | load (draw : UInt64)
  | finish
  | setHealthy (replica : Nat) (healthy : Bool)
  | checkHealth
  | ping (ok : Bool)
  deriving DecidableEq, Repr

def Request.enter : Request → Stage
  | .fetchAll sql =>
      if isReplicaSafe sql then .filtering (.fetchAll sql) 0 [] else .onPrimary (.fetchAll sql)
  | .stream sql =>
      if isReplicaSafe sql then .filtering (.stream sql) 0 [] else .onPrimary (.stream sql)
  | .execute => .onPrimary .execute
  | .begin => .onPrimary .begin
  | .selectReplica => .filtering .selectReplica 0 []

def Request.follow (replicas : List ReplicaPool) : Request → ReadRoute → Stage
  | .selectReplica, .replica i => .selected (some i)
  | .selectReplica, .primary => .selected none
  | .selectReplica, .noHealthyReplica => .selected (if replicas = [] then none else some 0)
  | r, .replica i => .picked r i
  | r, .primary => .onPrimary r
  | r, .noHealthyReplica => .refused r

namespace RoutedPool

variable (s : RoutedPool)

def choose (r : Request) (healthy : List Nat) (draw : UInt64) : RoutedPool × Stage :=
  let count := healthy.length
  if count = 0 then (s, r.follow s.replicas (s.route none))
  else
    match s.loadBalancing with
    | .roundRobin =>
        (s.nextIndex, r.follow s.replicas (s.route healthy[s.rrIndex.toNat % count]?))
    | .leastConnections => (s, .comparing r [] healthy)
    | .random => (s.nextIndex, r.follow s.replicas (s.route healthy[draw.toNat % count]?))

end RoutedPool

def step {P : Type} (_p : P) (a : Act) (s : RoutedPool) (t : Stage) :
    Option (RoutedPool × Stage) :=
  match a, t with
  | .submit r, .idle => some (s, r.enter)
  | .load draw, .filtering r i healthy =>
      match s.replicas[i]? with
      | some replica =>
          some (s, .filtering r (i + 1) (if replica.healthy then healthy ++ [i] else healthy))
      | none => some (s.choose r healthy draw)
  | .load _, .comparing r loaded (i :: rest) =>
      some (s, .comparing r (loaded ++ [(i, s.activeConnections i)]) rest)
  | .load _, .comparing r loaded [] =>
      let best := Extremes.minByKey (fun e : Nat × UInt64 => e.2.toNat) loaded
      some (s, r.follow s.replicas (s.route (best.map Prod.fst)))
  | .load _, .picked r i => some (s.start i, .reading r i)
  | .finish, .reading _ i => some (s.drop i, .idle)
  | .finish, .onPrimary _ => some (s, .idle)
  | .finish, .refused _ => some (s, .idle)
  | .finish, .selected _ => some (s, .idle)
  | .finish, .checking _ => some (s, .idle)
  | .setHealthy i healthy, .idle => some (s.setHealthy i healthy, .idle)
  | .checkHealth, .idle => some (s, .checking 0)
  | .ping ok, .checking i =>
      if i < s.replicas.length then some (s.setHealthy i ok, .checking (i + 1)) else none
  | _, _ => none

end Ruprizzle.Runtime.Routing
