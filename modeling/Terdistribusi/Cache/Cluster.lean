import Terdistribusi.Cache.Node
import Terdistribusi.Infra.Run

/-!
# A cluster of cache nodes

`CacheNode`s that are each other's peers. Each call up to its first wait, each `get` that goes on
and each handler is one atomic step of one node: `MessageBus.send` with delay `0` never suspends.
-/

namespace Cache

open Infra

variable {NodeId Key Value : Type}

/-- The nodes of a cluster, by what they are made with. -/
structure Members (NodeId : Type) extends Network.Mesh NodeId where
  maxSize : NodeId → ℕ
  lfu : NodeId → Bool

abbrev Cluster (NodeId Key Value : Type) :=
  Network NodeId (CacheNode Key Value) (Payload Key Value)

abbrev Event (NodeId Key Value : Type) :=
  Network.Event NodeId (Call Key Value) Unit (Payload Key Value)

namespace Members

/-- The arguments with which node `a` is made. -/
def config (ms : Members NodeId) (a : NodeId) : Config NodeId :=
  { nodeId := a, peers := ms.peers a, maxSize := ms.maxSize a, lfu := ms.lfu a }

/-- What node `a` does with an input. -/
def act [DecidableEq Key] (ms : Members NodeId) (a : NodeId)
    (inp : Input NodeId (Call Key Value) Unit (Payload Key Value)) (s : CacheNode Key Value) :
    CacheNode Key Value × List (Message NodeId (Payload Key Value)) :=
  CacheNode.act (ms.config a) inp s

/-- Fresh nodes and empty inboxes. -/
def initial (ms : Members NodeId) : Cluster NodeId Key Value :=
  Network.initial fun a => (ms.config a).init

end Members

variable [DecidableEq NodeId] [DecidableEq Key]

/-- One step of a cluster. -/
abbrev step (ms : Members NodeId) (faulty : Finset NodeId) (s : Cluster NodeId Key Value)
    (e : Event NodeId Key Value) : Option (Cluster NodeId Key Value) :=
  Network.step ms.act faulty s e

/-- A run of the cluster from its fresh nodes. -/
abbrev ClusterRun (ms : Members NodeId) (faulty : Finset NodeId) (Key Value : Type)
    [DecidableEq Key] :=
  Run (step ms faulty) (ms.initial : Cluster NodeId Key Value)

/-! ## What happens at a node -/

namespace CacheNode

/-- The keys that `_ensure_capacity` evicts when the node takes an input. -/
def evicted (cfg : Config NodeId)
    (inp : Input NodeId (Call Key Value) Unit (Payload Key Value)) (s : CacheNode Key Value) :
    List Key :=
  match inp with
  | .call (.put key _) =>
    match s.cache.get? key with
    | none => (s.ensureCapacity cfg.maxSize).1
    | some _ => []
  | .call (.resume id) =>
    match s.reads.get? id with
    | some { future := .result _, .. } => (s.ensureCapacity cfg.maxSize).1
    | _ => []
  | _ => []

/-- The node gives up the key: by a `delete`, an eviction or an invalidation. -/
def drops (cfg : Config NodeId) (key : Key)
    (inp : Input NodeId (Call Key Value) Unit (Payload Key Value)) (s : CacheNode Key Value) :
    Bool :=
  match inp with
  | .call (.delete key') => key' = key
  | .call _ => key ∈ s.evicted cfg inp
  | .receive _ m => m.payload.invalidates key

/-- The node puts the key or gives it up. -/
def closes (cfg : Config NodeId) (key : Key)
    (inp : Input NodeId (Call Key Value) Unit (Payload Key Value)) (s : CacheNode Key Value) :
    Bool :=
  match inp with
  | .call (.put key' _) => key' = key || s.drops cfg key inp
  | _ => s.drops cfg key inp

/-- The reply with which a `get` of the key goes on. -/
def installs (key : Key) (inp : Input NodeId (Call Key Value) Unit (Payload Key Value))
    (s : CacheNode Key Value) : Option (Reply Value) :=
  match inp with
  | .call (.resume id) =>
    match s.reads.get? id with
    | some { key := key', future := .result reply } => if key' = key then some reply else none
    | _ => none
  | _ => none

/-- The line of the key that a peer fetches. -/
def answers (key : Key) (inp : Input NodeId (Call Key Value) Unit (Payload Key Value))
    (s : CacheNode Key Value) : Option (CacheLine Value) :=
  match inp with
  | .receive _ m =>
    match m.payload with
    | .cacheFetch key' => if key' = key then s.validLine? key else none
    | _ => none
  | _ => none

end CacheNode

/-! ## A cluster of two -/

def pair : Members (Fin 2) where
  toMesh := .full 2
  maxSize := fun _ => 1000
  lfu := fun _ => false

/-- Node 0 puts a key, and node 1 fetches it up to the reply. -/
def fetched : List (Event (Fin 2) String ℕ) :=
  [.call 0 (.put "k" 1), .deliver 1 0 (), .call 1 (.get "k"), .deliver 0 0 (), .deliver 1 0 ()]

end Cache
