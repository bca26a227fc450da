import Terdistribusi.Communication.BusSystem
import Terdistribusi.Infra.Services
import Terdistribusi.Raft.OnNetwork
import Terdistribusi.Queue.Cluster
import Terdistribusi.Cache.Cluster

/-!
# The cluster in one process

`InProcessCluster` (`src/cluster.py`): each node id has a lock manager, a queue node and a cache
node, and all of them are on `global_bus`. The three register their handlers under the one id and
each starts a loop of `dispatch_messages` on the one inbox. A handler is found by the type of the
message, so it makes no difference which of the loops takes it.
-/

namespace InProcess

open Infra Communication

inductive Service
  | locks
  | queues
  | caches
  deriving DecidableEq

section Types

variable (NodeId Command Result Body Key Value : Type)

def Node : Service → Type
  | .locks => Raft.RaftNode NodeId Command Result
  | .queues => Queue.QueueNode NodeId Body
  | .caches => Cache.CacheNode Key Value

def Call : Service → Type
  | .locks => Raft.Trigger Command
  | .queues => Queue.Call NodeId Body
  | .caches => Cache.Call Key Value

/-- What a handler reads besides the message: the queue's read the clock. -/
def Env : Service → Type
  | .locks => Unit
  | .queues => Queue.Time
  | .caches => Unit

def Payload : Service → Type
  | .locks => Raft.Payload NodeId Command × ℕ
  | .queues => Queue.Payload NodeId Body
  | .caches => Cache.Payload Key Value

end Types

/-- What the nodes are made with. The Raft nodes are those of the lock managers. -/
structure Members (NodeId Command Result : Type) where
  locks : Raft.Members NodeId Command Result
  queues : Queue.Members NodeId
  caches : Cache.Members NodeId

/-- `InProcessCluster.__init__`: `n` nodes, every node a peer of every other, with the defaults of
`QueueNode.__init__` and `CacheNode.__init__`. -/
def inProcessCluster {Command Result : Type} (n : ℕ)
    (applyCallback : Fin n → List Command → Command → Option Result)
    (getNNodes : Fin n → String → ℕ → List (Fin n)) : Members (Fin n) Command Result where
  locks := Raft.inProcessCluster n applyCallback
  queues :=
    { peers := (Network.Mesh.full n).peers
      getNNodes := getNNodes
      replicationFactor := fun _ => 2
      visibilityTimeout := fun _ => 30 }
  caches := { Network.Mesh.full n with maxSize := fun _ => 1000, lfu := fun _ => false }

variable {NodeId Command Result Body Key Value : Type} [DecidableEq NodeId] [DecidableEq Key]

/-- What a node does for each of the services. -/
def Members.acts (ms : Members NodeId Command Result) : ∀ i : Service, NodeId →
    Input NodeId (Call NodeId Command Body Key Value i) (Env i)
      (Payload NodeId Command Body Key Value i) →
    Node NodeId Command Result Body Key Value i →
      Node NodeId Command Result Body Key Value i ×
        List (Message NodeId (Payload NodeId Command Body Key Value i))
  | .locks => ms.locks.actOn
  | .queues => ms.queues.act
  | .caches => ms.caches.act

/-- The nodes of the three services, and `global_bus`. -/
abbrev Cluster (NodeId Command Result Body Key Value : Type) :=
  BusSystem NodeId (∀ i, Node NodeId Command Result Body Key Value i)
    (Σ i, Payload NodeId Command Body Key Value i)

abbrev Event (NodeId Command Body Key Value : Type) :=
  BusSystem.Event NodeId (Σ i, Call NodeId Command Body Key Value i) (∀ i, Env i)
    (Σ i, Payload NodeId Command Body Key Value i)

omit [DecidableEq NodeId] [DecidableEq Key] in
/-- Fresh nodes. -/
def Members.initial (ms : Members NodeId Command Result) :
    Cluster NodeId Command Result Body Key Value :=
  BusSystem.initial fun a i =>
    match i with
    | .locks => ({} : Raft.RaftNode NodeId Command Result)
    | .queues => ({} : Queue.QueueNode NodeId Body)
    | .caches => (ms.caches.config a).init

/-- One step of the cluster. -/
abbrev step (ms : Members NodeId Command Result) :
    Cluster NodeId Command Result Body Key Value → Event NodeId Command Body Key Value →
      Option (Cluster NodeId Command Result Body Key Value) :=
  BusSystem.step (Services.act ms.acts) ∅

/-- A run of the cluster from its fresh nodes. -/
abbrev ClusterRun (ms : Members NodeId Command Result) (Body Key Value : Type) [DecidableEq Key] :=
  Run (step ms) (ms.initial : Cluster NodeId Command Result Body Key Value)

/-- What service `i` has of the cluster: its nodes, and its messages in their inboxes. -/
def view (i : Service) (s : Cluster NodeId Command Result Body Key Value) :
    Network NodeId (Node NodeId Command Result Body Key Value i)
      (Payload NodeId Command Body Key Value i) :=
  Services.view i s.network

end InProcess
