import Terdistribusi.Queue.Node
import Terdistribusi.Infra.Run

/-!
# A cluster of queue nodes

`QueueNode`s on a `MessageBus`. Each call, each round of a timer and each handler is one atomic step
of one node: `MessageBus.send` with delay `0` never suspends, and `enqueue` sleeps only when it is
done. Messages can be delivered in any order and lost, and each one is delivered at most once.
-/

namespace Queue

open Infra

variable {NodeId Value : Type}

/-- The nodes of a cluster, by what they are made with. -/
structure Members (NodeId : Type) where
  peers : NodeId → List NodeId
  getNNodes : NodeId → String → ℕ → List NodeId
  replicationFactor : NodeId → ℕ
  visibilityTimeout : NodeId → Time

abbrev Cluster (NodeId Value : Type) :=
  Network NodeId (QueueNode NodeId Value) (Payload NodeId Value)

abbrev Event (NodeId Value : Type) :=
  Network.Event NodeId (Call NodeId Value) Time (Payload NodeId Value)

namespace Members

/-- The arguments with which node `a` is made. -/
def config (ms : Members NodeId) (a : NodeId) : Config NodeId :=
  { nodeId := a, peers := ms.peers a, getNNodes := ms.getNNodes a,
    replicationFactor := ms.replicationFactor a, visibilityTimeout := ms.visibilityTimeout a }

variable [DecidableEq NodeId]

/-- What node `a` does with an input. -/
def act (ms : Members NodeId) (a : NodeId)
    (inp : Input NodeId (Call NodeId Value) Time (Payload NodeId Value))
    (s : QueueNode NodeId Value) :
    QueueNode NodeId Value × List (Message NodeId (Payload NodeId Value)) :=
  QueueNode.act (ms.config a) inp s

/-- The message that an enqueue event makes. -/
def enqueued (ms : Members NodeId) : Event NodeId Value → Option (QueueMessage NodeId Value)
  | .call a (.enqueue msgId queue payload partitionKey) =>
    QueueNode.newMessage (ms.config a) msgId queue payload partitionKey
  | _ => none

end Members

/-- Fresh nodes and empty inboxes. -/
abbrev Cluster.initial : Cluster NodeId Value := Network.initial fun _ => {}

variable [DecidableEq NodeId]

/-- One step of a cluster. No process crashes. -/
abbrev step (ms : Members NodeId) (s : Cluster NodeId Value) (e : Event NodeId Value) :
    Option (Cluster NodeId Value) :=
  Network.step ms.act ∅ s e

/-- A run of the cluster from its fresh nodes. -/
abbrev ClusterRun (ms : Members NodeId) (Value : Type) :=
  Run (step ms) (Cluster.initial : Cluster NodeId Value)

/-! ## Which runs -/

namespace ClusterRun

variable {ms : Members NodeId}

/-- The id that an enqueue event draws. -/
def drawn : Event NodeId Value → Option String
  | .call _ (.enqueue msgId _ _ _) => some msgId
  | _ => none

/-- The ids that have been drawn before time `i`. -/
def drawnIds (run : ClusterRun ms Value) (i : ℕ) : List String :=
  (List.range i).filterMap fun j => drawn (run.event j)

/-- No id is drawn twice. -/
def UniqueIds (run : ClusterRun ms Value) : Prop := (run.drawnIds run.length).Nodup

def isPeerFailure : Event NodeId Value → Bool
  | .call _ (.onPeerFailure _) => true
  | _ => false

/-- No node is told that a peer has failed. -/
def NoPeerFailure (run : ClusterRun ms Value) : Prop :=
  ∀ i < run.length, isPeerFailure (run.event i) = false

def isDrop : Event NodeId Value → Bool
  | .drop _ _ => true
  | _ => false

def NoDrops (run : ClusterRun ms Value) : Prop := ∀ i < run.length, isDrop (run.event i) = false

instance (run : ClusterRun ms Value) : Decidable run.UniqueIds :=
  inferInstanceAs (Decidable (List.Nodup _))

instance (run : ClusterRun ms Value) : Decidable run.NoPeerFailure :=
  inferInstanceAs (Decidable (∀ i < run.length, _))

instance (run : ClusterRun ms Value) : Decidable run.NoDrops :=
  inferInstanceAs (Decidable (∀ i < run.length, _))

/-- `ack(x)` returns `True` in step `j`. -/
def AckedAt (run : ClusterRun ms Value) (j : ℕ) (x : String) : Prop :=
  ∃ a, run.event j = .call a (.ack x) ∧
    (QueueNode.ack (ms.config a) x ((run.state j).nodes a)).1 = true

/-- `ack(x)` has returned `True` before time `i`. -/
def AckedBefore (run : ClusterRun ms Value) (i : ℕ) (x : String) : Prop :=
  ∃ j < i, run.AckedAt j x

end ClusterRun

/-! ## A cluster of two -/

/-- Two nodes. Node 1 is the primary of every message, and node 0 has the replica. -/
def pair : Members (Fin 2) where
  peers := fun a => [a + 1]
  getNNodes := fun _ _ n => [1, 0].take n
  replicationFactor := fun _ => 2
  visibilityTimeout := fun _ => 30

/-- The message that the example runs enqueue. -/
def order : QueueMessage (Fin 2) ℕ :=
  { msgId := "m", queue := "orders", partitionKey := "m", payload := 1, primaryNode := some 1,
    replicas := [0] }

/-- Node 0 enqueues a message, whose primary stores it. Then node 0 asks for a message, and the
primary replies. -/
def askedFor : List (Event (Fin 2) ℕ) :=
  [.call 0 (.enqueue "m" "orders" 1 none), .deliver 1 0 0, .call 0 (.dequeue "orders" 0 0),
    .deliver 1 0 0]

end Queue
