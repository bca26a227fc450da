import Terdistribusi.Infra.Keyed
import Terdistribusi.Infra.Network
import Mathlib.Algebra.Order.Field.Rat

/-!
# One queue node

The state and the operations of `QueueNode` and its `PersistentLog` (`src/nodes/queue_node.py`). An
operation takes the node as it is and returns the node as it becomes, together with the messages it
sends and what it returns to its caller.

The ring is an argument, as the function `get_n_nodes`. So are the readings of `time.time()` and the
`uuid` of a new message.
-/

namespace Queue

open Infra

/-- What `time.time()` returns. -/
abbrev Time := ℚ

structure QueueMessage (NodeId Value : Type) where
  msgId : String
  queue : String
  partitionKey : String
  payload : Value
  deliveryCount : ℕ := 0
  visibilityTimeoutUntil : Time := 0
  primaryNode : Option NodeId := none
  replicas : List NodeId := []
  deriving DecidableEq

/-- The records of a `PersistentLog`, one constructor for each `op`. -/
inductive Record (NodeId Value : Type)
  | enqueue (message : QueueMessage NodeId Value)
  | ack (msgId : String)
  | replicate (message : QueueMessage NodeId Value)
  deriving DecidableEq

/-- The payloads, one constructor for each `MessageType` of the queue. A reply to a dequeue request
has the type of a forwarded message, and the flag `delivered`. -/
inductive Payload (NodeId Value : Type)
  | queueEnqueue (message : QueueMessage NodeId Value) (delivered : Bool)
  | queueReplicate (message : QueueMessage NodeId Value)
  | queueDequeue (queue : String)
  | queueAck (msgId : String)
  deriving DecidableEq

/-- What `QueueNode.__init__` is called with, and `get_n_nodes` of the ring it makes. -/
structure Config (NodeId : Type) where
  nodeId : NodeId
  peers : List NodeId
  getNNodes : String → ℕ → List NodeId
  replicationFactor : ℕ
  visibilityTimeout : Time

/-- Messages under their `msg_id`. -/
abbrev Table (NodeId Value : Type) :=
  Keyed (QueueMessage.msgId : QueueMessage NodeId Value → String)

structure QueueNode (NodeId Value : Type) where
  /-- The deques, by name. -/
  queues : Dict String (List (QueueMessage NodeId Value)) := Dict.empty
  /-- Messages that wait for their ack. -/
  inflight : Table NodeId Value := Keyed.empty
  /-- Copies of messages whose primary is another node. -/
  replicas : Table NodeId Value := Keyed.empty
  log : List (Record NodeId Value) := []

/-- Calls from outside and from timers; the readings of the clock are in the order in which they are
taken. -/
inductive Call (NodeId Value : Type)
  | enqueue (msgId queue : String) (payload : Value) (partitionKey : Option String)
  | dequeue (queue : String) (now now' : Time)
  | ack (msgId : String)
  | requeueExpiredInflight (now : Time)
  | onPeerFailure (peerId : NodeId)
  deriving DecidableEq

namespace QueueMessage

variable {NodeId Value : Type}

/-- The changes of `_pop_local` to a message. -/
def deliver (until_ : Time) (msg : QueueMessage NodeId Value) : QueueMessage NodeId Value :=
  { msg with deliveryCount := msg.deliveryCount + 1, visibilityTimeoutUntil := until_ }

/-- The change of `_requeue_expired_inflight`. -/
def reset (msg : QueueMessage NodeId Value) : QueueMessage NodeId Value :=
  { msg with visibilityTimeoutUntil := 0 }

/-- The change of `_on_peer_failure`. -/
def promote (a : NodeId) (msg : QueueMessage NodeId Value) : QueueMessage NodeId Value :=
  { msg with primaryNode := some a }

end QueueMessage

namespace QueueNode

variable {NodeId Value : Type}

/-! ## Queues, replicas and the log -/

/-- `self.queues.setdefault(msg.queue, deque()).append(msg)` -/
def append (msg : QueueMessage NodeId Value) (s : QueueNode NodeId Value) :
    QueueNode NodeId Value :=
  { s with queues := s.queues.set msg.queue ((s.queues.get? msg.queue).getD [] ++ [msg]) }

def storeLocal (msg : QueueMessage NodeId Value) (s : QueueNode NodeId Value) :
    QueueNode NodeId Value :=
  { s.append msg with log := s.log ++ [.enqueue msg] }

/-- A replica is stored and logged, in `enqueue` and in `_handle_replicate`. -/
def storeReplica (msg : QueueMessage NodeId Value) (s : QueueNode NodeId Value) :
    QueueNode NodeId Value :=
  { s with replicas := s.replicas.put msg, log := s.log ++ [.replicate msg] }

/-- The loop of `_pop_local` with `k` rounds left: the first message that is visible, and the deque
without it. Messages that are not visible go to the back. -/
def popLoop (now : Time) : ℕ → List (QueueMessage NodeId Value) →
    Option (QueueMessage NodeId Value) × List (QueueMessage NodeId Value)
  | 0, q => (none, q)
  | _ + 1, [] => (none, [])
  | k + 1, msg :: q =>
    if now < msg.visibilityTimeoutUntil then popLoop now k (q ++ [msg]) else (some msg, q)

/-- One round of the loop of `_requeue_expired_inflight`. -/
def requeue (now : Time) (s : QueueNode NodeId Value) (msg : QueueMessage NodeId Value) :
    QueueNode NodeId Value :=
  if msg.visibilityTimeoutUntil < now then
    { s with inflight := s.inflight.pop msg.msgId }.append msg.reset
  else s

/-- The loop goes over the items as they are at its start. -/
def requeueExpiredInflight (now : Time) (s : QueueNode NodeId Value) : QueueNode NodeId Value :=
  s.inflight.values.foldl (requeue now) s

/-! ## Replay -/

def applyLogRecord (s : QueueNode NodeId Value) : Record NodeId Value → QueueNode NodeId Value
  | .enqueue message => s.append message
  | .ack msgId => { s with inflight := s.inflight.pop msgId }
  | .replicate message => { s with replicas := s.replicas.put message }

/-- `_on_start` of a fresh node on a log. -/
def onStart (log : List (Record NodeId Value)) : QueueNode NodeId Value :=
  log.foldl applyLogRecord { log := log }

/-! ## Operations -/

variable (cfg : Config NodeId)

def popLocal (queue : String) (now : Time) (s : QueueNode NodeId Value) :
    Option (QueueMessage NodeId Value) × QueueNode NodeId Value :=
  match s.queues.get? queue with
  | none => (none, s)
  | some q =>
    match popLoop now q.length q with
    | (none, q) => (none, { s with queues := s.queues.set queue q })
    | (some msg, q) =>
      let msg := msg.deliver (now + cfg.visibilityTimeout)
      (some msg,
        { s with queues := s.queues.set queue q, inflight := s.inflight.put msg })

/-- `partition_key or msg_id` -/
def keyOr (partitionKey : Option String) (msgId : String) : String :=
  match partitionKey with
  | none => msgId
  | some key => if key = "" then msgId else key

/-- `dequeue`, with what it returns. A message that a peer sends back comes later, as a message. -/
def dequeue (queue : String) (now now' : Time) (s : QueueNode NodeId Value) :
    Option (QueueMessage NodeId Value) × QueueNode NodeId Value ×
      List (Message NodeId (Payload NodeId Value)) :=
  match popLocal cfg queue now' (s.requeueExpiredInflight now) with
  | (some msg, s) => (some msg, s, [])
  | (none, s) => (none, s, Network.broadcast cfg.nodeId cfg.peers (.queueDequeue queue))

variable [DecidableEq NodeId]

/-- The message that `enqueue` makes, when the ring has a node for it. -/
def newMessage (msgId queue : String) (payload : Value) (partitionKey : Option String) :
    Option (QueueMessage NodeId Value) :=
  match cfg.getNNodes (keyOr partitionKey msgId) cfg.replicationFactor with
  | [] => none
  | primary :: replicas =>
    some { msgId := msgId, queue := queue, partitionKey := keyOr partitionKey msgId,
           payload := payload, primaryNode := some primary, replicas := replicas }

/-- The message goes to its primary. -/
def place (msg : QueueMessage NodeId Value) (s : QueueNode NodeId Value) :
    QueueNode NodeId Value × List (Message NodeId (Payload NodeId Value)) :=
  if msg.primaryNode = some cfg.nodeId then (s.storeLocal msg, [])
  else (s, Network.broadcast cfg.nodeId msg.primaryNode.toList (.queueEnqueue msg false))

/-- The loop of `enqueue` over `replicas`. -/
def placeReplicas (msg : QueueMessage NodeId Value) (s : QueueNode NodeId Value) :
    QueueNode NodeId Value × List (Message NodeId (Payload NodeId Value)) :=
  ((msg.replicas.filter fun b => b = cfg.nodeId).foldl (fun s _ => s.storeReplica msg) s,
    Network.broadcast cfg.nodeId (msg.replicas.filter fun b => b ≠ cfg.nodeId)
      (.queueReplicate msg))

/-- `enqueue`, with the id it returns. -/
def enqueue (msgId queue : String) (payload : Value) (partitionKey : Option String)
    (s : QueueNode NodeId Value) :
    String × QueueNode NodeId Value × List (Message NodeId (Payload NodeId Value)) :=
  match newMessage cfg msgId queue payload partitionKey with
  | none => ("", s, [])
  | some msg =>
    let placed := place cfg msg s
    let replicated := placeReplicas cfg msg placed.1
    (msgId, replicated.1, placed.2 ++ replicated.2)

/-- `ack`, with what it returns. -/
def ack (msgId : String) (s : QueueNode NodeId Value) :
    Bool × QueueNode NodeId Value × List (Message NodeId (Payload NodeId Value)) :=
  match s.inflight.get? msgId with
  | none => (false, s, [])
  | some msg =>
    (true,
      { s with
        inflight := s.inflight.pop msgId
        log := s.log ++ [.ack msgId]
        replicas := if cfg.nodeId ∈ msg.replicas then s.replicas.pop msgId else s.replicas },
      Network.broadcast cfg.nodeId (msg.replicas.filter fun b => b ≠ cfg.nodeId)
        (.queueAck msgId))

/-- One round of the loop of `_on_peer_failure`. -/
def promote (peerId : NodeId) (s : QueueNode NodeId Value) (msg : QueueMessage NodeId Value) :
    QueueNode NodeId Value :=
  if msg.primaryNode = some peerId then
    { s.append (msg.promote cfg.nodeId) with replicas := s.replicas.pop msg.msgId }
  else s

def onPeerFailure (peerId : NodeId) (s : QueueNode NodeId Value) : QueueNode NodeId Value :=
  s.replicas.values.foldl (promote cfg peerId) s

/-! ## The handlers -/

def handleEnqueue (message : QueueMessage NodeId Value) (s : QueueNode NodeId Value) :
    QueueNode NodeId Value :=
  s.storeLocal message

def handleReplicate (message : QueueMessage NodeId Value) (s : QueueNode NodeId Value) :
    QueueNode NodeId Value :=
  s.storeReplica message

def handleDequeue (senderId : NodeId) (queue : String) (now : Time) (s : QueueNode NodeId Value) :
    QueueNode NodeId Value × List (Message NodeId (Payload NodeId Value)) :=
  match popLocal cfg queue now s with
  | (some msg, s) => (s, Network.broadcast cfg.nodeId [senderId] (.queueEnqueue msg true))
  | (none, s) => (s, [])

def handleAck (msgId : String) (s : QueueNode NodeId Value) : QueueNode NodeId Value :=
  { s with replicas := s.replicas.pop msgId, log := s.log ++ [.ack msgId] }

/-- A node takes a call or a message. -/
def act (inp : Input NodeId (Call NodeId Value) Time (Payload NodeId Value))
    (s : QueueNode NodeId Value) :
    QueueNode NodeId Value × List (Message NodeId (Payload NodeId Value)) :=
  match inp with
  | .call (.enqueue msgId queue payload partitionKey) =>
    (enqueue cfg msgId queue payload partitionKey s).2
  | .call (.dequeue queue now now') => (dequeue cfg queue now now' s).2
  | .call (.ack msgId) => (ack cfg msgId s).2
  | .call (.requeueExpiredInflight now) => (s.requeueExpiredInflight now, [])
  | .call (.onPeerFailure peerId) => (onPeerFailure cfg peerId s, [])
  | .receive now m =>
    match m.payload with
    | .queueEnqueue message _ => (s.handleEnqueue message, [])
    | .queueReplicate message => (s.handleReplicate message, [])
    | .queueDequeue queue => handleDequeue cfg m.senderId queue now s
    | .queueAck msgId => (s.handleAck msgId, [])

end QueueNode

end Queue
