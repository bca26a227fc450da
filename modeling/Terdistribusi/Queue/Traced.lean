import Terdistribusi.Queue.Node
import Terdistribusi.Infra.Run

/-!
# A queue node with its history

A `QueueNode` without peers, on which new messages are stored, dequeued and acked and whose inflight
table is looked through for expired messages, together with what its callers have seen. The readings
of the clock do not decrease.
-/

namespace Queue

open Infra

variable {NodeId Value : Type}

/-- The deque of a name. -/
def QueueNode.deque (queue : String) (s : QueueNode NodeId Value) :
    List (QueueMessage NodeId Value) :=
  (s.queues.get? queue).getD []

structure TracedNode (NodeId Value : Type) where
  node : QueueNode NodeId Value := {}
  /-- The latest time. -/
  clock : Time := 0
  /-- The messages that were stored. -/
  stores : List (QueueMessage NodeId Value) := []
  /-- What `dequeue` has returned, with the name of the queue. -/
  deliveries : List (String × QueueMessage NodeId Value) := []
  /-- The ids for which `ack` has returned `True`. -/
  acked : List String := []

namespace TracedNode

/-- What can happen at the node; `store` has the time at which it happens. -/
inductive Event (NodeId Value : Type)
  | store (now : Time) (msg : QueueMessage NodeId Value)
  | dequeue (queue : String) (now now' : Time)
  | ack (msgId : String)
  | requeueExpiredInflight (now : Time)

/-- The message is new, and visible at once. -/
def Fresh (now : Time) (msg : QueueMessage NodeId Value) (s : TracedNode NodeId Value) : Prop :=
  msg.msgId ∉ s.stores.map QueueMessage.msgId ∧ msg.deliveryCount = 0 ∧
    msg.visibilityTimeoutUntil ≤ now

instance (now : Time) (msg : QueueMessage NodeId Value) (s : TracedNode NodeId Value) :
    Decidable (s.Fresh now msg) :=
  inferInstanceAs (Decidable (_ ∧ _))

variable [DecidableEq NodeId]

def step (cfg : Config NodeId) (s : TracedNode NodeId Value) :
    Event NodeId Value → Option (TracedNode NodeId Value)
  | .store now msg =>
    if s.clock ≤ now ∧ s.Fresh now msg then
      some { s with node := s.node.storeLocal msg, clock := now, stores := s.stores ++ [msg] }
    else none
  | .dequeue queue now now' =>
    if s.clock ≤ now ∧ now ≤ now' then
      let r := s.node.dequeue cfg queue now now'
      some { s with
        node := r.2.1
        clock := now'
        deliveries := s.deliveries ++ r.1.toList.map fun msg => (queue, msg) }
    else none
  | .ack msgId =>
    let r := s.node.ack cfg msgId
    some { s with node := r.2.1, acked := if r.1 then s.acked ++ [msgId] else s.acked }
  | .requeueExpiredInflight now =>
    if s.clock ≤ now then some { s with node := s.node.requeueExpiredInflight now, clock := now }
    else none

/-! ## What the history says -/

/-- The ids that `dequeue` has returned. -/
def deliveredIds (s : TracedNode NodeId Value) : List String :=
  s.deliveries.map fun d => d.2.msgId

/-- The ids that `dequeue` has returned for a queue, in the order of their first deliveries. -/
def firstDeliveries (queue : String) (s : TracedNode NodeId Value) : List String :=
  ((s.deliveries.filter fun d => d.1 = queue).map fun d => d.2.msgId).eraseDups

/-- The ids that were stored to a queue, in order. -/
def storedIds (queue : String) (s : TracedNode NodeId Value) : List String :=
  (s.stores.filter fun msg => msg.queue = queue).map QueueMessage.msgId

/-- How often an id is in the deque, in the inflight table and among the acked ids. -/
def places (queue msgId : String) (s : TracedNode NodeId Value) : ℕ :=
  ((s.node.deque queue).map QueueMessage.msgId).count msgId +
    (s.node.inflight.get? msgId).isSome.toNat + s.acked.count msgId

end TracedNode

/-- A run of a fresh node. -/
abbrev TracedRun [DecidableEq NodeId] (cfg : Config NodeId) (Value : Type) :=
  Run (TracedNode.step cfg) ({} : TracedNode NodeId Value)

end Queue
