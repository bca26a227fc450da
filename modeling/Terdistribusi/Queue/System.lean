import Terdistribusi.Queue.Cluster
import Terdistribusi.Communication.BusSystem

/-!
# Queue nodes on a message bus

The nodes and the `MessageBus` between them, where a node may be partitioned, not registered, or
behind a full inbox. `enqueue` sends its messages one after the other and does not look at the
results; while it sleeps at its end, anything can happen: the dispatch loops handle what waits in
the inboxes, other callers and timers call the nodes, and the partition changes.
-/

namespace Queue

open Infra Communication

variable {NodeId Value : Type}

/-- Queue nodes and their bus. -/
abbrev System (NodeId Value : Type) :=
  BusSystem NodeId (QueueNode NodeId Value) (Payload NodeId Value)

namespace System

abbrev Event (NodeId Value : Type) :=
  BusSystem.Event NodeId (Call NodeId Value) Time (Payload NodeId Value)

/-- The id that an `enqueue` draws. -/
def drawn : Event NodeId Value → Option String
  | .call _ (.enqueue msgId _ _ _) => some msgId
  | _ => none

variable [DecidableEq NodeId]

/-- A call, a round of a dispatch loop, or a change of the bus. No node is faulty. -/
abbrev step (ms : Members NodeId) (s : System NodeId Value) (e : Event NodeId Value) :
    Option (System NodeId Value) :=
  BusSystem.step ms.act ∅ s e

/-- `enqueue` at node `a` up to its `sleep`, with the id it will return. -/
def enqueue (ms : Members NodeId) (a : NodeId) (msgId queue : String) (payload : Value)
    (partitionKey : Option String) (s : System NodeId Value) : String × System NodeId Value :=
  let r := QueueNode.enqueue (ms.config a) msgId queue payload partitionKey (s.nodes a)
  (r.1, { nodes := Function.update s.nodes a r.2.1, bus := s.bus.sendAll r.2.2 })

/-- It is one event of the system. -/
theorem step_enqueue (ms : Members NodeId) (a : NodeId) (msgId queue : String) (payload : Value)
    (partitionKey : Option String) (s : System NodeId Value) :
    step ms s (.call a (.enqueue msgId queue payload partitionKey)) =
      some (enqueue ms a msgId queue payload partitionKey s).2 :=
  rfl

/-- The node that acts in an event, what it takes, and the bus without what it takes. -/
def input? (s : System NodeId Value) : Event NodeId Value →
    Option (NodeId × Input NodeId (Call NodeId Value) Time (Payload NodeId Value) ×
      MessageBus NodeId (Payload NodeId Value))
  | .call a c => some (a, .call c, s.bus)
  | .dispatch a now => (s.bus.receive a).map fun r => (a, .receive now r.1, r.2)
  | _ => none

end System

end Queue
