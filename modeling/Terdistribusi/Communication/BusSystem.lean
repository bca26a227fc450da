import Terdistribusi.Communication.MessageBus

/-!
# Nodes on a message bus

Nodes that send each other messages over a `MessageBus`. A turn of `dispatch_messages` takes the
next message of a node and runs the handler for it. Handlers and calls are atomic, and look at no
result of `send`. Nodes are registered, partitioned and healed at any time.

A faulty node hands the bus any messages under its own id.
-/

namespace Communication

open Infra

structure BusSystem (NodeId Node Payload : Type) where
  nodes : NodeId → Node
  bus : MessageBus NodeId Payload

namespace BusSystem

inductive Event (NodeId Call Env Payload : Type)
  | registerNode (nodeId : NodeId)
  | partitionNodes (nodeIds : List NodeId)
  | healPartition
  | call (a : NodeId) (c : Call)
  | dispatch (a : NodeId) (env : Env)
  | forge (m : Message NodeId Payload)

variable {NodeId Node Call Env Payload : Type} [DecidableEq NodeId]

/-- An event up to its `send`s: the nodes after it, the bus before them, and the messages. -/
structure Turn (NodeId Node Payload : Type) where
  nodes : NodeId → Node
  bus : MessageBus NodeId Payload
  sent : List (Message NodeId Payload)

variable
  (act : NodeId → Input NodeId Call Env Payload → Node → Node × List (Message NodeId Payload))
  (faulty : Finset NodeId)

/-- Node `a` takes the input `inp`. -/
def perform (a : NodeId) (inp : Input NodeId Call Env Payload) (s : BusSystem NodeId Node Payload) :
    Turn NodeId Node Payload :=
  let r := act a inp (s.nodes a)
  { nodes := Function.update s.nodes a r.1, bus := s.bus, sent := r.2 }

def turn (s : BusSystem NodeId Node Payload) :
    Event NodeId Call Env Payload → Option (Turn NodeId Node Payload)
  | .registerNode a => some ⟨s.nodes, s.bus.registerNode a, []⟩
  | .partitionNodes nodeIds => some ⟨s.nodes, s.bus.partitionNodes nodeIds, []⟩
  | .healPartition => some ⟨s.nodes, s.bus.healPartition, []⟩
  | .call a c => if a ∈ faulty then none else some (s.perform act a (.call c))
  | .dispatch a env =>
    match s.bus.receive a with
    | none => none
    | some (m, bus) =>
      if a ∈ faulty then some ⟨s.nodes, bus, []⟩
      else some (perform act a (.receive env m) { s with bus := bus })
  | .forge m => if m.senderId ∈ faulty then some ⟨s.nodes, s.bus, [m]⟩ else none

/-- One step: an event, and then its messages are sent one after the other. -/
def step (s : BusSystem NodeId Node Payload) (e : Event NodeId Call Env Payload) :
    Option (BusSystem NodeId Node Payload) :=
  (s.turn act faulty e).map fun t => { nodes := t.nodes, bus := t.bus.sendAll t.sent }

/-- The messages of an event for which `send` returns `True`. -/
def posted (s : BusSystem NodeId Node Payload) (e : Event NodeId Call Env Payload) :
    List (Message NodeId Payload) :=
  match s.turn act faulty e with
  | none => []
  | some t => t.bus.accepted t.sent

omit [DecidableEq NodeId] in
/-- The nodes and their inboxes, without the bus. -/
def network (s : BusSystem NodeId Node Payload) : Network NodeId Node Payload :=
  { nodes := s.nodes, inbox := s.bus.inbox }

/-- Fresh nodes, of which none is registered. -/
def initial (start : NodeId → Node) : BusSystem NodeId Node Payload :=
  { nodes := start, bus := {} }

variable {act faulty} {s s' : BusSystem NodeId Node Payload} {e : Event NodeId Call Env Payload}

theorem turn_call {a : NodeId} {c : Call} {t : Turn NodeId Node Payload}
    (h : s.turn act faulty (.call a c) = some t) : a ∉ faulty ∧ s.perform act a (.call c) = t := by
  obtain ⟨ha, ht⟩ := Option.ite_none_left_eq_some.mp h
  exact ⟨ha, Option.some.inj ht⟩

theorem turn_forge {m : Message NodeId Payload} {t : Turn NodeId Node Payload}
    (h : s.turn act faulty (.forge m) = some t) :
    m.senderId ∈ faulty ∧ { nodes := s.nodes, bus := s.bus, sent := [m] } = t := by
  obtain ⟨hm, ht⟩ := Option.ite_none_right_eq_some.mp h
  exact ⟨hm, Option.some.inj ht⟩

/-- What a turn of `dispatch_messages` does: the next message leaves the inbox, and its receiver
takes it unless it is faulty. -/
theorem turn_dispatch {a : NodeId} {env : Env} {t : Turn NodeId Node Payload}
    (h : s.turn act faulty (.dispatch a env) = some t) :
    ∃ m q, s.bus.inbox a = m :: q ∧ a ∈ s.bus.channels.keys ∧
      t.bus = { s.bus with channels := s.bus.channels.set a q } ∧
      (a ∈ faulty ∧ t.nodes = s.nodes ∧ t.sent = [] ∨
        a ∉ faulty ∧ t.nodes = Function.update s.nodes a (act a (.receive env m) (s.nodes a)).1 ∧
          t.sent = (act a (.receive env m) (s.nodes a)).2) := by
  simp only [turn] at h
  split at h
  · cases h
  · next m bus hreceive =>
    have hkey := MessageBus.mem_keys_of_receive hreceive
    obtain ⟨q, hq, rfl⟩ := MessageBus.receive_eq_some hreceive
    refine ⟨m, q, hq, hkey, ?_⟩
    split at h
    · next ha =>
      cases h
      exact ⟨rfl, Or.inl ⟨ha, rfl, rfl⟩⟩
    · next ha =>
      cases h
      exact ⟨rfl, Or.inr ⟨ha, rfl, rfl⟩⟩

theorem step_eq_some (h : s.step act faulty e = some s') : ∃ t, s.turn act faulty e = some t ∧
    s' = { nodes := t.nodes, bus := t.bus.sendAll t.sent } ∧
    s.posted act faulty e = t.bus.accepted t.sent := by
  obtain ⟨t, ht, rfl⟩ := Option.map_eq_some_iff.mp h
  refine ⟨t, ht, rfl, ?_⟩
  rw [posted, ht]

end BusSystem

end Communication
