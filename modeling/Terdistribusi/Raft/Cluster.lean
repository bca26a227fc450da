import Terdistribusi.Raft.Node
import Terdistribusi.Infra.Run
import Mathlib.Data.Fintype.Card

/-!
# A cluster of Raft nodes

All nodes and the messages in flight. Each handler, tick and `submit` is one atomic step of one
node: `MessageBus.send` with delay `0` never suspends. A message in flight can be delivered in any
order, lost (a partition or a full inbox drops it) and delivered more than once.
-/

namespace Raft

open Infra

variable {NodeId Command Result : Type}

/-- The members of a cluster: each node's peers are exactly the other nodes, each once. -/
structure Members (NodeId Command Result : Type) where
  peers : NodeId → List NodeId
  applyCallback : NodeId → List Command → Command → Option Result
  nodup_peers : ∀ a, (peers a).Nodup
  mem_peers : ∀ a b, b ∈ peers a ↔ b ≠ a

/-- The arguments with which node `a` is made. -/
def Members.config (ms : Members NodeId Command Result) (a : NodeId) :
    Config NodeId Command Result :=
  { nodeId := a, peers := ms.peers a, applyCallback := ms.applyCallback a }

/-- `InProcessCluster` (`src/cluster.py`): `n` nodes, every node a peer of every other. -/
def inProcessCluster (n : ℕ) (applyCallback : Fin n → List Command → Command → Option Result) :
    Members (Fin n) Command Result where
  peers := fun a => (List.finRange n).filter fun b => b ≠ a
  applyCallback := applyCallback
  nodup_peers := fun _ => (List.nodup_finRange n).filter _
  mem_peers := fun a b => by simp

structure Cluster (NodeId Command Result : Type) where
  nodes : NodeId → RaftNode NodeId Command Result
  net : List (Message NodeId Command)

namespace Cluster

/-- Fresh nodes and no message. -/
def initial : Cluster NodeId Command Result := { nodes := fun _ => {}, net := [] }

variable [DecidableEq NodeId]

/-- Node `a` takes the input `inp`; what it sends goes into flight. -/
def act (ms : Members NodeId Command Result) (a : NodeId) (inp : Input NodeId Command)
    (s : Cluster NodeId Command Result) : Cluster NodeId Command Result :=
  let r := (s.nodes a).act (ms.config a) inp
  { nodes := Function.update s.nodes a r.1, net := s.net ++ r.2 }

end Cluster

/-- The events of a cluster. Messages in flight are named by their place in `net`. -/
inductive Event (NodeId Command : Type)
  | tick (a : NodeId) (expired : Bool)
  | submit (a : NodeId) (command : Command)
  | submitTimeout (a : NodeId) (call : ℕ)
  | deliver (i : ℕ)
  | drop (i : ℕ)
  | duplicate (i : ℕ)
  deriving DecidableEq, Repr

variable [DecidableEq NodeId]

/-- One step of the cluster. -/
def step (ms : Members NodeId Command Result) (s : Cluster NodeId Command Result) :
    Event NodeId Command → Option (Cluster NodeId Command Result)
  | .tick a expired => some (s.act ms a (.tick expired))
  | .submit a command => some (s.act ms a (.submit command))
  | .submitTimeout a call => some (s.act ms a (.submitTimeout call))
  | .deliver i =>
    match s.net[i]? with
    | none => none
    | some m => some (Cluster.act ms m.receiverId (.receive m) { s with net := s.net.eraseIdx i })
  | .drop i =>
    match s.net[i]? with
    | none => none
    | some _ => some { s with net := s.net.eraseIdx i }
  | .duplicate i =>
    match s.net[i]? with
    | none => none
    | some m => some { s with net := s.net ++ [m] }

/-- A run of the cluster from its fresh nodes. -/
abbrev ClusterRun (ms : Members NodeId Command Result) :=
  Run (step ms) (Cluster.initial : Cluster NodeId Command Result)

/-! ## What one step does -/

/-- The event `e` hands the message `m` to node `a`. -/
def Delivered (s : Cluster NodeId Command Result) (e : Event NodeId Command) (a : NodeId)
    (m : Message NodeId Command) : Prop :=
  m.receiverId = a ∧ ∃ i, e = .deliver i ∧ s.net[i]? = some m

omit [DecidableEq NodeId] in
theorem Delivered.mem_net {s : Cluster NodeId Command Result} {e : Event NodeId Command}
    {a : NodeId} {m : Message NodeId Command} (h : Delivered s e a m) : m ∈ s.net := by
  obtain ⟨-, i, -, hi⟩ := h
  exact List.mem_of_getElem? hi

/-- A check of a node and a message, made where an event delivers a message. -/
def atDelivery (p : RaftNode NodeId Command Result → Message NodeId Command → Bool)
    (s : Cluster NodeId Command Result) : Event NodeId Command → Bool
  | .deliver i =>
    match s.net[i]? with
    | none => false
    | some m => p (s.nodes m.receiverId) m
  | _ => false

omit [DecidableEq NodeId] in
theorem Delivered.eq_false {p : RaftNode NodeId Command Result → Message NodeId Command → Bool}
    {s : Cluster NodeId Command Result} {e : Event NodeId Command} {a : NodeId}
    {m : Message NodeId Command} (h : Delivered s e a m) (hp : atDelivery p s e = false) :
    p (s.nodes a) m = false := by
  obtain ⟨rfl, i, rfl, hi⟩ := h
  simpa only [atDelivery, hi] using hp

/-- A step lets at most one node act, on an input of its own or on a message that is delivered to
it; every message in flight afterwards was in flight before or was sent by that node. -/
theorem step_cases {ms : Members NodeId Command Result} {s s' : Cluster NodeId Command Result}
    {e : Event NodeId Command} (h : step ms s e = some s') :
    (s'.nodes = s.nodes ∧ ∀ m ∈ s'.net, m ∈ s.net) ∨
      ∃ a inp, s'.nodes = Function.update s.nodes a ((s.nodes a).act (ms.config a) inp).1 ∧
        (∀ m ∈ s'.net, m ∈ s.net ∨ m ∈ ((s.nodes a).act (ms.config a) inp).2) ∧
        (∀ m, inp = .receive m → Delivered s e a m) := by
  cases e with
  | tick a expired =>
    cases h
    exact Or.inr ⟨a, .tick expired, rfl, fun m hm => List.mem_append.mp hm, by simp⟩
  | submit a command =>
    cases h
    exact Or.inr ⟨a, .submit command, rfl, fun m hm => List.mem_append.mp hm, by simp⟩
  | submitTimeout a call =>
    cases h
    exact Or.inr ⟨a, .submitTimeout call, rfl, fun m hm => List.mem_append.mp hm, by simp⟩
  | deliver i =>
    simp only [step] at h
    cases hm : s.net[i]? with
    | none => rw [hm] at h; cases h
    | some m =>
      rw [hm] at h
      cases h
      refine Or.inr ⟨m.receiverId, .receive m, rfl, fun x hx => ?_, fun x hx => ?_⟩
      · exact (List.mem_append.mp hx).imp_left List.mem_of_mem_eraseIdx
      · cases hx
        exact ⟨rfl, i, rfl, hm⟩
  | drop i =>
    simp only [step] at h
    cases hm : s.net[i]? with
    | none => rw [hm] at h; cases h
    | some m =>
      rw [hm] at h
      cases h
      exact Or.inl ⟨rfl, fun x hx => List.mem_of_mem_eraseIdx hx⟩
  | duplicate i =>
    simp only [step] at h
    cases hm : s.net[i]? with
    | none => rw [hm] at h; cases h
    | some m =>
      rw [hm] at h
      cases h
      refine Or.inl ⟨rfl, fun x hx => ?_⟩
      rcases List.mem_append.mp hx with hx | hx
      · exact hx
      · rw [List.mem_singleton.mp hx]
        exact List.mem_of_getElem? hm

end Raft
