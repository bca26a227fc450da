import Terdistribusi.Queue.Node
import Terdistribusi.Infra.Run
import Terdistribusi.Communication.FailureDetector
import Mathlib.Algebra.GroupWithZero.Nat

/-!
# A queue node with its failure detector

A `QueueNode` together with the `FailureDetector` of its `BaseNode`. `_on_start` registers
`_on_peer_failure` before the detector's first round, so that a round which declares a peer dead
schedules it; the event loop runs it as a task of its own, in one atomic step.
-/

namespace Queue

open Infra Communication

variable {NodeId Value : Type}

structure MonitoredNode (NodeId Value : Type) where
  node : QueueNode NodeId Value
  failureDetector : FailureDetector NodeId
  /-- The scheduled calls of `_on_peer_failure`, by their argument. -/
  tasks : List NodeId := []

namespace MonitoredNode

/-- What can happen at the node. The calls of `_on_peer_failure` are the tasks. -/
inductive Event (NodeId Value : Type)
  | heartbeat (peerId : NodeId) (now : Communication.Time)
  | check (now : Communication.Time)
  | runTask (k : ℕ)
  | input (inp : Input NodeId (Call NodeId Value) Time (Payload NodeId Value))

variable [DecidableEq NodeId]

/-- A node that starts on a log. -/
def start (cfg : Config NodeId) (log : List (Record NodeId Value))
    (now : NodeId → Communication.Time) : MonitoredNode NodeId Value :=
  { node := QueueNode.onStart log, failureDetector := FailureDetector.init cfg.peers now }

def step (cfg : Config NodeId) (s : MonitoredNode NodeId Value) :
    Event NodeId Value → Option (MonitoredNode NodeId Value)
  | .heartbeat peerId now =>
    some { s with failureDetector := s.failureDetector.recordHeartbeat peerId now }
  | .check now =>
    let r := s.failureDetector.check now
    some { s with failureDetector := r.1, tasks := s.tasks ++ r.2 }
  | .runTask k =>
    match s.tasks[k]? with
    | none => none
    | some peerId =>
      some { s with node := s.node.onPeerFailure cfg peerId, tasks := s.tasks.eraseIdx k }
  | .input (.call (.onPeerFailure _)) => none
  | .input inp => some { s with node := (s.node.act cfg inp).1 }

/-- A run of a node that starts on a log. -/
abbrev MonitoredRun (cfg : Config NodeId) (log : List (Record NodeId Value))
    (now : NodeId → Communication.Time) :=
  Run (step cfg) (start cfg log now)

theorem step_runTask {cfg : Config NodeId} {s s' : MonitoredNode NodeId Value} {k : ℕ}
    (h : step cfg s (.runTask k) = some s') : ∃ p, s.tasks[k]? = some p ∧
      s' = { s with node := s.node.onPeerFailure cfg p, tasks := s.tasks.eraseIdx k } := by
  simp only [step] at h
  split at h
  · cases h
  · next p hk => exact ⟨p, hk, (Option.some.inj h).symm⟩

theorem step_input {cfg : Config NodeId} {s s' : MonitoredNode NodeId Value}
    {inp : Input NodeId (Call NodeId Value) Time (Payload NodeId Value)}
    (h : step cfg s (.input inp) = some s') : (∀ b, inp ≠ .call (.onPeerFailure b)) ∧
      s' = { s with node := (s.node.act cfg inp).1 } := by
  constructor
  · rintro b rfl
    cases h
  · cases inp with
    | receive now m =>
      cases h
      rfl
    | call c => cases c <;> cases h <;> rfl

end MonitoredNode

end Queue
