import Terdistribusi.Raft.Properties.StateMachine

/-!
# What is committed stays committed

Where neither commit rule goes wrong (`staleAck`, `unverifiedCommit`), the committed part of a
node's log is never lost (`committed_durable`): the node keeps it, every leader of a later term has
it, and the committed parts of two nodes never differ where both have one.
-/

namespace Raft

open Infra RaftNode

variable {NodeId Command Result : Type} [DecidableEq NodeId] [Fintype NodeId]
  {ms : Members NodeId Command Result} {r : ClusterRun ms}

/-- The part of the log up to `commit_index`. -/
def RaftNode.committed (n : RaftNode NodeId Command Result) : List (LogEntry Command) :=
  n.log.take (n.commitIndex + 1).toNat

namespace Settled

variable {U V : ℕ} {c d : List (LogEntry Command)}

/-- A node keeps what is settled in its term. -/
theorem kept {i j : ℕ} {v : NodeId} (h : Settled r (nodeAt r i v).currentTerm c)
    (hc : c <+: (nodeAt r i v).log) (hij : i ≤ j) (hj : j ≤ r.length) :
    Settled r (nodeAt r j v).currentTerm c ∧ c <+: (nodeAt r j v).log := by
  induction j, hij using Nat.le_induction with
  | base => exact ⟨h, hc⟩
  | succ j _ ih =>
    obtain ⟨hset, hlog⟩ := ih (by omega)
    exact ⟨hset.mono (term_step r hj v), hset.keep hj hlog⟩

/-- A leader of a later term has what is settled. -/
theorem leader_complete (h : Settled r U c) {j : ℕ} (hj : j ≤ r.length) {b : NodeId}
    (hl : (nodeAt r j b).state = .leader) (hU : U < (nodeAt r j b).currentTerm) :
    c <+: (nodeAt r j b).log := by
  rcases h with rfl | ⟨T, hT, p, hp, hcp⟩
  · exact List.nil_prefix
  · exact hcp.trans ((history r).leader_complete hp hj hl (hT.trans_lt hU))

/-- Two logs that are settled do not contradict each other. -/
theorem comparable (hc : Settled r U c) (hd : Settled r V d) : c <+: d ∨ d <+: c := by
  rcases hc with rfl | ⟨T, -, p, hp, hcp⟩
  · exact Or.inl List.nil_prefix
  rcases hd with rfl | ⟨T', -, q, hq, hdq⟩
  · exact Or.inr List.nil_prefix
  rcases LogHistory.committed_comparable hp hq with hpq | hqp
  · exact List.prefix_or_prefix_of_prefix (hcp.trans hpq) hdq
  · exact List.prefix_or_prefix_of_prefix hcp (hdq.trans hqp)

end Settled

/-- **What is committed stays committed**: the node keeps it at all later times, every leader of a
later term has it at the front of its log, and of the committed parts of any two nodes at any two
times one is a front part of the other. -/
theorem committed_durable (r : ClusterRun ms)
    (hs : ∀ i < r.length, atDelivery staleAck (r.state i) (r.event i) = false)
    (hu : ∀ i < r.length, atDelivery unverifiedCommit (r.state i) (r.event i) = false)
    {i : ℕ} (hi : i ≤ r.length) (a : NodeId) :
    (∀ j, i ≤ j → j ≤ r.length → (nodeAt r i a).committed <+: (nodeAt r j a).log) ∧
    (∀ j ≤ r.length, ∀ b, (nodeAt r j b).state = .leader →
      (nodeAt r i a).currentTerm < (nodeAt r j b).currentTerm →
        (nodeAt r i a).committed <+: (nodeAt r j b).log) ∧
    ∀ j ≤ r.length, ∀ b, (nodeAt r i a).committed <+: (nodeAt r j b).committed ∨
      (nodeAt r j b).committed <+: (nodeAt r i a).committed := by
  have hset := (commitOk hs hu hi a).settled
  refine ⟨fun j hij hj => ?_, fun j hj b hl hlt => hset.leader_complete hj hl hlt, fun j hj b => ?_⟩
  · exact (hset.kept (List.take_prefix _ _) hij hj).2
  · exact hset.comparable (commitOk hs hu hj b).settled

/-- Node 1 keeps what node 0 has committed. -/
theorem committed_durable_replication :
    (nodeAt replication 6 0).committed = [⟨1, 0, 7⟩] ∧
      ((nodeAt replication 6 0).committed <+: (nodeAt replication 8 1).committed ∨
        (nodeAt replication 8 1).committed <+: (nodeAt replication 6 0).committed) :=
  ⟨by decide +kernel, (committed_durable replication (by decide +kernel) (by decide +kernel)
    (i := 6) (by decide) 0).2.2 8 (by decide) 1⟩

end Raft
