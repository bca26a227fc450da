import Terdistribusi.Raft.Properties.History

/-!
# Election safety and log matching

The two guarantees that hold in every run, whatever is lost, delayed or delivered twice:

* `election_safety` — a term has at most one leader, over the whole run
* `log_matching` — equal terms at one position mean equal logs up to there

Both are read off the history of the run. `replication` is a short run in which a leader is elected
and commits an entry.
-/

namespace Raft

open Infra RaftNode

/-! ## A run with one leader -/

/-- Node 0 of three is elected by node 1, appends a command, copies it to node 1 and commits it; a
heartbeat tells node 1. -/
def replicationEvents : List (Event (Fin 3) ℕ) :=
  [.tick 0 true, .deliver 0, .deliver 1, .submit 0 7, .deliver 3, .deliver 4, .tick 0 false,
    .deliver 4]

def replication : ClusterRun (inProcessCluster 3 fun _ _ (c : ℕ) => some c) :=
  Run.ofEvents _ _ replicationEvents (.tick 0 false) (by decide +kernel)

section

variable {NodeId Command Result : Type} [DecidableEq NodeId] [Fintype NodeId]
  {ms : Members NodeId Command Result}

/-! ## Election safety -/

/-- **Election safety**: two nodes that lead the same term, at any two times of a run, are the same
node. -/
theorem election_safety (r : ClusterRun ms) {i j : ℕ} (hi : i ≤ r.length) (hj : j ≤ r.length)
    {a b : NodeId} (ha : (nodeAt r i a).state = .leader) (hb : (nodeAt r j b).state = .leader)
    (ht : (nodeAt r i a).currentTerm = (nodeAt r j b).currentTerm) : a = b :=
  (history r).leader_unique hi hj ha hb ht

end

theorem election_safety_replication : (nodeAt replication 3 0).state = .leader ∧
    (nodeAt replication 6 0).state = .leader ∧ (0 : Fin 3) = 0 :=
  ⟨by decide +kernel, by decide +kernel, election_safety replication (i := 3) (j := 6) (by decide)
    (by decide) (by decide +kernel) (by decide +kernel) (by decide +kernel)⟩

/-! ## Log matching -/

section

variable {NodeId Command Result : Type} [DecidableEq NodeId] [Fintype NodeId]
  {ms : Members NodeId Command Result}

/-- **Log matching**: the entry at position `k` has index `k`, and two logs with entries of one term
at position `k` agree up to there. -/
theorem log_matching (r : ClusterRun ms) {i : ℕ} (hi : i ≤ r.length) :
    (∀ (a : NodeId) (k : ℕ) (e : LogEntry Command), (nodeAt r i a).log[k]? = some e → e.index = k) ∧
      ∀ (a b : NodeId) (k : ℕ) (e f : LogEntry Command), (nodeAt r i a).log[k]? = some e →
        (nodeAt r i b).log[k]? = some f → e.term = f.term →
        ∀ p ≤ k, (nodeAt r i a).log[p]? = (nodeAt r i b).log[p]? := by
  refine ⟨fun a k e he => ?_, fun a b k e f he hf hef p hp => ?_⟩
  · have hindex : e.index = 0 + k := (((wellFormed r i hi).nodes a).log k e he).1
    rw [hindex, Nat.zero_add]
  · have hmatch : Matching LogEntry.term (nodeAt r i a).log (nodeAt r i b).log :=
      ((history r).matched hi a).matching hi hi ((history r).matched hi b)
    have htake := hmatch k e f he hf hef
    rw [← List.getElem?_take_of_lt (Nat.lt_succ_of_le hp), htake,
      List.getElem?_take_of_lt (Nat.lt_succ_of_le hp)]

end

theorem log_matching_replication :
    (nodeAt replication 6 0).log[0]? = (nodeAt replication 6 1).log[0]? :=
  (log_matching replication (i := 6) (by decide)).2 0 1 0 ⟨1, 0, 7⟩ ⟨1, 0, 7⟩ (by decide +kernel)
    (by decide +kernel) rfl 0 (Nat.le_refl 0)

end Raft
