import Terdistribusi.Pbft.Node
import Mathlib.Data.Fintype.Card

/-!
# A cluster of PBFT nodes

`PBFTNode`s on a `MessageBus`. Each `submit` and each handler is one atomic step of one node:
`MessageBus.send` with delay `0` never suspends. Messages can be delivered in any order and lost,
and faulty nodes send any messages under their own id.
-/

namespace Pbft

open Infra

variable {NodeId Operation Digest : Type}

/-- The members of a cluster, who share `compute_digest`. -/
structure Members (NodeId Operation Digest : Type) extends
    Network.Mesh NodeId where
  computeDigest : PBFTRequest Operation → Digest

/-- `n` nodes, every node a peer of every other. -/
def fullCluster (n : ℕ) (computeDigest : PBFTRequest Operation → Digest) :
    Members (Fin n) Operation Digest :=
  { Network.Mesh.full n with computeDigest := computeDigest }

abbrev Cluster (NodeId Operation Digest : Type) :=
  Network NodeId (PBFTNode NodeId Operation Digest) (Payload Operation Digest)

abbrev Event (NodeId Operation Digest : Type) :=
  Network.Event NodeId (PBFTRequest Operation) Unit (Payload Operation Digest)

namespace Members

/-- The arguments with which node `a` is made. -/
def config (ms : Members NodeId Operation Digest) (a : NodeId) : Config NodeId Operation Digest :=
  { nodeId := a, peers := ms.peers a, computeDigest := ms.computeDigest }

/-- What node `a` does with an input. -/
def act [LinearOrder NodeId] [DecidableEq Digest] (ms : Members NodeId Operation Digest)
    (a : NodeId) :=
  PBFTNode.act (ms.config a)

/-- The node that node `a` takes for the primary. No handler changes the view. -/
def primary [LinearOrder NodeId] (ms : Members NodeId Operation Digest) (a : NodeId) : NodeId :=
  (ms.config a).primary 0

end Members

/-- Fresh nodes and empty inboxes. -/
abbrev Cluster.initial : Cluster NodeId Operation Digest := Network.initial fun _ => {}

variable [LinearOrder NodeId]

/-- One step of a cluster whose nodes in `faulty` are Byzantine. -/
abbrev step [DecidableEq Digest] (ms : Members NodeId Operation Digest) (faulty : Finset NodeId) :=
  Network.step ms.act faulty

/-- A run of the cluster from its fresh nodes. -/
abbrev ClusterRun [DecidableEq Digest] (ms : Members NodeId Operation Digest)
    (faulty : Finset NodeId) :=
  Run (step ms faulty) (Cluster.initial : Cluster NodeId Operation Digest)

/-! ## The members -/

namespace Members

variable [Fintype NodeId] (ms : Members NodeId Operation Digest)

theorem perm_allNodes (a : NodeId) :
    (ms.config a).allNodes.Perm (Finset.univ : Finset NodeId).toList := by
  refine (List.perm_insertionSort _ _).trans ?_
  rw [List.perm_ext_iff_of_nodup]
  · intro b
    rw [List.mem_cons, Finset.mem_toList]
    show b = a ∨ b ∈ ms.peers a ↔ b ∈ Finset.univ
    rw [ms.mem_peers]
    simp [em]
  · refine List.nodup_cons.mpr ⟨fun h => ?_, ms.nodup_peers a⟩
    exact (ms.mem_peers a a).mp h rfl
  · exact Finset.nodup_toList _

theorem n_config (a : NodeId) : (ms.config a).n = Fintype.card NodeId := by
  rw [Config.n, (ms.perm_allNodes a).length_eq, Finset.length_toList]
  rfl

theorem f_config (a : NodeId) : (ms.config a).f = (Fintype.card NodeId - 1) / 3 := by
  rw [Config.f, ms.n_config a]

/-- All nodes sort to the same list. -/
theorem allNodes_config (a b : NodeId) : (ms.config a).allNodes = (ms.config b).allNodes :=
  List.Perm.eq_of_pairwise' (List.pairwise_insertionSort _ _) (List.pairwise_insertionSort _ _)
    ((ms.perm_allNodes a).trans (ms.perm_allNodes b).symm)

/-- All nodes take the same node for the primary. -/
theorem primary_eq (a b : NodeId) : ms.primary a = ms.primary b := by
  have hall := ms.allNodes_config a b
  unfold primary Config.primary Config.n
  simp only [hall]
  exact List.get_of_eq hall _

end Members

end Pbft
