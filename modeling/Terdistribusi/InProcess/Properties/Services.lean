import Terdistribusi.InProcess.Cluster
import Terdistribusi.Communication.Properties.Delivery

/-!
# The services do not disturb each other

What one service does in a run of the whole cluster, it can do in a cluster of its own
(`services_refine`). So whatever holds in every run of the Raft nodes, of the queue nodes or of the
cache nodes holds of them on `global_bus` as well, with its partitions and full inboxes.
-/

namespace InProcess

open Infra Communication

variable {NodeId Command Result Body Key Value : Type} [DecidableEq NodeId] [DecidableEq Key]
  {ms : Members NodeId Command Result}

/-- Each service by itself, on the network below the bus. -/
theorem view_simulates (i : Service) : Simulation
    (step ms :
      Cluster NodeId Command Result Body Key Value → Event NodeId Command Body Key Value → _)
    (Network.step (ms.acts i) ∅) fun s t => t = view i s := by
  have h : Simulation (step ms : Cluster NodeId Command Result Body Key Value →
      Event NodeId Command Body Key Value → _) (Network.step (ms.acts i) ∅) _ :=
    BusSystem.bus_simulates.comp (Services.refinement ms.acts ∅ i).simulation
  intro s e s' t ht hs
  obtain ⟨t', hreach, u, rfl, -, hu⟩ := h s e s' t ⟨_, rfl, trivial, ht⟩ hs
  exact ⟨t', hreach, hu⟩

/-- **Each service runs as if it were alone.** For every run of the cluster there are a run of Raft
nodes, a run of queue nodes and a run of cache nodes, each of which goes through the states of its
service in the same order. -/
theorem services_refine [Nonempty NodeId] (run : ClusterRun ms Body Key Value) :
    (∃ (r : Raft.ClusterRun ms.locks) (time : ℕ → ℕ), Monotone time ∧ ∀ i ≤ run.length,
      time i ≤ r.length ∧ Raft.Same (view .locks (run.state i)) (r.state (time i))) ∧
    (∃ (r : Queue.ClusterRun ms.queues Body) (time : ℕ → ℕ), Monotone time ∧ ∀ i ≤ run.length,
      time i ≤ r.length ∧ r.state (time i) = view .queues (run.state i)) ∧
    ∃ (r : Cache.ClusterRun ms.caches ∅ Key Value) (time : ℕ → ℕ), Monotone time ∧
      ∀ i ≤ run.length, time i ≤ r.length ∧ r.state (time i) = view .caches (run.state i) := by
  refine ⟨?_, ?_, ?_⟩
  · have h : Simulation (step ms) (Raft.step ms.locks)
        fun (s : Cluster NodeId Command Result Body Key Value) _ => _ :=
      (view_simulates .locks).comp Raft.simulates
    have : Nonempty (Raft.Event NodeId Command) := ⟨.drop 0⟩
    obtain ⟨r, time, hmono, hr⟩ := h.exists_run run
      ⟨view .locks ms.initial, rfl, Raft.Same.initial⟩
    refine ⟨r, time, hmono, fun i hi => ?_⟩
    obtain ⟨hle, t, rfl, hsame⟩ := hr i hi
    exact ⟨hle, hsame⟩
  · have h : Simulation (step ms) (Queue.step ms.queues)
        fun (s : Cluster NodeId Command Result Body Key Value) _ => _ := view_simulates .queues
    have : Nonempty (Queue.Event NodeId Body) := ⟨.drop (Classical.arbitrary NodeId) 0⟩
    exact h.exists_run run rfl
  · have h : Simulation (step ms) (Cache.step ms.caches ∅)
        fun (s : Cluster NodeId Command Result Body Key Value) _ => _ := view_simulates .caches
    have : Nonempty (Cache.Event NodeId Key Value) := ⟨.drop (Classical.arbitrary NodeId) 0⟩
    exact h.exists_run run rfl

/-! ## Two nodes -/

/-- Two nodes, of which `true` is the primary of every message. -/
def twoNodes : Members Bool ℕ ℕ :=
  let mesh : Network.Mesh Bool :=
    { peers := fun a => [!a], nodup_peers := by simp, mem_peers := by simp }
  { locks := { mesh with applyCallback := fun _ _ c => some c }
    queues :=
      { peers := mesh.peers
        getNNodes := fun _ _ n => [true, false].take n
        replicationFactor := fun _ => 2
        visibilityTimeout := fun _ => 30 }
    caches := { mesh with maxSize := fun _ => 1000, lfu := fun _ => false } }

/-- What a handler reads at time `t`. -/
def readAt (t : Queue.Time) : ∀ i, Env i
  | .locks => ()
  | .queues => t
  | .caches => ()

/-- Node `false` puts a value, enqueues a message and asks for votes. Node `true` handles the first
two messages while it is partitioned, and its vote is lost. -/
def shared : ClusterRun twoNodes ℕ String ℕ :=
  Run.ofEvents _ _
    [.registerNode false, .registerNode true,
      .call false ⟨.caches, Cache.Call.put "k" 1⟩,
      .call false ⟨.queues, Queue.Call.enqueue "m" "orders" 1 none⟩,
      .call false ⟨.locks, Raft.Trigger.tick true⟩,
      .partitionNodes [true], .dispatch true (readAt 0), .dispatch true (readAt 0),
      .dispatch true (readAt 0)]
    .healPartition (by decide +kernel)

theorem services_refine_shared :
    ∃ (r : Queue.ClusterRun twoNodes.queues ℕ) (time : ℕ → ℕ), time 9 ≤ r.length ∧
      ((r.state (time 9)).nodes true).log.length = 1 := by
  obtain ⟨-, ⟨r, time, -, hr⟩, -⟩ := services_refine shared
  obtain ⟨hle, hstate⟩ := hr 9 (by decide)
  refine ⟨r, time, hle, ?_⟩
  rw [hstate]
  decide +kernel

end InProcess
