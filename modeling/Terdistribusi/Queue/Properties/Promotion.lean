import Terdistribusi.Queue.Cluster
import Terdistribusi.Queue.Monitored
import Terdistribusi.Queue.Properties.Stored

/-!
# The replicas of a dead primary

`_on_peer_failure` promotes the replicas that a node has of a peer's messages. It is scheduled once,
when the detector declares the peer dead, and replicas of the peer's messages can come later: the
ring goes on to name it as a primary.

`Promoted` is the invariant of the runs in which no replica comes late (`replicas_promoted`).
-/

namespace Queue

open Infra Communication

variable {NodeId Value : Type} [DecidableEq NodeId]

namespace QueueNode

/-- The replica that an input makes the node store. -/
def replicated (cfg : Config NodeId) :
    Input NodeId (Call NodeId Value) Time (Payload NodeId Value) →
    Option (QueueMessage NodeId Value)
  | .call (.enqueue msgId queue payload partitionKey) =>
    match newMessage cfg msgId queue payload partitionKey with
    | none => none
    | some msg => if cfg.nodeId ∈ msg.replicas then some msg else none
  | .receive _ m =>
    match m.payload with
    | .queueReplicate message => some message
    | _ => none
  | _ => none

/-- Every replica was there before, or the input is one. -/
theorem mem_replicas_act {cfg : Config NodeId} {s : QueueNode NodeId Value}
    {inp : Input NodeId (Call NodeId Value) Time (Payload NodeId Value)}
    (hinp : ∀ b, inp ≠ .call (.onPeerFailure b)) :
    ∀ msg ∈ (s.act cfg inp).1.replicas.values,
      msg ∈ s.replicas.values ∨ replicated cfg inp = some msg := by
  refine act_induction (P := fun t => ∀ msg ∈ t.replicas.values,
    msg ∈ s.replicas.values ∨ replicated cfg inp = some msg) inp (fun _ => Or.inl) ?_ ?_ ?_ ?_ ?_ ?_
  · intro s' hk msg hmsg
    rw [hk.replicas] at hmsg
    exact Or.inl hmsg
  · exact fun _ _ _ ih => ih
  · intro t new hnew ih msg hmsg
    rcases Keyed.mem_values_put hmsg with rfl | hold
    · refine Or.inr ?_
      rcases hnew with ⟨⟨_, _, _, _, rfl, hnew⟩, hself⟩ | ⟨_, m, rfl, hm⟩
      · simp only [replicated, hnew, if_pos hself]
      · simp only [replicated, hm]
    · exact ih msg hold
  · intro x s' _ _ hr msg hmsg
    rcases hr.replicas with he | he
    · rw [he] at hmsg
      exact Or.inl hmsg
    · rw [he] at hmsg
      exact Or.inl (Keyed.mem_values_pop.mp hmsg).1
  · intro _ _ x _ _ msg hmsg
    exact Or.inl (Keyed.mem_values_pop.mp hmsg).1
  · exact fun b hb => absurd hb (hinp b)

/-- What a loop of promotions leaves was there before, and is not one of the messages of the peer
that it went over. -/
theorem mem_replicas_foldl_promote {cfg : Config NodeId} {p : NodeId}
    {msg : QueueMessage NodeId Value} : ∀ (vs : List (QueueMessage NodeId Value))
      (s : QueueNode NodeId Value), msg ∈ (vs.foldl (promote cfg p) s).replicas.values →
      msg ∈ s.replicas.values ∧ (msg ∈ vs → msg.primaryNode ≠ some p)
  | [], _, h => ⟨h, by simp⟩
  | v :: vs, s, h => by
    obtain ⟨hmem, hrest⟩ := mem_replicas_foldl_promote vs (promote cfg p s v) h
    unfold promote at hmem
    split at hmem
    · next hv =>
      obtain ⟨hold, hne⟩ := Keyed.mem_values_pop.mp hmem
      refine ⟨hold, fun hin => ?_⟩
      rcases List.mem_cons.mp hin with rfl | hin
      · exact absurd rfl hne
      · exact hrest hin
    · next hv =>
      refine ⟨hmem, fun hin => ?_⟩
      rcases List.mem_cons.mp hin with rfl | hin
      · exact hv
      · exact hrest hin

/-- What `_on_peer_failure` leaves was there before and is not of the peer. -/
theorem mem_replicas_onPeerFailure {cfg : Config NodeId} {p : NodeId} {s : QueueNode NodeId Value}
    {msg : QueueMessage NodeId Value} (h : msg ∈ (s.onPeerFailure cfg p).replicas.values) :
    msg ∈ s.replicas.values ∧ msg.primaryNode ≠ some p := by
  obtain ⟨hmem, hne⟩ := mem_replicas_foldl_promote _ s h
  exact ⟨hmem, hne hmem⟩

end QueueNode

namespace MonitoredNode

/-! ## Promotion -/

/-- No replica is of a peer that is dead, unless its promotion is still scheduled. -/
def Promoted (s : MonitoredNode NodeId Value) : Prop :=
  ∀ p, s.failureDetector.getStatus p = .dead → p ∉ s.tasks →
    ∀ msg ∈ s.node.replicas.values, msg.primaryNode ≠ some p

/-- The event makes the node store a replica of a peer that is dead and whose promotion is not
scheduled. -/
def storesForDead (cfg : Config NodeId) (s : MonitoredNode NodeId Value) :
    Event NodeId Value → Bool
  | .input inp =>
    match QueueNode.replicated cfg inp with
    | none => false
    | some msg =>
      match msg.primaryNode with
      | none => false
      | some p => s.failureDetector.getStatus p = .dead && p ∉ s.tasks
  | _ => false

theorem promoted_start (cfg : Config NodeId) (log : List (Record NodeId Value))
    (now : NodeId → Communication.Time) : Promoted (start cfg log now) := by
  intro p hdead
  rw [start, FailureDetector.getStatus_init] at hdead
  cases hdead

/-- One event keeps the invariant unless it stores a replica of a dead peer. -/
theorem promoted_step {cfg : Config NodeId} {s s' : MonitoredNode NodeId Value}
    {e : Event NodeId Value} (h : Promoted s) (hno : storesForDead cfg s e = false)
    (hs : step cfg s e = some s') : Promoted s' := by
  intro p hdead htask msg hmsg
  cases e with
  | heartbeat q now =>
    cases hs
    exact h p (FailureDetector.dead_recordHeartbeat hdead) htask msg hmsg
  | check now =>
    cases hs
    rcases FailureDetector.dead_check hdead with hold | hnew
    · exact h p hold (fun hin => htask (List.mem_append_left _ hin)) msg hmsg
    · exact absurd (List.mem_append_right _ hnew) htask
  | runTask k =>
    obtain ⟨q, hk, rfl⟩ := step_runTask hs
    obtain ⟨hmem, hne⟩ := QueueNode.mem_replicas_onPeerFailure hmsg
    by_cases hin : p ∈ s.tasks
    · -- the only task for `p` is the one that has run
      have hpq : p = q := by
        by_contra hpq
        refine htask (List.mem_eraseIdx_iff_getElem?.mpr ?_)
        obtain ⟨j, hj⟩ := List.mem_iff_getElem?.mp hin
        refine ⟨j, ?_, hj⟩
        rintro rfl
        rw [hk] at hj
        exact hpq (Option.some.inj hj).symm
      rw [hpq]
      exact hne
    · exact h p hdead hin msg hmem
  | input inp =>
    obtain ⟨hinp, rfl⟩ := step_input hs
    rcases QueueNode.mem_replicas_act hinp msg hmsg with hold | hnew
    · exact h p hdead htask msg hold
    · intro hp
      simp [storesForDead, hnew, hp, hdead, htask] at hno

/-- **The replicas of a dead primary are promoted**, in every run in which the node stores no
replica for a peer after its promotion has run. -/
theorem replicas_promoted {cfg : Config NodeId} {log : List (Record NodeId Value)}
    {now : NodeId → Communication.Time} (run : MonitoredRun cfg log now)
    (hno : ∀ i < run.length, storesForDead cfg (run.state i) (run.event i) = false) {i : ℕ}
    (hi : i ≤ run.length) (hidle : (run.state i).tasks = []) {p : NodeId}
    (hdead : (run.state i).failureDetector.getStatus p = .dead) :
    ∀ msg ∈ (run.state i).node.replicas.values, msg.primaryNode ≠ some p := by
  have hp : Promoted (run.state i) := by
    exact run.invariant_of (G := fun s e => storesForDead cfg s e = false) hno
      (promoted_start cfg log now) (fun s e s' h hg hs => promoted_step h hg hs) i hi
  exact hp p hdead (by simp [hidle])

/-! ## A node whose peer is silent -/

/-- Node 0 gets a replica of node 1, hears nothing of it for three rounds, and promotes the
replica. -/
def silentEvents : List (Event (Fin 2) ℕ) :=
  [.input (.receive 0 ⟨1, 0, .queueReplicate order⟩), .check 10, .check 11, .check 12, .runTask 0]

def silent : MonitoredRun (pair.config 0) ([] : List (Record (Fin 2) ℕ)) fun _ => 0 :=
  Run.ofEvents _ _ silentEvents (.check 0) (by decide +kernel)

theorem replicas_promoted_silent : (silent.state 5).failureDetector.getStatus 1 = .dead ∧
    ∀ msg ∈ (silent.state 5).node.replicas.values, msg.primaryNode ≠ some (1 : Fin 2) :=
  ⟨by decide +kernel, replicas_promoted silent (by decide +kernel) (i := 5) (by decide)
    (by decide +kernel) (by decide +kernel)⟩

/-- Then node 0 enqueues a message itself. Its ring still has node 1, and so it stores the replica
of a primary that is dead. -/
def late : MonitoredRun (pair.config 0) ([] : List (Record (Fin 2) ℕ)) fun _ => 0 :=
  Run.ofEvents _ _ (silentEvents ++ [.input (.call (.enqueue "n" "orders" 2 none))]) (.check 0)
    (by decide +kernel)

/-- All callbacks have run, node 1 is dead, and a replica of it is left. -/
theorem late_not_promoted : (late.state 6).tasks = [] ∧
    (late.state 6).failureDetector.getStatus 1 = .dead ∧
    ∃ msg ∈ (late.state 6).node.replicas.values, msg.primaryNode = some (1 : Fin 2) :=
  ⟨by decide +kernel, by decide +kernel, by decide +kernel⟩

end MonitoredNode

end Queue
