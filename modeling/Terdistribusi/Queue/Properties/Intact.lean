import Terdistribusi.Queue.Properties.Conservation
import Terdistribusi.Queue.Properties.Origin

/-!
# What a consumer gets

A message goes from node to node, into logs and replica tables, is handed over, promoted, expired
and replayed. Whatever happens to it, a consumer that gets it from a queue gets what was enqueued
into this queue under its id.

* `QueueNode.Routed` — every deque has messages of its own queue only
* `ClusterRun.dequeued_enqueued`
-/

namespace Queue

open Infra

variable {NodeId Value : Type}

namespace QueueNode

/-- Every deque has messages of its own queue only. -/
def Routed (s : QueueNode NodeId Value) : Prop := ∀ queue, ∀ msg ∈ s.deque queue, msg.queue = queue

variable {s s' : QueueNode NodeId Value}

theorem Routed.of_queues (h : s.Routed) (heq : s'.queues = s.queues) : s'.Routed := by
  intro queue msg hmsg
  unfold deque at hmsg
  rw [heq] at hmsg
  exact h queue msg hmsg

theorem Routed.append (h : s.Routed) (msg : QueueMessage NodeId Value) : (s.append msg).Routed := by
  intro queue m hm
  rcases mem_deque_append hm with ⟨rfl, hqueue⟩ | hm
  · exact hqueue
  · exact h queue m hm

theorem Routed.storeLocal (h : s.Routed) (msg : QueueMessage NodeId Value) :
    (s.storeLocal msg).Routed :=
  (h.append msg).of_queues rfl

theorem Routed.storeReplica (h : s.Routed) (msg : QueueMessage NodeId Value) :
    (s.storeReplica msg).Routed :=
  h.of_queues rfl

/-- A deque that loses messages or changes their order. -/
theorem Routed.set (h : s.Routed) {queue : String} {q : List (QueueMessage NodeId Value)}
    (hq : q ⊆ s.deque queue) {inflight : Table NodeId Value} :
    Routed { s with queues := s.queues.set queue q, inflight := inflight } := by
  intro name msg hmsg
  simp only [deque, Dict.get?_set] at hmsg
  split at hmsg
  · next hname =>
    subst hname
    exact h queue msg (hq hmsg)
  · exact h name msg hmsg

theorem Routed.requeueExpiredInflight (h : s.Routed) (now : Time) :
    (s.requeueExpiredInflight now).Routed := by
  unfold QueueNode.requeueExpiredInflight
  refine List.foldlRecOn _ _ h fun t ht msg _ => ?_
  unfold requeue
  split
  · have hpop : Routed { t with inflight := t.inflight.pop msg.msgId } := ht.of_queues rfl
    exact hpop.append msg.reset
  · exact ht

theorem Routed.popLocal (h : s.Routed) (cfg : Config NodeId) (queue : String) (now : Time) :
    (popLocal cfg queue now s).2.Routed := by
  unfold QueueNode.popLocal
  split
  · exact h
  · next q hq =>
    have hperm := popLoop_perm now q.length q
    have hdeque : s.deque queue = q := by simp [deque, hq]
    split
    · next q' hpop =>
      rw [hpop] at hperm
      exact h.set (hdeque ▸ hperm.subset)
    · next msg q' hpop =>
      rw [hpop] at hperm
      exact h.set (hdeque ▸ fun m hm => hperm.subset (List.mem_cons_of_mem msg hm))

/-- What `dequeue` returns comes from the queue that is asked for. -/
theorem Routed.queue_of_dequeue (h : s.Routed) {cfg : Config NodeId} {queue : String}
    {now now' : Time} {msg : QueueMessage NodeId Value}
    (hmsg : (dequeue cfg queue now now' s).1 = some msg) : msg.queue = queue := by
  rw [(dequeue_eq cfg queue now now' s).1, popLocal_fst] at hmsg
  obtain ⟨m, hfirst, rfl⟩ := Option.map_eq_some_iff.mp hmsg
  exact h.requeueExpiredInflight now queue m (List.mem_of_find?_eq_some hfirst)

theorem Routed.dequeue (h : s.Routed) (cfg : Config NodeId) (queue : String) (now now' : Time) :
    (dequeue cfg queue now now' s).2.1.Routed := by
  rw [(dequeue_eq cfg queue now now' s).2]
  exact (h.requeueExpiredInflight now).popLocal cfg queue now'

theorem Routed.handleDequeue (h : s.Routed) (cfg : Config NodeId) (senderId : NodeId)
    (queue : String) (now : Time) : (handleDequeue cfg senderId queue now s).1.Routed := by
  have hpop := h.popLocal cfg queue now
  unfold QueueNode.handleDequeue
  split
  · next heq =>
    rw [heq] at hpop
    exact hpop
  · next heq =>
    rw [heq] at hpop
    exact hpop

/-- A message that is handed out is one of the node's. -/
theorem body_of_dequeue {cfg : Config NodeId} {queue : String} {now now' : Time}
    {msg : QueueMessage NodeId Value} (hmsg : (dequeue cfg queue now now' s).1 = some msg) :
    ∃ msg₀ ∈ s.occurring, msg₀.body = msg.body := by
  have hstored : msg ∈ (QueueNode.dequeue cfg queue now now' s).2.1.stored := by
    rw [(dequeue_eq cfg queue now now' s).1] at hmsg
    rw [(dequeue_eq cfg queue now now' s).2]
    exact popLocal_inflight cfg (Prod.ext hmsg rfl)
  exact (dequeue_keeps cfg queue now now' s).derives msg (occurring_of_stored hstored)

/-! ## Replay -/

theorem routed_onStart (log : List (Record NodeId Value)) : (onStart log).Routed := by
  unfold onStart
  refine List.foldlRecOn _ _ (fun _ _ hmsg => by cases hmsg) fun t ht r _ => ?_
  cases r with
  | enqueue message => exact ht.append message
  | ack msgId => exact ht.of_queues rfl
  | replicate message => exact ht.of_queues rfl

/-- A fresh node has what the records of the log hold. -/
theorem message_of_onStart (log : List (Record NodeId Value)) :
    ∀ msg ∈ (onStart log).occurring, ∃ r ∈ log, r.message = some msg := by
  unfold onStart
  refine List.foldlRecOn (motive := fun t : QueueNode NodeId Value =>
    ∀ msg ∈ t.occurring, ∃ r ∈ log, r.message = some msg) _ _ ?_ fun t ht r hr => ?_
  · intro msg hmsg
    rcases mem_occurring.mp hmsg with hmsg | hmsg | hmsg
    · cases hmsg
    · cases hmsg
    · exact hmsg
  · intro msg hmsg
    cases r with
    | enqueue message =>
      rcases mem_occurring.mp hmsg with hmsg | hmsg
      · rcases List.mem_cons.mp ((t.stored_append message).mem_iff.mp hmsg) with rfl | hmsg
        · exact ⟨_, hr, rfl⟩
        · exact ht msg (occurring_of_stored hmsg)
      · exact ht msg (mem_occurring.mpr (Or.inr hmsg))
    | ack msgId =>
      refine ht msg (mem_occurring.mpr ((mem_occurring.mp hmsg).imp_left fun hmsg => ?_))
      refine (List.mem_append.mp hmsg).elim (List.mem_append_left _) fun hmsg => ?_
      exact List.mem_append_right _ (Keyed.mem_values_pop.mp hmsg).1
    | replicate message =>
      rcases mem_occurring.mp hmsg with hmsg | hmsg | hmsg
      · exact ht msg (occurring_of_stored hmsg)
      · rcases Keyed.mem_values_put hmsg with rfl | hmsg
        · exact ⟨_, hr, rfl⟩
        · exact ht msg (mem_occurring.mpr (Or.inr (Or.inl hmsg)))
      · exact ht msg (mem_occurring.mpr (Or.inr (Or.inr hmsg)))

variable [DecidableEq NodeId]

theorem Routed.onPeerFailure (h : s.Routed) (cfg : Config NodeId) (b : NodeId) :
    (onPeerFailure cfg b s).Routed := by
  unfold QueueNode.onPeerFailure
  refine List.foldlRecOn _ _ h fun t ht msg _ => ?_
  unfold promote
  split
  · exact (ht.append (msg.promote cfg.nodeId)).of_queues rfl
  · exact ht

/-- **Every input leaves a node routed.** -/
theorem Routed.act (h : s.Routed) (cfg : Config NodeId)
    (inp : Input NodeId (Call NodeId Value) Time (Payload NodeId Value)) :
    (act cfg inp s).1.Routed := by
  cases inp with
  | call c =>
    cases c with
    | enqueue msgId queue payload partitionKey =>
      exact enqueue_induction h (fun t msg _ ht => ht.storeLocal msg)
        (fun t msg _ _ ht => ht.storeReplica msg)
    | dequeue queue now now' => exact h.dequeue cfg queue now now'
    | ack x =>
      simp only [QueueNode.act, ack]
      split <;> exact h.of_queues rfl
    | requeueExpiredInflight now => exact h.requeueExpiredInflight now
    | onPeerFailure b => exact h.onPeerFailure cfg b
  | receive now m =>
    obtain ⟨senderId, receiverId, payload⟩ := m
    cases payload with
    | queueEnqueue message delivered => exact h.storeLocal message
    | queueReplicate message => exact h.storeReplica message
    | queueDequeue queue => exact h.handleDequeue cfg senderId queue now
    | queueAck x => exact h.of_queues rfl

end QueueNode

open QueueNode

/-! ## In a cluster -/

variable [DecidableEq NodeId] {ms : Members NodeId}

namespace ClusterRun

variable (run : ClusterRun ms Value)

theorem routed : ∀ i ≤ run.length, ∀ a, ((run.state i).nodes a).Routed := by
  refine run.induction ?_ fun i hi ih => ?_
  · intro a queue msg hmsg
    rw [run.state_zero] at hmsg
    cases hmsg
  · exact (Network.everywhere_succ (N := fun _ s => s.Routed) (M := fun _ _ => True)
      (run.state_succ i hi) ih (fun _ _ _ => trivial)
      fun a inp _ _ => ⟨(ih a).act (ms.config a) inp, fun _ _ => trivial⟩).1

/-- Before time `i` a client has enqueued this payload into the queue under this id, and the ring of
its node has given the replicas. -/
def Enqueued (i : ℕ) (queue : String) (msg : QueueMessage NodeId Value) : Prop :=
  ∃ j < i, ∃ b partitionKey primary,
    run.event j = .call b (.enqueue msg.msgId queue msg.payload partitionKey) ∧
      msg.partitionKey = keyOr partitionKey msg.msgId ∧
      (ms.config b).getNNodes msg.partitionKey (ms.config b).replicationFactor =
        primary :: msg.replicas

/-- What an `enqueue` has made says which one it was. -/
theorem enqueued_of_made {i : ℕ} {msg : QueueMessage NodeId Value} (h : Made run i msg) :
    run.Enqueued i msg.queue msg := by
  obtain ⟨j, hj, msg₀, hmade, hbody⟩ := h
  unfold Members.enqueued at hmade
  split at hmade
  · next b msgId queue payload partitionKey he =>
    unfold newMessage at hmade
    split at hmade
    · cases hmade
    · next primary replicas hring =>
      obtain rfl := Option.some.inj hmade
      have hid : msgId = msg.msgId := congrArg QueueMessage.msgId hbody
      have hqueue : queue = msg.queue := congrArg QueueMessage.queue hbody
      have hpayload : payload = msg.payload := congrArg QueueMessage.payload hbody
      have hkey : keyOr partitionKey msgId = msg.partitionKey :=
        congrArg QueueMessage.partitionKey hbody
      have hreplicas : replicas = msg.replicas := congrArg QueueMessage.replicas hbody
      subst hid hqueue hpayload hreplicas
      exact ⟨j, hj, b, partitionKey, primary, he, hkey.symm, hkey ▸ hring⟩
  · cases hmade

/-- A message of a node that is handed out has been enqueued. -/
theorem enqueued_of_dequeue {i : ℕ} {s : QueueNode NodeId Value} (hrouted : s.Routed)
    (hmade : ∀ msg ∈ s.occurring, Made run i msg) {cfg : Config NodeId} {queue : String}
    {now now' : Time} {msg : QueueMessage NodeId Value}
    (hmsg : (dequeue cfg queue now now' s).1 = some msg) : run.Enqueued i queue msg := by
  obtain ⟨msg₀, hocc, hbody⟩ := body_of_dequeue hmsg
  obtain ⟨j, hj, m, henqueued, hm⟩ := hmade msg₀ hocc
  have h := enqueued_of_made run ⟨j, hj, m, henqueued, hm.trans hbody⟩
  rwa [hrouted.queue_of_dequeue hmsg] at h

/-- **A consumer gets what was enqueued.** At every time of every run, and at a fresh node that
replays the log of any of the nodes, a message that `dequeue` returns was enqueued into this queue
under its id, with its payload and for its partition key. -/
theorem dequeued_enqueued : ∀ i ≤ run.length, ∀ a s,
    s = (run.state i).nodes a ∨ s = onStart ((run.state i).nodes a).log →
      ∀ queue now now' msg, (dequeue (ms.config a) queue now now' s).1 = some msg →
        run.Enqueued i queue msg := by
  intro i hi a s hs queue now now' msg hmsg
  have hmade := (made run i hi).nodes a
  rcases hs with rfl | rfl
  · exact enqueued_of_dequeue run (routed run i hi a) hmade hmsg
  · refine enqueued_of_dequeue run (routed_onStart _) (fun m hm => hmade m ?_) hmsg
    exact mem_occurring.mpr (Or.inr (Or.inr (message_of_onStart _ m hm)))

end ClusterRun

/-- Node 0 stores the message that its peer has handed over. -/
def passedOn : ClusterRun pair ℕ :=
  Run.ofEvents _ _ (askedFor ++ [.deliver 0 0 0]) (.call 0 (.dequeue "orders" 0 0))
    (by decide +kernel)

theorem dequeued_enqueued_passedOn : passedOn.Enqueued 5 "orders"
    { order with deliveryCount := 2, visibilityTimeoutUntil := 61 } :=
  passedOn.dequeued_enqueued 5 (by decide) 0 _ (Or.inl rfl) "orders" 31 31 _ (by decide +kernel)

end Queue
