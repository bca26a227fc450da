import Terdistribusi.Queue.System
import Terdistribusi.Queue.Properties.Conservation
import Terdistribusi.Queue.Properties.Origin

/-!
# What becomes of an enqueued message

`enqueue` returns the id of the message whatever becomes of the messages it sends. As long as no
consumer takes the message, it is stored somewhere, or waits in an inbox of a node that will store
it, exactly when the caller is one of the nodes that the ring names or one of these takes a message
of the caller (`enqueue_stored_iff`).

* `Spares` — what a dequeue of other messages and an expired timeout do not touch
* `System.About` — what there is about one id in a system
-/

namespace Queue

open Infra Communication QueueNode

variable {NodeId Value : Type}

namespace Payload

/-- The payload is about the message with this id. -/
def names (x : String) : Payload NodeId Value → Prop
  | .queueEnqueue message _ => message.msgId = x
  | .queueReplicate message => message.msgId = x
  | .queueDequeue _ => False
  | .queueAck msgId => msgId = x

/-- The payload brings a message to a node that stores it. -/
def Brings (Q : QueueMessage NodeId Value → Prop) : Payload NodeId Value → Prop
  | .queueEnqueue message delivered => delivered = false ∧ Q message.body
  | .queueReplicate message => Q message.body
  | .queueDequeue _ => False
  | .queueAck _ => False

instance (Q : QueueMessage NodeId Value → Prop) [DecidablePred Q] (p : Payload NodeId Value) :
    Decidable (p.Brings Q) :=
  match p with
  | .queueEnqueue _ _ => inferInstanceAs (Decidable (_ ∧ _))
  | .queueReplicate message => inferInstanceAs (Decidable (Q message.body))
  | .queueDequeue _ => inferInstanceAs (Decidable False)
  | .queueAck _ => inferInstanceAs (Decidable False)

/-- What is brought is the message that the payload carries. -/
theorem Brings.exists_message {Q : QueueMessage NodeId Value → Prop} {p : Payload NodeId Value}
    (h : p.Brings Q) : ∃ msg, p.message = some msg ∧ Q msg.body ∧ p.names msg.msgId := by
  cases p with
  | queueEnqueue message delivered => exact ⟨message, rfl, h.2, rfl⟩
  | queueReplicate message => exact ⟨message, rfl, h, rfl⟩
  | queueDequeue queue => exact h.elim
  | queueAck msgId => exact h.elim

theorem names_of_message {p : Payload NodeId Value} {msg : QueueMessage NodeId Value} {x : String}
    (h : p.message = some msg) (hid : msg.msgId = x) : p.names x := by
  cases p with
  | queueEnqueue message delivered =>
    cases h
    exact hid
  | queueReplicate message =>
    cases h
    exact hid
  | queueDequeue queue => cases h
  | queueAck y => cases h

end Payload

/-- The nodes that the ring names for the message. -/
def QueueMessage.targets (msg : QueueMessage NodeId Value) : List NodeId :=
  msg.primaryNode.toList ++ msg.replicas

namespace QueueNode

/-- The node has the message in a queue or among its replicas. -/
def Has (msg : QueueMessage NodeId Value) (s : QueueNode NodeId Value) : Prop :=
  ∃ m ∈ s.pending ++ s.replicas.values, m.body = msg.body

variable {msg : QueueMessage NodeId Value} {s s' : QueueNode NodeId Value} {x : String}

theorem Has.storeLocal (h : s.Has msg) (new : QueueMessage NodeId Value) :
    (s.storeLocal new).Has msg := by
  obtain ⟨m, hm, hbody⟩ := h
  have hmem := ((s.pending_append new).append_right s.replicas.values).mem_iff (a := m)
  exact ⟨m, hmem.mpr (List.mem_cons_of_mem _ hm), hbody⟩

theorem has_storeLocal {new : QueueMessage NodeId Value} (hnew : new.body = msg.body)
    (s : QueueNode NodeId Value) : (s.storeLocal new).Has msg :=
  ⟨new, (((s.pending_append new).append_right _).mem_iff).mpr List.mem_cons_self, hnew⟩

theorem has_storeReplica {new : QueueMessage NodeId Value} (hnew : new.body = msg.body)
    (s : QueueNode NodeId Value) : (s.storeReplica new).Has msg := by
  refine ⟨new, List.mem_append_right _ ?_, hnew⟩
  exact Keyed.mem_values_iff.mpr (Keyed.get?_put_self _ _)

/-- A replica replaces the message only when it has the same id. -/
theorem Has.storeReplica (h : s.Has msg) {new : QueueMessage NodeId Value}
    (hnew : new.msgId = msg.msgId → new.body = msg.body) : (s.storeReplica new).Has msg := by
  by_cases hid : new.msgId = msg.msgId
  · exact has_storeReplica (hnew hid) s
  · obtain ⟨m, hm, hbody⟩ := h
    refine ⟨m, ?_, hbody⟩
    refine (List.mem_append.mp hm).elim (List.mem_append_left _) fun hm => ?_
    refine List.mem_append_right _ (Keyed.mem_values_iff.mpr ?_)
    have hne : new.msgId ≠ m.msgId := by rwa [QueueMessage.msgId_eq_of_body hbody]
    show (s.replicas.put new).get? m.msgId = some m
    rw [Keyed.get?_put, if_neg hne]
    exact Keyed.mem_values_iff.mp hm

/-- Replicas under other ids go. -/
theorem Has.pop (h : s.Has msg) (hx : x ≠ msg.msgId) (hqueues : s'.queues = s.queues)
    (hreplicas : s'.replicas = s.replicas ∨ s'.replicas = s.replicas.pop x) : s'.Has msg := by
  obtain ⟨m, hm, hbody⟩ := h
  refine ⟨m, ?_, hbody⟩
  unfold pending at hm ⊢
  rw [hqueues]
  refine (List.mem_append.mp hm).elim (List.mem_append_left _) fun hm => List.mem_append_right _ ?_
  rcases hreplicas with heq | heq
  · rwa [heq]
  · rw [heq]
    refine Keyed.mem_values_pop.mpr ⟨hm, ?_⟩
    rw [QueueMessage.msgId_eq_of_body hbody]
    exact hx.symm

/-! ## What is spared -/

/-- From `s` to `s'` nothing happens to the messages with this id. -/
structure Spares (x : String) (s s' : QueueNode NodeId Value) : Prop where
  pending : ∀ msg ∈ s.pending, msg.msgId = x → msg ∈ s'.pending
  inflight : s.inflight.get? x = none → s'.inflight.get? x = none
  replicas : s'.replicas = s.replicas

theorem Spares.refl (s : QueueNode NodeId Value) : Spares x s s :=
  ⟨fun _ h _ => h, id, rfl⟩

theorem Spares.trans {t u : QueueNode NodeId Value} (h : Spares x s t) (h' : Spares x t u) :
    Spares x s u :=
  ⟨fun msg hmsg hid => h'.pending msg (h.pending msg hmsg hid) hid, h'.inflight ∘ h.inflight,
    h'.replicas.trans h.replicas⟩

theorem Has.spares (h : s.Has msg) (hs : Spares msg.msgId s s') : s'.Has msg := by
  obtain ⟨m, hm, hbody⟩ := h
  refine ⟨m, ?_, hbody⟩
  rw [hs.replicas]
  rcases List.mem_append.mp hm with hm | hm
  · exact List.mem_append_left _ (hs.pending m hm (QueueMessage.msgId_eq_of_body hbody))
  · exact List.mem_append_right _ hm

theorem requeueExpiredInflight_spares (x : String) (now : Time) (s : QueueNode NodeId Value) :
    Spares x s (s.requeueExpiredInflight now) := by
  unfold requeueExpiredInflight
  refine List.foldlRecOn (motive := fun t => Spares x s t) _ _ (Spares.refl s) fun t ht msg _ => ?_
  refine ht.trans ?_
  unfold requeue
  split
  · refine ⟨fun m hm _ => ?_, fun hnone => ?_, rfl⟩
    · exact (pending_append _ _).mem_iff.mpr (List.mem_cons_of_mem _ hm)
    · show (t.inflight.pop msg.msgId).get? x = none
      rw [Keyed.get?_pop]
      split
      · rfl
      · exact hnone
  · exact Spares.refl t

/-- The message that a consumer gets has this id. -/
def handsOut (x : String) (queue : String) (now : Time) (s : QueueNode NodeId Value) : Bool :=
  (s.firstVisible queue now).any fun msg => msg.msgId = x

theorem popLocal_spares {cfg : Config NodeId} {queue : String} {now : Time}
    (h : s.handsOut x queue now = false) : Spares x s (popLocal cfg queue now s).2 := by
  unfold handsOut firstVisible at h
  unfold popLocal
  split
  · exact Spares.refl s
  · next q hq =>
    have hfind := popLoop_eq_find? now q.length q le_rfl
    have hloop := popLoop_perm now q.length q
    rw [List.take_length] at hfind
    rw [hq, Option.getD_some, ← hfind] at h
    split
    · next q' hpop =>
      rw [hpop] at hloop
      -- nothing is visible: the deque has the same messages as before
      refine ⟨fun msg hmsg _ => ?_, id, rfl⟩
      have hperm := (pending_set_perm s queue q').trans
        ((hloop.append_right _).trans (pending_perm_of_get? hq).symm)
      exact hperm.mem_iff.mpr hmsg
    · next msg q' hpop =>
      rw [hpop] at hloop h
      have hne : msg.msgId ≠ x := by simpa using h
      refine ⟨fun m hm hid => ?_, fun hnone => ?_, rfl⟩
      · have hperm := (pending_perm_of_get? hq).trans (hloop.symm.append_right _)
        rcases List.mem_cons.mp (hperm.mem_iff.mp hm) with rfl | hm
        · exact absurd hid hne
        · exact (pending_set_perm s queue q').mem_iff.mpr hm
      · show (s.inflight.put _).get? x = none
        rw [Keyed.get?_put]
        exact (if_neg hne).trans hnone

variable [DecidableEq NodeId] {cfg : Config NodeId}

omit [DecidableEq NodeId] in
theorem handleDequeue_fst (cfg : Config NodeId) (senderId : NodeId) (queue : String) (now : Time)
    (s : QueueNode NodeId Value) :
    (handleDequeue cfg senderId queue now s).1 = (popLocal cfg queue now s).2 := by
  unfold handleDequeue
  split
  · next h => rw [h]
  · next h => rw [h]

/-! ## Any input -/

/-- The input gives a message with this id to a consumer. -/
def takes (x : String) (s : QueueNode NodeId Value) :
    Input NodeId (Call NodeId Value) Time (Payload NodeId Value) → Bool
  | .call (.dequeue queue now now') => (s.requeueExpiredInflight now).handsOut x queue now'
  | .receive now m =>
    match m.payload with
    | .queueDequeue queue => s.handsOut x queue now
    | _ => false
  | _ => false

omit [DecidableEq NodeId] in
/-- What a consumer gets was in the queue. -/
theorem mem_pending_of_firstVisible {queue : String} {now : Time}
    (h : s.firstVisible queue now = some msg) : msg ∈ s.pending := by
  have hmem := List.mem_of_find?_eq_some h
  cases hq : s.queues.get? queue with
  | none =>
    rw [hq] at hmem
    cases hmem
  | some q =>
    rw [hq] at hmem
    exact (pending_perm_of_get? hq).mem_iff.mpr (List.mem_append_left _ hmem)

section Act

variable {inp : Input NodeId (Call NodeId Value) Time (Payload NodeId Value)}

theorem inflight_act (h : s.inflight.get? x = none) (htakes : takes x s inp = false) :
    (act cfg inp s).1.inflight.get? x = none := by
  cases inp with
  | call c =>
    cases c with
    | enqueue msgId queue payload partitionKey =>
      exact enqueue_induction (P := fun t => t.inflight.get? x = none) h (fun _ _ _ ht => ht)
        (fun _ _ _ _ ht => ht)
    | dequeue queue now now' =>
      show (QueueNode.dequeue cfg queue now now' s).2.1.inflight.get? x = none
      rw [(dequeue_eq cfg queue now now' s).2]
      exact (popLocal_spares htakes).inflight ((requeueExpiredInflight_spares x now s).inflight h)
    | ack y =>
      show (QueueNode.ack cfg y s).2.1.inflight.get? x = none
      rcases ack_cases cfg y s with ⟨-, heq⟩ | ⟨m, -, -, heq, -⟩
      · rwa [heq]
      · rw [heq]
        dsimp only
        rw [Keyed.get?_pop, h, ite_self]
    | requeueExpiredInflight now => exact (requeueExpiredInflight_spares x now s).inflight h
    | onPeerFailure b =>
      refine List.foldlRecOn (motive := fun t : QueueNode NodeId Value => t.inflight.get? x = none)
        _ _ h fun t ht m _ => ?_
      unfold promote
      split <;> exact ht
  | receive now m =>
    obtain ⟨senderId, receiverId, payload⟩ := m
    cases payload with
    | queueDequeue queue =>
      show (handleDequeue cfg senderId queue now s).1.inflight.get? x = none
      rw [handleDequeue_fst]
      exact (popLocal_spares htakes).inflight h
    | queueEnqueue message delivered => exact h
    | queueReplicate message => exact h
    | queueAck y => exact h

theorem Has.promote {b : NodeId} {m : QueueMessage NodeId Value} (h : s.Has msg)
    (hm : s.replicas.get? m.msgId = some m) : (promote cfg b s m).Has msg := by
  unfold QueueNode.promote
  split
  · obtain ⟨m₀, hm₀, hbody⟩ := h
    have hpending {m₁} := (pending_append s (m.promote cfg.nodeId)).mem_iff (a := m₁)
    rcases List.mem_append.mp hm₀ with hm₀ | hm₀
    · exact ⟨m₀, List.mem_append_left _ (hpending.mpr (List.mem_cons_of_mem _ hm₀)), hbody⟩
    · by_cases hid : m₀.msgId = m.msgId
      · -- the replica of the message goes to its queue
        have hsame := (Keyed.mem_values_iff.mp hm₀).symm.trans ((congrArg _ hid).trans hm)
        rw [Option.some.inj hsame] at hbody
        have hnew := List.mem_append_left (s.replicas.pop m.msgId).values
          (hpending.mpr List.mem_cons_self)
        exact ⟨m.promote cfg.nodeId, hnew, hbody⟩
      · exact ⟨m₀, List.mem_append_right _ (Keyed.mem_values_pop.mpr ⟨hm₀, hid⟩), hbody⟩
  · exact h

/-- What a node has it keeps, unless it gives it to a consumer. -/
theorem Has.act (h : s.Has msg) (hinflight : s.inflight.get? msg.msgId = none)
    (hdraws : ∀ m, Draws cfg inp m → m.msgId = msg.msgId → m.body = msg.body)
    (hreceived : ∀ now o, inp = .receive now o → o.payload.names msg.msgId →
      o.payload.Brings (· = msg.body))
    (htakes : takes msg.msgId s inp = false) : (act cfg inp s).1.Has msg := by
  cases inp with
  | call c =>
    cases c with
    | enqueue msgId queue payload partitionKey =>
      exact enqueue_induction h (fun t m _ ht => ht.storeLocal m)
        (fun t m hm _ ht => ht.storeReplica (hdraws m ⟨_, _, _, _, rfl, hm⟩))
    | dequeue queue now now' =>
      show (QueueNode.dequeue cfg queue now now' s).2.1.Has msg
      rw [(dequeue_eq cfg queue now now' s).2]
      exact h.spares ((requeueExpiredInflight_spares _ now s).trans (popLocal_spares htakes))
    | ack y =>
      show (QueueNode.ack cfg y s).2.1.Has msg
      rcases ack_cases cfg y s with ⟨-, heq⟩ | ⟨m, hm, -, heq, -⟩
      · rwa [heq]
      · -- the message is not inflight, so the ack is one for another
        have hne : y ≠ msg.msgId := by
          rintro rfl
          rw [hinflight] at hm
          cases hm
        rw [heq]
        refine h.pop hne rfl ?_
        by_cases hself : cfg.nodeId ∈ m.replicas <;> simp [hself]
    | requeueExpiredInflight now => exact h.spares (requeueExpiredInflight_spares _ now s)
    | onPeerFailure b =>
      exact Keyed.foldl_values (R := fun t t' : QueueNode NodeId Value => t.Has msg → t'.Has msg)
        (fun _ => id) (fun _ _ _ h h' => h' ∘ h) promote_replicas
        (fun _ _ hm ht => ht.promote hm) s h
  | receive now m =>
    obtain ⟨senderId, receiverId, payload⟩ := m
    cases payload with
    | queueEnqueue message delivered => exact h.storeLocal message
    | queueReplicate message => exact h.storeReplica (hreceived now _ rfl)
    | queueDequeue queue =>
      show (handleDequeue cfg senderId queue now s).1.Has msg
      rw [handleDequeue_fst]
      exact h.spares (popLocal_spares htakes)
    | queueAck y => exact h.pop (hreceived now _ rfl) rfl (Or.inr rfl)

/-- The handler of what brings the message stores it. -/
theorem has_receive {now : Time} {o : Infra.Message NodeId (Payload NodeId Value)}
    (ho : o.payload.Brings (· = msg.body)) : (QueueNode.act cfg (.receive now o) s).1.Has msg := by
  obtain ⟨_, _, payload⟩ := o
  cases payload with
  | queueEnqueue message delivered => exact has_storeLocal ho.2 s
  | queueReplicate message => exact has_storeReplica ho s
  | queueDequeue queue => exact ho.elim
  | queueAck y => exact ho.elim

/-- What a node sends about an id brings a message that it has just made. -/
theorem brings_act {Q : QueueMessage NodeId Value → Prop} (hinflight : s.inflight.get? x = none)
    (hdraws : ∀ m, Draws cfg inp m → m.msgId = x → Q m.body) (htakes : takes x s inp = false)
    {o : Infra.Message NodeId (Payload NodeId Value)} (ho : o ∈ (QueueNode.act cfg inp s).2)
    (hnames : o.payload.names x) : o.payload.Brings Q := by
  cases inp with
  | call c =>
    cases c with
    | enqueue msgId queue payload partitionKey =>
      -- all that `enqueue` sends carries the message that it has made
      obtain ⟨m, hm, hsent⟩ := mem_enqueue ho
      have hq := hdraws m ⟨_, _, _, _, rfl, hm⟩
      rcases hsent with ⟨hp, -⟩ | ⟨hp, -⟩
      · rw [hp] at hnames ⊢
        exact ⟨rfl, hq hnames⟩
      · rw [hp] at hnames ⊢
        exact hq hnames
    | dequeue queue now now' =>
      rw [mem_dequeue ho] at hnames
      exact hnames.elim
    | ack y =>
      rw [mem_ack ho] at hnames
      obtain rfl : y = x := hnames
      -- an id that is not inflight is not acked
      have hnil : (QueueNode.ack cfg y s).2.2 = [] := by
        rcases ack_cases cfg y s with ⟨-, heq⟩ | ⟨m, hm, -⟩
        · rw [heq]
        · rw [hinflight] at hm
          cases hm
      rw [QueueNode.act, hnil] at ho
      cases ho
    | requeueExpiredInflight now => cases ho
    | onPeerFailure b => cases ho
  | receive now m =>
    obtain ⟨senderId, receiverId, payload⟩ := m
    cases payload with
    | queueDequeue queue =>
      have hfst := popLocal_fst cfg queue now s
      replace ho : o ∈ (handleDequeue cfg senderId queue now s).2 := ho
      unfold handleDequeue at ho
      split at ho
      · next m s' hpop =>
        rw [hpop] at hfst
        obtain ⟨m₀, hm₀, rfl⟩ := Option.map_eq_some_iff.mp hfst.symm
        rw [(Network.mem_broadcast.mp ho).2.1] at hnames
        have hout : s.handsOut x queue now = false := htakes
        rw [handsOut, hm₀] at hout
        -- what is sent back is what was handed out, and that is another message
        have hne : m₀.msgId ≠ x := by simpa using hout
        exact absurd hnames hne
      · cases ho
    | queueEnqueue message delivered => cases ho
    | queueReplicate message => cases ho
    | queueAck y => cases ho

omit [DecidableEq NodeId] in
/-- What a consumer takes is one of the messages of the node. -/
theorem exists_of_takes (h : takes x s inp = true) : ∃ m ∈ s.occurring, m.msgId = x := by
  have hout : ∀ {t : QueueNode NodeId Value} {queue : String} {now : Time}, Keeps s t →
      t.handsOut x queue now = true → ∃ m ∈ s.occurring, m.msgId = x := by
    intro t queue now hkeeps hout
    obtain ⟨m, hm, hid⟩ := (Option.any_eq_true _ _).mp hout
    have hmem : m ∈ t.pending := mem_pending_of_firstVisible hm
    obtain ⟨m₀, hm₀, hbody⟩ := hkeeps.derives m (occurring_of_stored (List.mem_append_left _ hmem))
    exact ⟨m₀, hm₀, (QueueMessage.msgId_eq_of_body hbody).trans (of_decide_eq_true hid)⟩
  cases inp with
  | call c =>
    cases c with
    | dequeue queue now now' => exact hout (requeueExpiredInflight_keeps now s) h
    | _ => cases h
  | receive now m =>
    obtain ⟨senderId, receiverId, payload⟩ := m
    cases payload with
    | queueDequeue queue => exact hout (Keeps.refl s) h
    | _ => cases h

end Act

/-! ## What `enqueue` stores and sends -/

omit [DecidableEq NodeId] in
theorem has_foldl_storeReplica {β : Type} : ∀ (l : List β) (s : QueueNode NodeId Value),
    s.Has msg ∨ l ≠ [] → (l.foldl (fun s _ => s.storeReplica msg) s).Has msg
  | [], _, h => h.elim id fun hne => absurd rfl hne
  | _ :: l, s, _ => has_foldl_storeReplica l _ (Or.inl (has_storeReplica rfl s))

/-- What `enqueue` sends brings the message to nodes that the ring names. -/
theorem enqueue_sends {msgId queue : String} {payload : Value} {partitionKey : Option String}
    (hmsg : newMessage cfg msgId queue payload partitionKey = some msg)
    {m : Infra.Message NodeId (Payload NodeId Value)}
    (hm : m ∈ (enqueue cfg msgId queue payload partitionKey s).2.2) :
    m.senderId = cfg.nodeId ∧ m.receiverId ∈ msg.targets ∧ m.payload.Brings (· = msg.body) := by
  unfold enqueue at hm
  rw [hmsg] at hm
  rcases List.mem_append.mp hm with hm | hm
  · unfold place at hm
    split at hm
    · cases hm
    · obtain ⟨hs, hp, hr⟩ := Network.mem_broadcast.mp hm
      exact ⟨hs, List.mem_append_left _ hr, by rw [hp]; exact ⟨rfl, rfl⟩⟩
  · obtain ⟨hs, hp, hr⟩ := Network.mem_broadcast.mp hm
    exact ⟨hs, List.mem_append_right _ (List.mem_filter.mp hr).1, by rw [hp]; exact rfl⟩

/-- A caller that the ring names stores the message itself. -/
theorem enqueue_has {msgId queue : String} {payload : Value} {partitionKey : Option String}
    (hmsg : newMessage cfg msgId queue payload partitionKey = some msg)
    (hself : cfg.nodeId ∈ msg.targets) :
    (enqueue cfg msgId queue payload partitionKey s).2.1.Has msg := by
  unfold enqueue
  rw [hmsg]
  refine has_foldl_storeReplica _ _ ?_
  rcases List.mem_append.mp hself with hp | hr
  · refine Or.inl ?_
    unfold place
    rw [if_pos (Option.mem_toList.mp hp)]
    exact has_storeLocal rfl s
  · exact Or.inr (List.ne_nil_of_mem (List.mem_filter.mpr ⟨hr, decide_eq_true rfl⟩))

/-- A caller that the ring does not name stores nothing and sends to everybody that it names. -/
theorem enqueue_of_not_mem {msgId queue : String} {payload : Value} {partitionKey : Option String}
    (hmsg : newMessage cfg msgId queue payload partitionKey = some msg)
    (hself : cfg.nodeId ∉ msg.targets) :
    (enqueue cfg msgId queue payload partitionKey s).2.1 = s ∧
      ∀ b ∈ msg.targets, ∃ m ∈ (enqueue cfg msgId queue payload partitionKey s).2.2,
        m.receiverId = b := by
  have hprimary : msg.primaryNode ≠ some cfg.nodeId := fun h =>
    hself (List.mem_append_left _ (Option.mem_toList.mpr h))
  have hreplicas : ∀ b ∈ msg.replicas, b ≠ cfg.nodeId := by
    rintro b hb rfl
    exact hself (List.mem_append_right _ hb)
  unfold enqueue
  rw [hmsg]
  dsimp only
  unfold place
  rw [if_neg hprimary]
  unfold placeReplicas
  have hnone : (msg.replicas.filter fun b => b = cfg.nodeId) = [] :=
    List.filter_eq_nil_iff.mpr fun b hb => by simpa using hreplicas b hb
  rw [hnone]
  refine ⟨rfl, fun b hb => ?_⟩
  rcases List.mem_append.mp hb with hp | hr
  · exact ⟨⟨cfg.nodeId, b, .queueEnqueue msg false⟩, List.mem_append_left _
      (Network.mem_broadcast.mpr ⟨rfl, rfl, hp⟩), rfl⟩
  · exact ⟨⟨cfg.nodeId, b, .queueReplicate msg⟩, List.mem_append_right _
      (Network.mem_broadcast.mpr ⟨rfl, rfl, List.mem_filter.mpr
        ⟨hr, decide_eq_true (hreplicas b hr)⟩⟩), rfl⟩

end QueueNode

namespace System

variable [DecidableEq NodeId]

/-- The id is drawn for the first time: nothing in the system is about it. -/
structure Fresh (x : String) (s : System NodeId Value) : Prop where
  nodes : ∀ b, ∀ m ∈ (s.nodes b).occurring, m.msgId ≠ x
  inbox : ∀ b, ∀ o ∈ s.bus.inbox b, ¬ o.payload.names x

/-- The message is in a queue or among the replicas of a node, or in the inbox of its primary or of
one of its replicas. -/
def Holds (msg : QueueMessage NodeId Value) (s : System NodeId Value) : Prop :=
  (∃ b, (s.nodes b).Has msg) ∨
    ∃ b ∈ msg.targets, ∃ o ∈ s.bus.inbox b, o.payload.Brings (· = msg.body)

/-- What there is about an id satisfies `Q`, and nobody has taken it. -/
structure About (x : String) (Q : QueueMessage NodeId Value → Prop) (s : System NodeId Value) :
    Prop where
  inflight : ∀ b, (s.nodes b).inflight.get? x = none
  nodes : ∀ b, ∀ m ∈ (s.nodes b).occurring, m.msgId = x → Q m.body
  inbox : ∀ b, ∀ o ∈ s.bus.inbox b, o.payload.names x → o.payload.Brings Q

/-- The caller is the primary or a replica, or one of these takes a message of the caller. -/
def Reaches (a : NodeId) (msg : QueueMessage NodeId Value) (s : System NodeId Value) : Prop :=
  a ∈ msg.targets ∨ ∃ b ∈ msg.targets, s.bus.Accepts a b

instance (a : NodeId) (msg : QueueMessage NodeId Value) (s : System NodeId Value) :
    Decidable (Reaches a msg s) :=
  inferInstanceAs (Decidable (_ ∨ ∃ b ∈ _, _))

/-- A consumer takes a message with this id: a `dequeue` or a QUEUE_DEQUEUE finds it first. -/
def takes (x : String) (s : System NodeId Value) (e : Event NodeId Value) : Bool :=
  match input? s e with
  | some (a, inp, _) => QueueNode.takes x (s.nodes a) inp
  | none => false

variable {ms : Members NodeId} {s s' : System NodeId Value} {e : Event NodeId Value}
  {msg : QueueMessage NodeId Value} {x : String} {Q : QueueMessage NodeId Value → Prop}

/-! ### One event -/

theorem input?_cases {a : NodeId}
    {inp : Input NodeId (Call NodeId Value) Time (Payload NodeId Value)}
    {bus : MessageBus NodeId (Payload NodeId Value)} (h : input? s e = some (a, inp, bus)) :
    (∃ c, e = .call a c ∧ inp = .call c ∧ bus = s.bus) ∨
      ∃ now m q, inp = .receive now m ∧ s.bus.inbox a = m :: q ∧
        bus = { s.bus with channels := s.bus.channels.set a q } := by
  unfold input? at h
  split at h
  · cases h
    exact Or.inl ⟨_, rfl, rfl, rfl⟩
  · next b now =>
    obtain ⟨⟨m, bus'⟩, hreceive, heq⟩ := Option.map_eq_some_iff.mp h
    cases heq
    obtain ⟨q, hq, rfl⟩ := MessageBus.receive_eq_some hreceive
    exact Or.inr ⟨now, m, q, rfl, hq, rfl⟩
  · cases h

/-- What an event does: nobody acts and the inboxes stay, or one node takes an input. -/
theorem step_cases (h : step ms s e = some s') :
    (s'.nodes = s.nodes ∧ ∀ b, s'.bus.inbox b = s.bus.inbox b) ∨
      ∃ a inp bus, input? s e = some (a, inp, bus) ∧
        s' = { nodes := Function.update s.nodes a (ms.act a inp (s.nodes a)).1
               bus := bus.sendAll (ms.act a inp (s.nodes a)).2 } := by
  obtain ⟨t, ht, rfl, -⟩ := BusSystem.step_eq_some h
  cases e with
  | registerNode b =>
    cases ht
    exact Or.inl ⟨rfl, fun c => MessageBus.inbox_registerNode b c s.bus⟩
  | partitionNodes bs =>
    cases ht
    exact Or.inl ⟨rfl, fun _ => rfl⟩
  | healPartition =>
    cases ht
    exact Or.inl ⟨rfl, fun _ => rfl⟩
  | call a c =>
    cases ht
    exact Or.inr ⟨a, .call c, s.bus, rfl, rfl⟩
  | dispatch a now =>
    simp only [BusSystem.turn] at ht
    split at ht
    · cases ht
    · next m bus hreceive =>
      cases ht
      exact Or.inr ⟨a, .receive now m, bus, by rw [input?, hreceive]; rfl, rfl⟩
  | forge m => cases ht

/-- What is in an inbox after an event was there before, or the node has sent it. -/
theorem mem_inbox_step {a b : NodeId}
    {inp : Input NodeId (Call NodeId Value) Time (Payload NodeId Value)}
    {bus : MessageBus NodeId (Payload NodeId Value)} (h : input? s e = some (a, inp, bus))
    {os : List (Infra.Message NodeId (Payload NodeId Value))}
    {o : Infra.Message NodeId (Payload NodeId Value)} (ho : o ∈ (bus.sendAll os).inbox b) :
    o ∈ s.bus.inbox b ∨ o ∈ os := by
  rcases MessageBus.mem_inbox_sendAll os bus ho with hold | ⟨hnew, -⟩
  · rcases input?_cases h with ⟨c, -, -, rfl⟩ | ⟨now, m, q, -, hq, rfl⟩
    · exact Or.inl hold
    · rw [MessageBus.inbox_set] at hold
      split at hold
      · next hab =>
        rw [← hab, hq]
        exact Or.inl (List.mem_cons_of_mem m hold)
      · exact Or.inl hold
  · exact Or.inr hnew

/-- The message that the input makes satisfies `Q` if it has the id. -/
def DrawsOnly (ms : Members NodeId) (x : String) (Q : QueueMessage NodeId Value → Prop)
    (s : System NodeId Value) (e : Event NodeId Value) : Prop :=
  ∀ a inp bus, input? s e = some (a, inp, bus) →
    ∀ m, Draws (ms.config a) inp m → m.msgId = x → Q m.body

theorem drawsOnly_of_drawn (h : drawn e ≠ some x) : DrawsOnly ms x Q s e := by
  rintro a inp bus hinput m ⟨msgId, queue, payload, partitionKey, rfl, hm⟩ hid
  rcases input?_cases hinput with ⟨c, rfl, hc, -⟩ | ⟨now, o, q, hc, -⟩
  · cases hc
    refine absurd ?_ h
    rw [drawn, ← hid, msgId_newMessage hm]
  · cases hc

/-- A node receives what was in its inbox. -/
theorem mem_inbox_of_input? {a : NodeId} {now : Time}
    {o : Infra.Message NodeId (Payload NodeId Value)}
    {bus : MessageBus NodeId (Payload NodeId Value)}
    (h : input? s e = some (a, .receive now o, bus)) : o ∈ s.bus.inbox a := by
  rcases input?_cases h with ⟨c, -, hc, -⟩ | ⟨now', o', q, hc, hq, -⟩
  · cases hc
  · cases hc
    rw [hq]
    exact List.mem_cons_self

theorem takes_of_input? {a : NodeId}
    {inp : Input NodeId (Call NodeId Value) Time (Payload NodeId Value)}
    {bus : MessageBus NodeId (Payload NodeId Value)} (h : input? s e = some (a, inp, bus)) :
    takes x s e = QueueNode.takes x (s.nodes a) inp := by
  rw [takes, h]

theorem About.step (h : About x Q s) (hstep : step ms s e = some s')
    (hdraws : DrawsOnly ms x Q s e) (htakes : takes x s e = false) : About x Q s' := by
  rcases step_cases hstep with ⟨hnodes, hinbox⟩ | ⟨a, inp, bus, hinput, rfl⟩
  · refine ⟨?_, ?_, fun b o ho => h.inbox b o (hinbox b ▸ ho)⟩
    · rw [hnodes]
      exact h.inflight
    · rw [hnodes]
      exact h.nodes
  · rw [takes_of_input? hinput] at htakes
    have hreceived : ∀ now o m, inp = .receive now o → o.payload.message = some m →
        m.msgId = x → Q m.body := by
      rintro now o m rfl hm hid
      have hnames : o.payload.names x := Payload.names_of_message hm hid
      obtain ⟨m', hm', hq, -⟩ :=
        (h.inbox a o (mem_inbox_of_input? hinput) hnames).exists_message
      rw [hm] at hm'
      rwa [Option.some.inj hm']
    refine ⟨?_, ?_, fun b o ho hnames => ?_⟩
    · exact (Function.forall_update_iff s.nodes fun _ n => n.inflight.get? x = none).mpr
        ⟨inflight_act (h.inflight a) htakes, fun b _ => h.inflight b⟩
    · exact (Function.forall_update_iff s.nodes fun _ n =>
        ∀ m ∈ n.occurring, m.msgId = x → Q m.body).mpr
        ⟨act_occurring (Q := fun m => m.msgId = x → Q m) (h.nodes a) (hdraws a inp bus hinput)
          hreceived, fun b _ => h.nodes b⟩
    · rcases mem_inbox_step hinput ho with hold | hnew
      · exact h.inbox b o hold hnames
      · exact brings_act (h.inflight a) (hdraws a inp bus hinput) htakes hnew hnames

/-- What the system holds it holds after an event in which no consumer takes it. -/
theorem holds_step (h : About msg.msgId (· = msg.body) s) (hh : Holds msg s)
    (hstep : step ms s e = some s') (hdraws : DrawsOnly ms msg.msgId (· = msg.body) s e)
    (htakes : takes msg.msgId s e = false) : Holds msg s' := by
  rcases step_cases hstep with ⟨hnodes, hinbox⟩ | ⟨a, inp, bus, hinput, rfl⟩
  · rcases hh with ⟨b, hb⟩ | ⟨b, hb, o, ho, hbrings⟩
    · exact Or.inl ⟨b, by rwa [hnodes]⟩
    · exact Or.inr ⟨b, hb, o, by rwa [hinbox], hbrings⟩
  · rw [takes_of_input? hinput] at htakes
    rcases hh with ⟨b, hb⟩ | ⟨b, hb, o, ho, hbrings⟩
    · refine Or.inl ⟨b, ?_⟩
      dsimp only
      by_cases hab : b = a
      · subst hab
        rw [Function.update_self]
        refine hb.act (h.inflight b) (hdraws b inp bus hinput) ?_ htakes
        rintro now o rfl hnames
        exact h.inbox b o (mem_inbox_of_input? hinput) hnames
      · rwa [Function.update_of_ne hab]
    · -- the message that brings it stays where it is, or its receiver takes it now
      rcases input?_cases hinput with ⟨c, -, -, rfl⟩ | ⟨now, m, q, rfl, hq, rfl⟩
      · exact Or.inr ⟨b, hb, o, MessageBus.subset_inbox_sendAll _ _ b ho, hbrings⟩
      · by_cases hab : a = b
        · subst hab
          rw [hq] at ho
          rcases List.mem_cons.mp ho with rfl | ho
          · refine Or.inl ⟨a, ?_⟩
            dsimp only
            rw [Function.update_self]
            exact has_receive hbrings
          · refine Or.inr ⟨a, hb, o, MessageBus.subset_inbox_sendAll _ _ a ?_, hbrings⟩
            rwa [MessageBus.inbox_set, if_pos rfl]
        · refine Or.inr ⟨b, hb, o, MessageBus.subset_inbox_sendAll _ _ b ?_, hbrings⟩
          rwa [MessageBus.inbox_set, if_neg hab]

/-! ### An id that is new -/

theorem Fresh.about (h : s.Fresh x) : About x Q s where
  inflight := fun b => by
    cases hget : (s.nodes b).inflight.get? x with
    | none => rfl
    | some m =>
      have hstored : m ∈ (s.nodes b).stored :=
        List.mem_append_right _ (Keyed.mem_values_of_get? hget)
      exact absurd (Keyed.key_of_get? hget) (h.nodes b m (occurring_of_stored hstored))
  nodes := fun b m hm hid => absurd hid (h.nodes b m hm)
  inbox := fun b o ho hnames => absurd hnames (h.inbox b o ho)

/-- A consumer takes only what is there. -/
theorem Fresh.takes_eq (h : s.Fresh x) (e : Event NodeId Value) : takes x s e = false := by
  unfold takes
  split
  · next a inp bus hinput =>
    refine Bool.eq_false_iff.mpr fun htakes => ?_
    obtain ⟨m, hm, hid⟩ := exists_of_takes htakes
    exact h.nodes a m hm hid
  · rfl

/-- An event that does not draw the id brings in nothing about it. -/
theorem Fresh.step (h : s.Fresh x) (hstep : step ms s e = some s') (hdrawn : drawn e ≠ some x) :
    s'.Fresh x := by
  have habout : About x (fun _ => False) s' :=
    h.about.step hstep (drawsOnly_of_drawn hdrawn) (h.takes_eq e)
  refine ⟨fun b m hm hid => habout.nodes b m hm hid, fun b o ho hnames => ?_⟩
  obtain ⟨m, -, hfalse, -⟩ := (habout.inbox b o ho hnames).exists_message
  exact hfalse

theorem Fresh.not_holds (h : s.Fresh msg.msgId) : ¬ Holds msg s := by
  rintro (⟨b, m, hm, hbody⟩ | ⟨b, -, o, ho, hbrings⟩)
  · refine h.nodes b m ?_ (QueueMessage.msgId_eq_of_body hbody)
    rcases List.mem_append.mp hm with hm | hm
    · exact occurring_of_stored (List.mem_append_left _ hm)
    · exact mem_occurring.mpr (Or.inr (Or.inl hm))
  · obtain ⟨m, -, hbody, hnames⟩ := hbrings.exists_message
    exact h.inbox b o ho (QueueMessage.msgId_eq_of_body hbody ▸ hnames)

/-! ### `enqueue` and what follows -/

/-- The id that `enqueue` returns when it has made the message. -/
theorem enqueue_fst {a : NodeId} {msgId queue : String} {payload : Value}
    {partitionKey : Option String}
    (hmsg : newMessage (ms.config a) msgId queue payload partitionKey = some msg) :
    (enqueue ms a msgId queue payload partitionKey s).1 = msgId := by
  unfold enqueue QueueNode.enqueue
  rw [hmsg]

/-- After an `enqueue` that reaches a node the message is held. -/
theorem holds_enqueue {a : NodeId} {queue : String} {payload : Value}
    {partitionKey : Option String}
    (hmsg : newMessage (ms.config a) msg.msgId queue payload partitionKey = some msg)
    (hr : Reaches a msg s) :
    Holds msg (enqueue ms a msg.msgId queue payload partitionKey s).2 := by
  by_cases hself : a ∈ msg.targets
  · refine Or.inl ⟨a, ?_⟩
    show (Function.update s.nodes a _ a).Has msg
    rw [Function.update_self]
    exact enqueue_has hmsg hself
  · obtain ⟨b, hb, hacc⟩ := hr.resolve_left hself
    obtain ⟨m, hm, hin⟩ := MessageBus.exists_mem_inbox_sendAll _ s.bus
      (fun m hm => (enqueue_sends hmsg hm).1) hacc ((enqueue_of_not_mem hmsg hself).2 b hb)
    exact Or.inr ⟨b, hb, m, hin, (enqueue_sends hmsg hm).2.2⟩

theorem about_enqueue {a : NodeId} {queue : String} {payload : Value}
    {partitionKey : Option String}
    (hmsg : newMessage (ms.config a) msg.msgId queue payload partitionKey = some msg)
    (hfresh : s.Fresh msg.msgId) : About msg.msgId (· = msg.body)
      (enqueue ms a msg.msgId queue payload partitionKey s).2 := by
  refine hfresh.about.step (step_enqueue ms a msg.msgId queue payload partitionKey s) ?_
    (hfresh.takes_eq _)
  rintro b inp bus hinput m ⟨y, q, p, key, rfl, hm⟩ -
  cases hinput
  rw [hmsg] at hm
  cases hm
  rfl

/-- An `enqueue` that reaches no node leaves the system as it is. -/
theorem enqueue_of_not_reaches {a : NodeId} {msgId queue : String} {payload : Value}
    {partitionKey : Option String}
    (hmsg : newMessage (ms.config a) msgId queue payload partitionKey = some msg)
    (hr : ¬ Reaches a msg s) : (enqueue ms a msgId queue payload partitionKey s).2 = s := by
  obtain ⟨hself, hacc⟩ := not_or.mp hr
  have hnode := (enqueue_of_not_mem (s := s.nodes a) hmsg hself).1
  have hbus : s.bus.sendAll
      (QueueNode.enqueue (ms.config a) msgId queue payload partitionKey (s.nodes a)).2.2 =
      s.bus := by
    refine MessageBus.sendAll_of_not_accepts _ _ fun m hm hacc' => ?_
    obtain ⟨hsender, hreceiver, -⟩ := enqueue_sends hmsg hm
    rw [hsender] at hacc'
    exact hacc ⟨_, hreceiver, hacc'⟩
  unfold enqueue
  dsimp only
  rw [hbus, hnode, Function.update_eq_self]

/-- The nodes and the bus while `enqueue` sleeps. -/
abbrev Sleep (ms : Members NodeId) (s : System NodeId Value) := Run (step ms) s

/-- While `enqueue` sleeps, a consumer takes a message with this id. -/
def Sleep.Takes {s : System NodeId Value} (sleep : Sleep ms s) (x : String) : Prop :=
  ∃ i < sleep.length, takes x (sleep.state i) (sleep.event i) = true

/-- **An accepted message is stored somewhere exactly when it reaches a node**: whenever `enqueue`
returns an id, and whatever happens while it sleeps, the message is held exactly when the ring names
the caller or a node that takes a message of the caller, unless a consumer takes it meanwhile; and a
message that reaches nobody is neither held nor taken. -/
theorem enqueue_stored_iff {a : NodeId} {msgId queue : String} {payload : Value}
    {partitionKey : Option String} {x : String} {s s' : System NodeId Value}
    (hfresh : s.Fresh msgId) (h : enqueue ms a msgId queue payload partitionKey s = (x, s'))
    (hx : x ≠ "") (sleep : Sleep ms s')
    (hids : ∀ i < sleep.length, drawn (sleep.event i) ≠ some msgId) :
    ∃ msg, newMessage (ms.config a) msgId queue payload partitionKey = some msg ∧ msg.msgId = x ∧
      (¬ sleep.Takes x → (Holds msg (sleep.state sleep.length) ↔ Reaches a msg s)) ∧
      (Holds msg (sleep.state sleep.length) ∨ sleep.Takes x → Reaches a msg s) := by
  obtain ⟨hx', rfl⟩ : (enqueue ms a msgId queue payload partitionKey s).1 = x ∧
      (enqueue ms a msgId queue payload partitionKey s).2 = s' := by
    rw [h]
    exact ⟨rfl, rfl⟩
  cases hmsg : newMessage (ms.config a) msgId queue payload partitionKey with
  | none =>
    -- without a node for the message nothing but the empty id is returned
    refine absurd (hx'.symm.trans ?_) hx
    unfold enqueue QueueNode.enqueue
    rw [hmsg]
  | some msg =>
    obtain rfl := msgId_newMessage hmsg
    obtain rfl := (enqueue_fst hmsg).symm.trans hx'
    refine ⟨msg, rfl, rfl, ?_⟩
    by_cases hr : Reaches a msg s
    · refine ⟨fun hnot => iff_of_true ?_ hr, fun _ => hr⟩
      have hquiet : ∀ i < sleep.length, drawn (sleep.event i) ≠ some msg.msgId ∧
          takes msg.msgId (sleep.state i) (sleep.event i) = false :=
        fun i hi => ⟨hids i hi, Bool.eq_false_iff.mpr fun htakes => hnot ⟨i, hi, htakes⟩⟩
      have hall := sleep.invariant_of
        (P := fun t => About msg.msgId (· = msg.body) t ∧ Holds msg t) (G := fun t e =>
          drawn e ≠ some msg.msgId ∧ takes msg.msgId t e = false) hquiet
        ⟨about_enqueue hmsg hfresh, holds_enqueue hmsg hr⟩
        (fun t e t' ht hg hstep =>
          ⟨ht.1.step hstep (drawsOnly_of_drawn hg.1) hg.2,
            holds_step ht.1 ht.2 hstep (drawsOnly_of_drawn hg.1) hg.2⟩)
      exact (hall sleep.length le_rfl).2
    · have hstart := enqueue_of_not_reaches hmsg hr
      have hall := sleep.invariant_of (P := fun t => t.Fresh msg.msgId)
        (G := fun _ e => drawn e ≠ some msg.msgId) hids (hstart.symm ▸ hfresh)
        (fun t e t' ht hg hstep => ht.step hstep hg)
      have hnot := (hall sleep.length le_rfl).not_holds
      refine ⟨fun _ => iff_of_false hnot hr, ?_⟩
      rintro (hholds | ⟨i, hi, htakes⟩)
      · exact absurd hholds hnot
      · rw [(hall i hi.le).takes_eq] at htakes
        cases htakes

end System

/-! ## A caller that is cut off -/

/-- Node 2 enqueues messages whose primary is node 1 and whose replica node 0 keeps. -/
def outside : Members (Fin 3) where
  peers := fun a => (List.finRange 3).filter fun b => b ≠ a
  getNNodes := fun _ _ n => [1, 0].take n
  replicationFactor := fun _ => 2
  visibilityTimeout := fun _ => 30

/-- Three nodes with empty inboxes, with these nodes partitioned. -/
def partitioned (ps : Finset (Fin 3)) : System (Fin 3) ℕ where
  nodes := fun _ => {}
  bus := { channels := Dict.empty.setAll [0, 1, 2] [], partitions := ps }

theorem fresh_partitioned (ps : Finset (Fin 3)) (x : String) :
    System.Fresh x (partitioned ps) := by
  have hempty : ∀ b, (partitioned ps).bus.inbox b = [] := by
    intro b
    match b with
    | 0 | 1 | 2 => rfl
  refine ⟨fun _ m hm => (by cases hm), fun b o ho => ?_⟩
  rw [hempty b] at ho
  cases ho

/-- The message that node 2 makes. -/
def parcel : QueueMessage (Fin 3) ℕ :=
  { msgId := "m", queue := "orders", partitionKey := "m", payload := 1, primaryNode := some 1,
    replicas := [0] }

/-- The system after node 2 has made the message. -/
def posted (ps : Finset (Fin 3)) : System (Fin 3) ℕ :=
  (System.enqueue outside 2 "m" "orders" 1 none (partitioned ps)).2

/-- With the primary partitioned, the node with the replica stores it during the sleep, and a client
looks for a message there. -/
def slept : System.Sleep outside (posted {1}) :=
  Run.ofEvents _ _ [.dispatch 0 0, .call 0 (.dequeue "orders" 0 0)] (.dispatch 0 0)
    (by decide +kernel)

theorem enqueue_stored_iff_partitioned :
    ∃ msg, newMessage (outside.config 2) "m" "orders" 1 none = some msg ∧ msg.msgId = "m" ∧
      (¬ slept.Takes "m" → (System.Holds msg (slept.state slept.length) ↔
        System.Reaches 2 msg (partitioned {1}))) ∧
      (System.Holds msg (slept.state slept.length) ∨ slept.Takes "m" →
        System.Reaches 2 msg (partitioned {1})) :=
  System.enqueue_stored_iff (fresh_partitioned {1} "m") rfl (by decide) slept (by decide +kernel)

/-- With the other node partitioned, a client takes the message from its primary during the sleep.
-/
def taken : System.Sleep outside (posted {0}) :=
  Run.ofEvents _ _ [.dispatch 1 0, .call 1 (.dequeue "orders" 0 0)] (.dispatch 1 0)
    (by decide +kernel)

-- It is only inflight when its id is returned.
example : ∀ b, ((taken.state 2).nodes b).pending = [] ∧
    ((taken.state 2).nodes b).replicas.values = [] ∧ (taken.state 2).bus.inbox b = [] := by
  decide +kernel

/-- With the caller partitioned `enqueue` returns the id, and the message is nowhere. -/
theorem parcel_lost : newMessage (outside.config 2) "m" "orders" 1 none = some parcel ∧
    (System.enqueue outside 2 "m" "orders" 1 none (partitioned {2})).1 = "m" ∧
    ¬ System.Holds parcel (System.enqueue outside 2 "m" "orders" 1 none (partitioned {2})).2 := by
  have hmade : newMessage (outside.config 2) "m" "orders" 1 none = some parcel := by decide
  have hnobody : ¬ System.Reaches 2 parcel (partitioned {2}) := by decide
  refine ⟨hmade, by decide, ?_⟩
  rw [System.enqueue_of_not_reaches hmade hnobody]
  exact (fresh_partitioned {2} "m").not_holds

end Queue
