import Terdistribusi.Queue.Cluster
import Terdistribusi.Queue.Properties.Stored

/-!
# Where messages come from

Nodes pass messages on and store them, and change nothing but their delivery state and, in a
promotion, their primary. So every message anywhere in a cluster has been made by an `enqueue`
(`made`), and when ids are unique two messages with one id are the same in everything else
(`Made.body_eq`).
-/

namespace Queue

open Infra

variable {NodeId Value : Type}

namespace QueueMessage

/-- What a message is on all of its way. -/
def body (msg : QueueMessage NodeId Value) : QueueMessage NodeId Value :=
  { msg.undelivered with primaryNode := none }

@[simp] theorem body_promote (msg : QueueMessage NodeId Value) (a : NodeId) :
    (msg.promote a).body = msg.body := rfl

@[simp] theorem msgId_promote (msg : QueueMessage NodeId Value) (a : NodeId) :
    (msg.promote a).msgId = msg.msgId := rfl

theorem body_eq_of_undelivered {msg msg' : QueueMessage NodeId Value}
    (h : msg.undelivered = msg'.undelivered) : msg.body = msg'.body := by
  unfold body
  rw [h]

theorem msgId_eq_of_body {msg msg' : QueueMessage NodeId Value} (h : msg.body = msg'.body) :
    msg.msgId = msg'.msgId := by
  have hid := congrArg msgId h
  exact hid

theorem replicas_eq_of_body {msg msg' : QueueMessage NodeId Value} (h : msg.body = msg'.body) :
    msg.replicas = msg'.replicas := by
  have hreplicas := congrArg replicas h
  exact hreplicas

end QueueMessage

/-- The message that a record holds. -/
def Record.message : Record NodeId Value → Option (QueueMessage NodeId Value)
  | .enqueue message | .replicate message => some message
  | .ack _ => none

/-- The message that a payload carries. -/
def Payload.message : Payload NodeId Value → Option (QueueMessage NodeId Value)
  | .queueEnqueue message _ | .queueReplicate message => some message
  | .queueDequeue _ | .queueAck _ => none

namespace QueueNode

/-! ## What a node has -/

/-- All messages of a node: what it stores, its replicas and its log. -/
def occurring (s : QueueNode NodeId Value) : List (QueueMessage NodeId Value) :=
  s.stored ++ s.replicas.values ++ s.log.filterMap Record.message

theorem mem_occurring {s : QueueNode NodeId Value} {msg : QueueMessage NodeId Value} :
    msg ∈ s.occurring ↔
      msg ∈ s.stored ∨ msg ∈ s.replicas.values ∨ ∃ r ∈ s.log, r.message = some msg := by
  rw [occurring, List.mem_append, List.mem_append, List.mem_filterMap, or_assoc]

theorem occurring_of_stored {s : QueueNode NodeId Value} {msg : QueueMessage NodeId Value}
    (h : msg ∈ s.stored) : msg ∈ s.occurring :=
  mem_occurring.mpr (Or.inl h)

/-- Every message of `s'` was in `s`, up to delivery and promotion. -/
def Derives (s s' : QueueNode NodeId Value) : Prop :=
  ∀ msg ∈ s'.occurring, ∃ msg₀ ∈ s.occurring, msg₀.body = msg.body

theorem Derives.refl (s : QueueNode NodeId Value) : Derives s s := fun msg h => ⟨msg, h, rfl⟩

theorem Derives.trans {s t u : QueueNode NodeId Value} (h : Derives s t) (h' : Derives t u) :
    Derives s u := by
  intro msg hmsg
  obtain ⟨m, hm, heq⟩ := h' msg hmsg
  obtain ⟨m₀, hm₀, heq₀⟩ := h m hm
  exact ⟨m₀, hm₀, heq₀.trans heq⟩

theorem Derives.of_subset {s s' : QueueNode NodeId Value} (h : s'.occurring ⊆ s.occurring) :
    Derives s s' :=
  fun msg hmsg => ⟨msg, h hmsg, rfl⟩

theorem Keeps.derives {s s' : QueueNode NodeId Value} (h : Keeps s s') : Derives s s' := by
  intro msg hmsg
  rcases mem_occurring.mp hmsg with hmsg | hmsg
  · obtain ⟨msg₀, hmsg₀, heq⟩ := h.undelivered msg hmsg
    exact ⟨msg₀, occurring_of_stored hmsg₀, QueueMessage.body_eq_of_undelivered heq⟩
  · rw [h.replicas, h.log] at hmsg
    exact ⟨msg, mem_occurring.mpr (Or.inr hmsg), rfl⟩

theorem mem_occurring_storeLocal {s : QueueNode NodeId Value} {msg m : QueueMessage NodeId Value}
    (h : m ∈ (s.storeLocal msg).occurring) : m = msg ∨ m ∈ s.occurring := by
  rcases mem_occurring.mp h with hm | hm | ⟨r, hr, hm⟩
  · exact (List.mem_cons.mp ((s.stored_append msg).mem_iff.mp hm)).imp_right occurring_of_stored
  · exact Or.inr (mem_occurring.mpr (Or.inr (Or.inl hm)))
  · rcases List.mem_append.mp hr with hr | hr
    · exact Or.inr (mem_occurring.mpr (Or.inr (Or.inr ⟨r, hr, hm⟩)))
    · rw [List.mem_singleton.mp hr] at hm
      exact Or.inl (Option.some.inj hm).symm

theorem mem_occurring_storeReplica {s : QueueNode NodeId Value}
    {msg m : QueueMessage NodeId Value} (h : m ∈ (s.storeReplica msg).occurring) :
    m = msg ∨ m ∈ s.occurring := by
  rcases mem_occurring.mp h with hm | hm | ⟨r, hr, hm⟩
  · exact Or.inr (occurring_of_stored hm)
  · exact (Keyed.mem_values_put hm).imp_right fun hm => mem_occurring.mpr (Or.inr (Or.inl hm))
  · rcases List.mem_append.mp hr with hr | hr
    · exact Or.inr (mem_occurring.mpr (Or.inr (Or.inr ⟨r, hr, hm⟩)))
    · rw [List.mem_singleton.mp hr] at hm
      exact Or.inl (Option.some.inj hm).symm

theorem Removes.derives {s s' : QueueNode NodeId Value} {x : String} (h : Removes x s s') :
    Derives s s' := by
  refine Derives.of_subset fun m hm => mem_occurring.mpr ?_
  rcases mem_occurring.mp hm with hm | hm | ⟨r, hr, hm⟩
  · exact Or.inl (h.stored hm)
  · exact Or.inr (Or.inl (Keyed.mem_values_iff.mpr (h.replicas_get? (Keyed.mem_values_iff.mp hm))))
  · rw [h.log] at hr
    rcases List.mem_append.mp hr with hr | hr
    · exact Or.inr (Or.inr ⟨r, hr, hm⟩)
    · rw [List.mem_singleton.mp hr] at hm
      cases hm

variable [DecidableEq NodeId] {cfg : Config NodeId}

theorem promote_replicas {b : NodeId} (s : QueueNode NodeId Value)
    (msg : QueueMessage NodeId Value) (x : String) (hx : msg.msgId ≠ x) :
    (promote cfg b s msg).replicas.get? x = s.replicas.get? x := by
  rw [promote]
  split
  · exact (Keyed.get?_pop s.replicas _ x).trans (if_neg hx)
  · rfl

theorem promote_derives {b : NodeId} {s : QueueNode NodeId Value}
    {msg : QueueMessage NodeId Value} (h : s.replicas.get? msg.msgId = some msg) :
    Derives s (promote cfg b s msg) := by
  rw [promote]
  split
  · intro m hm
    rcases mem_occurring.mp hm with hm | hm | hm
    · rcases List.mem_cons.mp ((s.stored_append _).mem_iff.mp hm) with rfl | hm
      · exact ⟨msg, mem_occurring.mpr (Or.inr (Or.inl (Keyed.mem_values_of_get? h))), by simp⟩
      · exact ⟨m, occurring_of_stored hm, rfl⟩
    · exact ⟨m, mem_occurring.mpr (Or.inr (Or.inl (Keyed.mem_values_pop.mp hm).1)), rfl⟩
    · exact ⟨m, mem_occurring.mpr (Or.inr (Or.inr hm)), rfl⟩
  · exact Derives.refl s

theorem onPeerFailure_derives (b : NodeId) (s : QueueNode NodeId Value) :
    Derives s (onPeerFailure cfg b s) :=
  Keyed.foldl_values Derives.refl (fun _ _ _ => Derives.trans) promote_replicas
    (fun _ _ => promote_derives) s

/-! ## What an input brings -/

variable {s : QueueNode NodeId Value}
  {inp : Input NodeId (Call NodeId Value) Time (Payload NodeId Value)}
  {Q : QueueMessage NodeId Value → Prop}

/-- What holds of the messages of a node, of the message it makes and of the one it receives holds
of its messages afterwards. -/
theorem act_occurring (hs : ∀ msg ∈ s.occurring, Q msg.body)
    (hdraws : ∀ msg, Draws cfg inp msg → Q msg.body)
    (hreceived : ∀ now m msg, inp = .receive now m → m.payload.message = some msg → Q msg.body) :
    ∀ msg ∈ (act cfg inp s).1.occurring, Q msg.body := by
  have hderives : ∀ s', Derives s s' → ∀ msg ∈ s'.occurring, Q msg.body := by
    intro s' h msg hmsg
    obtain ⟨msg₀, hmsg₀, heq⟩ := h msg hmsg
    rw [← heq]
    exact hs msg₀ hmsg₀
  refine act_induction inp hs (fun s' h => hderives s' h.derives) ?_ ?_
    (fun x s' _ _ h => hderives s' h.derives)
    (fun now m x _ _ => hderives _ (handleAck_removes x s).derives)
    (fun b _ => hderives _ (onPeerFailure_derives b s))
  · intro t msg hmsg ht m hm
    rcases mem_occurring_storeLocal hm with rfl | hm
    · rcases hmsg with hdraw | ⟨now, o, d, hinp, hp⟩
      · exact hdraws m hdraw
      · exact hreceived now o m hinp (by rw [hp]; rfl)
    · exact ht m hm
  · intro t msg hmsg ht m hm
    rcases mem_occurring_storeReplica hm with rfl | hm
    · rcases hmsg with ⟨hdraw, -⟩ | ⟨now, o, hinp, hp⟩
      · exact hdraws m hdraw
      · exact hreceived now o m hinp (by rw [hp]; rfl)
    · exact ht m hm

/-- The messages that `enqueue` sends. -/
theorem mem_enqueue {msgId queue : String} {payload : Value} {partitionKey : Option String}
    {o : Message NodeId (Payload NodeId Value)}
    (ho : o ∈ (enqueue cfg msgId queue payload partitionKey s).2.2) :
    ∃ msg, newMessage cfg msgId queue payload partitionKey = some msg ∧
      (o.payload = .queueEnqueue msg false ∧ msg.primaryNode = some o.receiverId ∨
        o.payload = .queueReplicate msg ∧ o.receiverId ∈ msg.replicas) := by
  unfold enqueue at ho
  split at ho
  · cases ho
  · next msg hmsg =>
    refine ⟨msg, hmsg, ?_⟩
    rcases List.mem_append.mp ho with ho | ho
    · unfold place at ho
      split at ho
      · cases ho
      · obtain ⟨-, hp, hr⟩ := Network.mem_broadcast.mp ho
        exact Or.inl ⟨hp, Option.mem_toList.mp hr⟩
    · obtain ⟨-, hp, hr⟩ := Network.mem_broadcast.mp ho
      exact Or.inr ⟨hp, (List.mem_filter.mp hr).1⟩

omit [DecidableEq NodeId] in
theorem mem_dequeue {queue : String} {now now' : Time} {o : Message NodeId (Payload NodeId Value)}
    (ho : o ∈ (dequeue cfg queue now now' s).2.2) : o.payload = .queueDequeue queue := by
  unfold dequeue at ho
  split at ho
  · cases ho
  · exact (Network.mem_broadcast.mp ho).2.1

theorem mem_ack {x : String} {o : Message NodeId (Payload NodeId Value)}
    (ho : o ∈ (ack cfg x s).2.2) : o.payload = .queueAck x := by
  rcases ack_cases cfg x s with ⟨-, heq⟩ | ⟨msg, -, -, -, heq⟩
  · rw [heq] at ho
    cases ho
  · rw [heq] at ho
    exact (Network.mem_broadcast.mp ho).2.1

omit [DecidableEq NodeId] in
/-- The reply to a dequeue request carries a message that stays inflight. -/
theorem mem_handleDequeue {senderId : NodeId} {queue : String} {now : Time}
    {o : Message NodeId (Payload NodeId Value)}
    (ho : o ∈ (handleDequeue cfg senderId queue now s).2) :
    ∃ msg ∈ (handleDequeue cfg senderId queue now s).1.stored,
      o.payload = .queueEnqueue msg true := by
  unfold handleDequeue at ho ⊢
  split at ho
  · next msg s' hpop => exact ⟨msg, popLocal_inflight cfg hpop, (Network.mem_broadcast.mp ho).2.1⟩
  · cases ho

/-- **What a node sends**: a message that it has just made, to its primary or to one of its
replicas, a stored one in the reply to a dequeue request, or no message at all. -/
theorem act_sends_cases {o : Message NodeId (Payload NodeId Value)} (ho : o ∈ (act cfg inp s).2) :
    (∃ msg, Draws cfg inp msg ∧
      (o.payload = .queueEnqueue msg false ∧ msg.primaryNode = some o.receiverId ∨
        o.payload = .queueReplicate msg ∧ o.receiverId ∈ msg.replicas)) ∨
      (∃ msg ∈ (act cfg inp s).1.stored, o.payload = .queueEnqueue msg true) ∨
        o.payload.message = none := by
  cases inp with
  | call c =>
    cases c with
    | enqueue msgId queue payload partitionKey =>
      obtain ⟨msg, hnew, hsent⟩ := mem_enqueue ho
      exact Or.inl ⟨msg, ⟨_, _, _, _, rfl, hnew⟩, hsent⟩
    | dequeue queue now now' =>
      refine Or.inr (Or.inr ?_)
      rw [mem_dequeue ho]
      rfl
    | ack x =>
      refine Or.inr (Or.inr ?_)
      rw [mem_ack ho]
      rfl
    | requeueExpiredInflight now => cases ho
    | onPeerFailure b => cases ho
  | receive now m =>
    obtain ⟨senderId, receiverId, payload⟩ := m
    cases payload with
    | queueDequeue queue => exact Or.inr (Or.inl (mem_handleDequeue ho))
    | queueEnqueue message delivered => cases ho
    | queueReplicate message => cases ho
    | queueAck x => cases ho

/-- The messages that a node sends on. -/
theorem act_sends {o : Message NodeId (Payload NodeId Value)} {msg : QueueMessage NodeId Value}
    (ho : o ∈ (act cfg inp s).2) (hmsg : o.payload.message = some msg) :
    Draws cfg inp msg ∨ msg ∈ (act cfg inp s).1.occurring := by
  rcases act_sends_cases ho with ⟨m, hdraw, ⟨hp, -⟩ | ⟨hp, -⟩⟩ | ⟨m, hstored, hp⟩ | hnone
  · rw [hp] at hmsg
    cases hmsg
    exact Or.inl hdraw
  · rw [hp] at hmsg
    cases hmsg
    exact Or.inl hdraw
  · rw [hp] at hmsg
    cases hmsg
    exact Or.inr (occurring_of_stored hstored)
  · rw [hnone] at hmsg
    cases hmsg

end QueueNode

open QueueNode

/-! ## In a cluster -/

variable [DecidableEq NodeId] {ms : Members NodeId} (run : ClusterRun ms Value)

/-- An `enqueue` before time `i` has made the message. -/
def Made (i : ℕ) (msg : QueueMessage NodeId Value) : Prop :=
  ∃ j < i, ∃ msg₀, ms.enqueued (run.event j) = some msg₀ ∧ msg₀.body = msg.body

variable {run}

theorem Made.succ {i : ℕ} {msg : QueueMessage NodeId Value} (h : Made run i msg) :
    Made run (i + 1) msg := by
  obtain ⟨j, hj, hmsg⟩ := h
  exact ⟨j, by omega, hmsg⟩

/-- All messages of the cluster have been made by an `enqueue`. -/
structure AllMade (run : ClusterRun ms Value) (i : ℕ) : Prop where
  nodes : ∀ a, ∀ msg ∈ ((run.state i).nodes a).occurring, Made run i msg
  inbox : ∀ a, ∀ o ∈ (run.state i).inbox a, ∀ msg, o.payload.message = some msg → Made run i msg

theorem made (run : ClusterRun ms Value) : ∀ i ≤ run.length, AllMade run i := by
  refine run.induction ?_ (fun i hi ih => ?_)
  · constructor
    · intro a msg hmsg
      rw [run.state_zero] at hmsg
      cases hmsg
    · intro a o ho
      rw [run.state_zero] at ho
      cases ho
  · have hsucc := Network.everywhere_succ
      (N := fun _ s => ∀ msg ∈ s.occurring, Made run (i + 1) msg)
      (M := fun _ o => ∀ msg, o.payload.message = some msg → Made run (i + 1) msg)
      (run.state_succ i hi) (fun a msg hmsg => (ih.nodes a msg hmsg).succ)
      (fun a o ho msg hmsg => (ih.inbox a o ho msg hmsg).succ) (fun a inp hinput hreceived => ?_)
    · exact ⟨hsucc.1, hsucc.2⟩
    · have hdraws : ∀ msg, Draws (ms.config a) inp msg → Made run (i + 1) msg := by
        rintro msg ⟨msgId, queue, payload, partitionKey, rfl, hnew⟩
        refine ⟨i, i.lt_succ_self, msg, ?_, rfl⟩
        rw [Network.input?_call hinput]
        exact hnew
      have hacting : ∀ msg ∈ (ms.act a inp ((run.state i).nodes a)).1.occurring,
          Made run (i + 1) msg :=
        act_occurring (Q := Made run (i + 1)) (fun msg hmsg => (ih.nodes a msg hmsg).succ) hdraws
          (fun now m msg hinp hmsg => hreceived now m hinp msg hmsg)
      refine ⟨hacting, fun o ho msg hmsg => ?_⟩
      rcases act_sends ho hmsg with hdraw | hocc
      · exact hdraws msg hdraw
      · exact hacting msg hocc

/-! ## Unique ids -/

omit [DecidableEq NodeId] in
theorem drawn_of_enqueued {e : Event NodeId Value} {msg : QueueMessage NodeId Value}
    (h : ms.enqueued e = some msg) : ClusterRun.drawn e = some msg.msgId := by
  unfold Members.enqueued at h
  split at h
  · rw [msgId_newMessage h]
    rfl
  · cases h

theorem drawnIds_succ (run : ClusterRun ms Value) (i : ℕ) :
    run.drawnIds (i + 1) = run.drawnIds i ++ (ClusterRun.drawn (run.event i)).toList := by
  unfold ClusterRun.drawnIds
  rw [List.range_succ, List.filterMap_append]
  cases h : ClusterRun.drawn (run.event i) with
  | none => simp [h]
  | some x => simp [h]

theorem drawnIds_nodup {run : ClusterRun ms Value} (hids : run.UniqueIds) {i : ℕ}
    (hi : i ≤ run.length) : (run.drawnIds i).Nodup :=
  hids.sublist ((List.range_sublist.mpr hi).filterMap _)

theorem mem_drawnIds {run : ClusterRun ms Value} {i : ℕ} {x : String} :
    x ∈ run.drawnIds i ↔ ∃ j < i, ClusterRun.drawn (run.event j) = some x := by
  simp [ClusterRun.drawnIds, List.mem_filterMap]

/-- The id of a message was drawn by the `enqueue` that made it. -/
theorem Made.mem_drawnIds {run : ClusterRun ms Value} {i : ℕ} {msg : QueueMessage NodeId Value}
    (h : Made run i msg) : msg.msgId ∈ run.drawnIds i := by
  obtain ⟨j, hj, msg₀, hmsg₀, hbody⟩ := h
  refine Queue.mem_drawnIds.mpr ⟨j, hj, ?_⟩
  rw [drawn_of_enqueued hmsg₀, QueueMessage.msgId_eq_of_body hbody]

/-- With unique ids, a new id has not been drawn before. -/
theorem not_mem_drawnIds {run : ClusterRun ms Value} (hids : run.UniqueIds) {i : ℕ}
    (hi : i < run.length) {x : String} (hx : ClusterRun.drawn (run.event i) = some x) :
    x ∉ run.drawnIds i := by
  intro hmem
  have hnodup := drawnIds_nodup hids (Nat.succ_le_of_lt hi)
  rw [drawnIds_succ, hx] at hnodup
  exact List.disjoint_of_nodup_append hnodup hmem List.mem_cons_self

/-- With unique ids, an id is drawn in one step only. -/
theorem drawn_inj {run : ClusterRun ms Value} (hids : run.UniqueIds) {i j : ℕ}
    (hi : i < run.length) (hj : j < run.length) {x : String}
    (hxi : ClusterRun.drawn (run.event i) = some x)
    (hxj : ClusterRun.drawn (run.event j) = some x) : i = j := by
  rcases Nat.lt_trichotomy i j with hij | hij | hij
  · exact absurd (mem_drawnIds.mpr ⟨i, hij, hxi⟩) (not_mem_drawnIds hids hj hxj)
  · exact hij
  · exact absurd (mem_drawnIds.mpr ⟨j, hij, hxj⟩) (not_mem_drawnIds hids hi hxi)

/-- With unique ids, messages with one id are one message. -/
theorem Made.body_eq {run : ClusterRun ms Value} (hids : run.UniqueIds) {i : ℕ}
    (hi : i ≤ run.length) {msg msg' : QueueMessage NodeId Value} (h : Made run i msg)
    (h' : Made run i msg') (hid : msg.msgId = msg'.msgId) : msg.body = msg'.body := by
  obtain ⟨j, hj, msg₀, hmsg₀, hbody⟩ := h
  obtain ⟨j', hj', msg₀', hmsg₀', hbody'⟩ := h'
  have hdrawn := drawn_of_enqueued hmsg₀
  have hdrawn' := drawn_of_enqueued hmsg₀'
  rw [QueueMessage.msgId_eq_of_body hbody, hid, ← QueueMessage.msgId_eq_of_body hbody'] at hdrawn
  obtain rfl := drawn_inj hids (by omega) (by omega) hdrawn hdrawn'
  rw [hmsg₀] at hmsg₀'
  cases hmsg₀'
  exact hbody.symm.trans hbody'

end Queue
