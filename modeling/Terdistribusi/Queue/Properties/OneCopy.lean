import Terdistribusi.Queue.Properties.Origin
import Terdistribusi.Infra.Tally

/-!
# When there is one live copy

A message moves from the node that enqueues it to its primary, and there between the queue and the
inflight table. Each of these steps takes away where it adds. The exception is the reply to a
dequeue request of another node: it carries a message that stays inflight, and its receiver stores
it with `_store_local` like a new message, whatever the flag `delivered` says.

* `act_count` — what one input does to the number of copies
* `one_copy` — one copy at most, exactly when no copy is handed over to another node
-/

namespace Queue

open Infra QueueNode

variable {NodeId Value : Type}

/-! ## Counting -/

/-- A QUEUE_ENQUEUE message with the id counts as one. -/
def carries (x : String) (o : Message NodeId (Payload NodeId Value)) : ℕ :=
  match o.payload with
  | .queueEnqueue msg _ => if msg.msgId = x then 1 else 0
  | _ => 0

/-- How often the id occurs in the queues and inflight tables of all nodes and in the QUEUE_ENQUEUE
messages in flight. -/
def copies [Fintype NodeId] (x : String) (s : Cluster NodeId Value) : ℕ :=
  Network.total (fun n : QueueNode NodeId Value => n.ids.count x) (carries x) s

/-- An input that draws the id counts as one. -/
def draws (x : String) : Input NodeId (Call NodeId Value) Time (Payload NodeId Value) → ℕ
  | .call (.enqueue msgId _ _ _) => if msgId = x then 1 else 0
  | _ => 0

/-- An `ack` that returns `True` for the id counts as one. -/
def acks (x : String) (s : QueueNode NodeId Value) :
    Input NodeId (Call NodeId Value) Time (Payload NodeId Value) → ℕ
  | .call (.ack y) => if y = x ∧ (s.inflight.get? y).isSome then 1 else 0
  | _ => 0

/-- The message that a dequeue request of another node takes away. -/
def requested (s : QueueNode NodeId Value) :
    Input NodeId (Call NodeId Value) Time (Payload NodeId Value) →
      Option (QueueMessage NodeId Value)
  | .receive now m =>
    match m.payload with
    | .queueDequeue queue => s.firstVisible queue now
    | _ => none
  | _ => none

namespace QueueNode

theorem count_ids_append (x : String) (s : QueueNode NodeId Value)
    (msg : QueueMessage NodeId Value) :
    (s.append msg).ids.count x = s.ids.count x + if msg.msgId = x then 1 else 0 := by
  rw [(s.ids_append msg).count_eq, List.count_cons]
  simp

theorem sum_carries_eq_zero {x : String} {out : List (Message NodeId (Payload NodeId Value))}
    (h : ∀ o ∈ out, ∀ msg d, o.payload ≠ .queueEnqueue msg d) : (out.map (carries x)).sum = 0 := by
  refine List.sum_eq_zero fun k hk => ?_
  obtain ⟨o, ho, rfl⟩ := List.mem_map.mp hk
  unfold carries
  split
  · next msg d hp => exact absurd hp (h o ho msg d)
  · rfl

variable [DecidableEq NodeId] {cfg : Config NodeId} {x : String} {s : QueueNode NodeId Value}

theorem placeReplicas_stored (msg : QueueMessage NodeId Value) (s : QueueNode NodeId Value) :
    (placeReplicas cfg msg s).1.stored = s.stored :=
  List.foldlRecOn (motive := fun t : QueueNode NodeId Value => t.stored = s.stored) _ _ rfl
    fun _ ht _ _ => ht

/-- A new message is stored here or sent to its primary. -/
theorem enqueue_count {msgId queue : String} {payload : Value} {partitionKey : Option String} :
    (enqueue cfg msgId queue payload partitionKey s).2.1.ids.count x +
        ((enqueue cfg msgId queue payload partitionKey s).2.2.map (carries x)).sum ≤
      s.ids.count x + if msgId = x then 1 else 0 := by
  unfold enqueue
  split
  · simp
  · next msg hmsg =>
    have hid := msgId_newMessage hmsg
    have hreplicas : ((placeReplicas cfg msg (place cfg msg s).1).2.map (carries x)).sum = 0 := by
      refine sum_carries_eq_zero fun o ho m d hp => ?_
      rw [(Network.mem_broadcast.mp ho).2.1] at hp
      cases hp
    have hids : (placeReplicas cfg msg (place cfg msg s).1).1.ids = (place cfg msg s).1.ids :=
      congrArg (List.map QueueMessage.msgId) (placeReplicas_stored msg _)
    rw [List.map_append, List.sum_append, hreplicas, hids, add_zero, ← hid]
    unfold place
    split
    · exact (count_ids_append x s msg).le
    · cases hp : msg.primaryNode with
      | none => simp [Network.broadcast]
      | some b => simp [Network.broadcast, carries]

/-- An acked message is stored no more. -/
theorem ack_count (y : String) :
    (ack cfg y s).2.1.ids.count x + ((ack cfg y s).2.2.map (carries x)).sum +
      acks x s (.call (.ack y)) = s.ids.count x := by
  have hout : ((ack cfg y s).2.2.map (carries x)).sum = 0 := by
    refine sum_carries_eq_zero fun o ho m d hp => ?_
    rw [mem_ack ho] at hp
    cases hp
  rw [hout, add_zero]
  rcases ack_cases cfg y s with ⟨hnone, heq⟩ | ⟨msg, hsome, -, heq, -⟩
  · rw [heq]
    simp [acks, hnone]
  · have hid : msg.msgId = y := Keyed.key_of_get? hsome
    subst hid
    have hcount := ((stored_inflight hsome).map QueueMessage.msgId).count_eq x
    simp only [List.map_cons, List.count_cons, beq_iff_eq] at hcount
    have hacks : acks x s (.call (.ack msg.msgId)) = if msg.msgId = x then 1 else 0 := by
      simp [acks, hsome]
    rw [heq, hacks]
    exact hcount.symm

omit [DecidableEq NodeId] in
/-- The reply to a dequeue request, when it does not carry the id. -/
theorem handleDequeue_count {senderId : NodeId} {queue : String} {now : Time}
    (h : ∀ msg, s.firstVisible queue now = some msg → msg.msgId ≠ x) :
    (handleDequeue cfg senderId queue now s).1.ids.count x +
      ((handleDequeue cfg senderId queue now s).2.map (carries x)).sum ≤ s.ids.count x := by
  have hkeeps := (handleDequeue_keeps cfg senderId queue now s).count x
  have hout : ((handleDequeue cfg senderId queue now s).2.map (carries x)).sum = 0 := by
    have hfst := popLocal_fst cfg queue now s
    unfold handleDequeue
    rcases hpop : popLocal cfg queue now s with ⟨_ | msg', s'⟩
    · rfl
    · rw [hpop] at hfst
      obtain ⟨msg, hmsg, rfl⟩ := Option.map_eq_some_iff.mp hfst.symm
      simp [Network.broadcast, carries, h msg hmsg]
  rw [hout, add_zero]
  exact hkeeps

/-- **What one input does to the number of copies**, unless it hands a copy over. -/
theorem act_count (cfg : Config NodeId) (x : String) (s : QueueNode NodeId Value)
    {inp : Input NodeId (Call NodeId Value) Time (Payload NodeId Value)}
    (hfail : ∀ b, inp ≠ .call (.onPeerFailure b))
    (hrequest : ∀ msg, requested s inp = some msg → msg.msgId ≠ x) :
    (act cfg inp s).1.ids.count x + ((act cfg inp s).2.map (carries x)).sum + acks x s inp ≤
      s.ids.count x + inp.taken (carries x) + draws x inp := by
  cases inp with
  | call c =>
    cases c with
    | enqueue msgId queue payload partitionKey => exact enqueue_count
    | dequeue queue now now' =>
      have hkeeps := (dequeue_keeps cfg queue now now' s).count x
      have hout : ((dequeue cfg queue now now' s).2.2.map (carries x)).sum = 0 := by
        refine sum_carries_eq_zero fun o ho m d hp => ?_
        rw [mem_dequeue ho] at hp
        cases hp
      show _ + ((dequeue cfg queue now now' s).2.2.map (carries x)).sum + 0 ≤ _
      rw [hout]
      exact hkeeps
    | ack y => exact (ack_count y).le
    | requeueExpiredInflight now => exact (requeueExpiredInflight_keeps now s).count x
    | onPeerFailure b => exact absurd rfl (hfail b)
  | receive now m =>
    obtain ⟨senderId, receiverId, payload⟩ := m
    cases payload with
    | queueEnqueue message delivered => exact (count_ids_append x s message).le
    | queueReplicate message => exact le_rfl
    | queueDequeue queue => exact handleDequeue_count hrequest
    | queueAck y => exact le_rfl

omit [DecidableEq NodeId] in
/-- The reply to a dequeue request carries the message that stays inflight. -/
theorem handleDequeue_sends (cfg : Config NodeId) (senderId : NodeId) {queue : String} {now : Time}
    {msg : QueueMessage NodeId Value} (h : s.firstVisible queue now = some msg) :
    msg.msgId ∈ (handleDequeue cfg senderId queue now s).1.ids ∧
      ((handleDequeue cfg senderId queue now s).2.map (carries msg.msgId)).sum = 1 := by
  have hfst := popLocal_fst cfg queue now s
  rw [h] at hfst
  unfold handleDequeue
  rcases hpop : popLocal cfg queue now s with ⟨_ | msg', s'⟩
  · rw [hpop] at hfst
    cases hfst
  · rw [hpop] at hfst
    cases hfst
    exact ⟨mem_ids.mpr ⟨_, popLocal_inflight cfg hpop, rfl⟩, by simp [Network.broadcast, carries]⟩

/-- A message that is handed over is stored here and sent. -/
theorem act_handsOver (cfg : Config NodeId)
    {inp : Input NodeId (Call NodeId Value) Time (Payload NodeId Value)}
    {msg : QueueMessage NodeId Value} (h : requested s inp = some msg) :
    msg.msgId ∈ (act cfg inp s).1.ids ∧
      ((act cfg inp s).2.map (carries msg.msgId)).sum = 1 ∧
      inp.taken (carries msg.msgId) = 0 := by
  cases inp with
  | call c => cases h
  | receive now m =>
    obtain ⟨senderId, receiverId, payload⟩ := m
    cases payload with
    | queueDequeue queue =>
      obtain ⟨hmem, hsum⟩ := handleDequeue_sends cfg senderId h
      exact ⟨hmem, hsum, rfl⟩
    | _ => cases h

end QueueNode

/-! ## In a cluster -/

variable [DecidableEq NodeId] {ms : Members NodeId}

/-- The message that a node hands over to another one in the event: the first visible one of the
queue that a dequeue request is for. -/
def handedOver (s : Cluster NodeId Value) (e : Event NodeId Value) :
    Option (QueueMessage NodeId Value) :=
  (s.input? e).bind fun r => requested (s.nodes r.1) r.2

/-- The run hands no copy with the id over. -/
def Retains (run : ClusterRun ms Value) (x : String) : Prop :=
  ∀ i < run.length,
    (handedOver (run.state i) (run.event i)).map QueueMessage.msgId ≠ some x

instance (run : ClusterRun ms Value) (x : String) : Decidable (Retains run x) :=
  inferInstanceAs (Decidable (∀ i < run.length, _))

omit [DecidableEq NodeId] in
theorem draws_eq_count {s : Cluster NodeId Value} {e : Event NodeId Value} {a : NodeId}
    {inp : Input NodeId (Call NodeId Value) Time (Payload NodeId Value)}
    (h : s.input? e = some (a, inp)) (x : String) :
    draws x inp = (ClusterRun.drawn e).toList.count x := by
  cases inp with
  | call c =>
    rw [Network.input?_call h]
    cases c with
    | enqueue msgId queue payload partitionKey =>
      simp [draws, ClusterRun.drawn, List.count_singleton]
    | _ => rfl
  | receive now m =>
    obtain ⟨k, rfl, -⟩ := Network.input?_receive h
    rfl

omit [DecidableEq NodeId] in
theorem ne_onPeerFailure {s : Cluster NodeId Value} {e : Event NodeId Value} {a : NodeId}
    {inp : Input NodeId (Call NodeId Value) Time (Payload NodeId Value)}
    (h : s.input? e = some (a, inp)) (hfail : ClusterRun.isPeerFailure e = false) (b : NodeId) :
    inp ≠ .call (.onPeerFailure b) := by
  rintro rfl
  rw [Network.input?_call h] at hfail
  cases hfail

theorem ackedBefore_succ {run : ClusterRun ms Value} {i : ℕ} {x : String} :
    run.AckedBefore (i + 1) x ↔ run.AckedBefore i x ∨ run.AckedAt i x := by
  constructor
  · rintro ⟨j, hj, hack⟩
    rcases Nat.lt_succ_iff_lt_or_eq.mp hj with hlt | rfl
    · exact Or.inl ⟨j, hlt, hack⟩
    · exact Or.inr hack
  · rintro (⟨j, hj, hack⟩ | hack)
    · exact ⟨j, by omega, hack⟩
    · exact ⟨i, i.lt_succ_self, hack⟩

/-- The acting node is the one at which `ack` returns `True`. -/
theorem input_of_ackedAt {run : ClusterRun ms Value} {i : ℕ} {x : String} {a : NodeId}
    {inp : Input NodeId (Call NodeId Value) Time (Payload NodeId Value)}
    (hack : run.AckedAt i x) (h : (run.state i).input? (run.event i) = some (a, inp)) :
    inp = .call (.ack x) ∧ (((run.state i).nodes a).inflight.get? x).isSome := by
  obtain ⟨b, he, htrue⟩ := hack
  rw [he] at h
  cases h
  rw [ack_fst] at htrue
  exact ⟨rfl, htrue⟩

variable [Fintype NodeId]

/-- Every copy comes from an id that was drawn, and an acked message has none any more. -/
structure Counted (run : ClusterRun ms Value) (x : String) (i : ℕ) : Prop where
  copies : copies x (run.state i) ≤ (run.drawnIds i).count x
  acked : run.AckedBefore i x → Queue.copies x (run.state i) + 1 ≤ (run.drawnIds i).count x

theorem counted (run : ClusterRun ms Value) (hfail : run.NoPeerFailure) {x : String}
    (hretains : Retains run x) : ∀ i ≤ run.length, Counted run x i := by
  refine run.induction ?_ (fun i hi ih => ?_)
  · constructor
    · have hfresh : ({} : QueueNode NodeId Value).ids = [] := rfl
      rw [run.state_zero]
      simp [copies, Network.total, Network.initial, hfresh]
    · rintro ⟨j, hj, -⟩
      cases hj
  · have hdrawn : (run.drawnIds (i + 1)).count x =
        (run.drawnIds i).count x + (ClusterRun.drawn (run.event i)).toList.count x := by
      rw [drawnIds_succ, List.count_append]
    obtain ⟨hcopies, hacked⟩ := ih
    rcases Network.moves_cases (run.state_succ i hi) with
      ⟨a, k, m, hdrop, hlost⟩ | ⟨a, inp, inbox₀, hinput, hmoves⟩
    · -- a message that is lost is a copy less
      have htotal : copies x (run.state (i + 1)) + carries x m = copies x (run.state i) :=
        Network.total_loses _ _ hlost
      refine ⟨by omega, fun hack => ?_⟩
      rcases ackedBefore_succ.mp hack with hold | ⟨b, he, -⟩
      · have := hacked hold
        omega
      · rw [hdrop] at he
        cases he
    · -- copies move between a node and the inboxes, and only a drawn id adds one
      have htotal := Network.total_moves (fun n : QueueNode NodeId Value => n.ids.count x)
        (carries x) hmoves
      have hcount := act_count (ms.config a) x ((run.state i).nodes a)
        (ne_onPeerFailure hinput (hfail i hi))
        (fun msg hmsg hid => hretains i hi (by simp [handedOver, hinput, hmsg, hid]))
      have hstep : copies x (run.state (i + 1)) + acks x ((run.state i).nodes a) inp ≤
          copies x (run.state i) + draws x inp := by
        unfold Members.act at htotal
        unfold copies
        omega
      rw [draws_eq_count hinput x] at hstep
      refine ⟨by omega, fun hack => ?_⟩
      rcases ackedBefore_succ.mp hack with hold | hnew
      · have := hacked hold
        omega
      · obtain ⟨rfl, hsome⟩ := input_of_ackedAt hnew hinput
        have hone : acks x ((run.state i).nodes a) (.call (.ack x)) = 1 := by simp [acks, hsome]
        omega

/-- Handing a copy over makes two of it. -/
theorem two_copies {run : ClusterRun ms Value} {i : ℕ} (hi : i < run.length)
    {msg : QueueMessage NodeId Value}
    (h : handedOver (run.state i) (run.event i) = some msg) :
    2 ≤ copies msg.msgId (run.state (i + 1)) := by
  obtain ⟨⟨a, inp⟩, hinput, hreq⟩ := Option.bind_eq_some_iff.mp h
  have hreq : requested ((run.state i).nodes a) inp = some msg := hreq
  rcases Network.moves_cases (run.state_succ i hi) with
    ⟨b, k, m, hdrop, -⟩ | ⟨b, inp', inbox₀, hinput', hmoves⟩
  · rw [hdrop] at hinput
    cases hinput
  · rw [hinput] at hinput'
    cases hinput'
    have htotal := Network.total_moves (fun n : QueueNode NodeId Value => n.ids.count msg.msgId)
      (carries msg.msgId) hmoves
    have hle := Network.weigh_le_total
      (fun n : QueueNode NodeId Value => n.ids.count msg.msgId) (carries msg.msgId) (run.state i) a
    obtain ⟨hmem, hsum, htaken⟩ := act_handsOver (ms.config a) hreq
    have hpos := List.count_pos_iff.mpr hmem
    unfold Members.act at htotal
    unfold copies
    omega

/-- **One live copy**: with unique ids and no failed peer, an id occurs once at most in every state
of a run exactly when the run hands no copy with this id over to another node. -/
theorem one_copy (run : ClusterRun ms Value) (hids : run.UniqueIds) (hfail : run.NoPeerFailure)
    (x : String) : (∀ i ≤ run.length, copies x (run.state i) ≤ 1) ↔ Retains run x := by
  constructor
  · intro h i hi hmap
    obtain ⟨msg, hmsg, rfl⟩ := Option.map_eq_some_iff.mp hmap
    have htwo := two_copies hi hmsg
    have hone := h (i + 1) hi
    omega
  · intro hretains i hi
    calc copies x (run.state i) ≤ (run.drawnIds i).count x :=
          (counted run hfail hretains i hi).copies
      _ ≤ 1 := List.nodup_iff_count_le_one.mp (drawnIds_nodup hids hi) x

/-- The primary delivers the message to a consumer of its own. -/
def keptHome : ClusterRun pair ℕ :=
  Run.ofEvents _ _ (askedFor.take 2 ++ [.call 1 (.dequeue "orders" 0 0)]) (.drop 0 0)
    (by decide +kernel)

theorem one_copy_keptHome :
    copies "m" (keptHome.state 3) = 1 ∧ ∀ i ≤ 3, copies "m" (keptHome.state i) ≤ 1 :=
  ⟨by decide +kernel,
    (one_copy keptHome (by decide +kernel) (by decide +kernel) "m").mpr (by decide +kernel)⟩

/-! ## Two copies -/

/-- Node 0 asks its peer for a message. -/
def asked : ClusterRun pair ℕ := Run.ofEvents _ _ askedFor (.drop 0 0) (by decide +kernel)

/-- The message is inflight at node 1 and in the reply to node 0. -/
theorem asked_two_copies :
    asked.UniqueIds ∧ asked.NoPeerFailure ∧ copies "m" (asked.state 4) = 2 := by
  decide +kernel

end Queue
