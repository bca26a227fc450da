import Terdistribusi.Queue.Node
import Mathlib.Data.List.Perm.Subperm

/-!
# What a node stores

The messages that a node stores are those of its queues and its inflight table.

* `Keeps` — moving messages between queues and the inflight table, as a dequeue and an expired
  timeout do: no id is lost, and none gets a second message
* `popLocal_keeps`, `requeueExpiredInflight_keeps`
* `popLocal_fst` — which message is taken: the first visible one of the queue
* `Removes` — what an ack takes away, and that it takes nothing else (`ack_removes`,
  `handleAck_removes`)
* `act_induction` — what a node becomes with any input, in these terms
-/

namespace Queue

open Infra

namespace QueueMessage

variable {NodeId Value : Type}

/-- A message as it was before it was delivered to anybody. -/
def undelivered (msg : QueueMessage NodeId Value) : QueueMessage NodeId Value :=
  { msg with deliveryCount := 0, visibilityTimeoutUntil := 0 }

@[simp] theorem msgId_deliver (msg : QueueMessage NodeId Value) (t : Time) :
    (msg.deliver t).msgId = msg.msgId := rfl

@[simp] theorem undelivered_deliver (msg : QueueMessage NodeId Value) (t : Time) :
    (msg.deliver t).undelivered = msg.undelivered := rfl

@[simp] theorem msgId_reset (msg : QueueMessage NodeId Value) : msg.reset.msgId = msg.msgId := rfl

@[simp] theorem undelivered_reset (msg : QueueMessage NodeId Value) :
    msg.reset.undelivered = msg.undelivered := rfl

theorem msgId_eq_of_undelivered {msg msg' : QueueMessage NodeId Value}
    (h : msg.undelivered = msg'.undelivered) : msg.msgId = msg'.msgId :=
  (QueueMessage.mk.inj h).1

end QueueMessage

namespace QueueNode

variable {NodeId Value : Type}

/-- The messages in the queues. -/
def pending (s : QueueNode NodeId Value) : List (QueueMessage NodeId Value) :=
  s.queues.values.flatten

def stored (s : QueueNode NodeId Value) : List (QueueMessage NodeId Value) :=
  s.pending ++ s.inflight.values

/-- The ids of the stored messages. -/
def ids (s : QueueNode NodeId Value) : List String := s.stored.map QueueMessage.msgId

theorem mem_ids {s : QueueNode NodeId Value} {x : String} :
    x ∈ s.ids ↔ ∃ msg ∈ s.stored, msg.msgId = x :=
  List.mem_map

/-! ## Queues -/

theorem pending_perm_of_get? {s : QueueNode NodeId Value} {queue : String}
    {q : List (QueueMessage NodeId Value)} (h : s.queues.get? queue = some q) :
    s.pending.Perm (q ++ (s.queues.erase queue).values.flatten) :=
  (Dict.values_perm h).flatten

theorem pending_set_perm (s : QueueNode NodeId Value) (queue : String)
    (q : List (QueueMessage NodeId Value)) :
    ({ s with queues := s.queues.set queue q } : QueueNode NodeId Value).pending.Perm
      (q ++ (s.queues.erase queue).values.flatten) :=
  (s.queues.values_set_perm queue q).flatten

theorem pending_append (s : QueueNode NodeId Value) (msg : QueueMessage NodeId Value) :
    (s.append msg).pending.Perm (msg :: s.pending) := by
  refine (pending_set_perm s msg.queue _).trans ?_
  cases hq : s.queues.get? msg.queue with
  | none =>
    rw [Dict.erase_of_get?_none hq]
    exact List.Perm.refl _
  | some q =>
    rw [Option.getD_some, List.append_assoc]
    exact List.perm_middle.trans ((pending_perm_of_get? hq).symm.cons msg)

theorem stored_append (s : QueueNode NodeId Value) (msg : QueueMessage NodeId Value) :
    (s.append msg).stored.Perm (msg :: s.stored) :=
  (s.pending_append msg).append_right _

/-- The ids after a message has come to a queue. -/
theorem ids_append (s : QueueNode NodeId Value) (msg : QueueMessage NodeId Value) :
    (s.append msg).ids.Perm (msg.msgId :: s.ids) :=
  (s.stored_append msg).map _

@[simp] theorem append_inflight (s : QueueNode NodeId Value) (msg : QueueMessage NodeId Value) :
    (s.append msg).inflight = s.inflight := rfl

@[simp] theorem append_replicas (s : QueueNode NodeId Value) (msg : QueueMessage NodeId Value) :
    (s.append msg).replicas = s.replicas := rfl

@[simp] theorem append_log (s : QueueNode NodeId Value) (msg : QueueMessage NodeId Value) :
    (s.append msg).log = s.log := rfl

/-! ## Moving messages within a node -/

/-- From `s` to `s'` messages have moved between the queues and the inflight table. -/
structure Keeps (s s' : QueueNode NodeId Value) : Prop where
  ids : s.ids ⊆ s'.ids
  count : ∀ x, s'.ids.count x ≤ s.ids.count x
  undelivered : ∀ msg ∈ s'.stored, ∃ msg₀ ∈ s.stored, msg₀.undelivered = msg.undelivered
  replicas : s'.replicas = s.replicas
  log : s'.log = s.log

theorem Keeps.refl (s : QueueNode NodeId Value) : Keeps s s :=
  ⟨fun _ => id, fun _ => le_rfl, fun msg h => ⟨msg, h, rfl⟩, rfl, rfl⟩

theorem Keeps.trans {s t u : QueueNode NodeId Value} (h : Keeps s t) (h' : Keeps t u) :
    Keeps s u where
  ids := fun _ hx => h'.ids (h.ids hx)
  count := fun x => (h'.count x).trans (h.count x)
  undelivered := fun msg hmsg => by
    obtain ⟨m, hm, heq⟩ := h'.undelivered msg hmsg
    obtain ⟨m₀, hm₀, heq₀⟩ := h.undelivered m hm
    exact ⟨m₀, hm₀, heq₀.trans heq⟩
  replicas := h'.replicas.trans h.replicas
  log := h'.log.trans h.log

theorem Keeps.not_mem_ids {s s' : QueueNode NodeId Value} (h : Keeps s s') {x : String}
    (hx : x ∉ s.ids) : x ∉ s'.ids := by
  intro hx'
  obtain ⟨msg, hmsg, rfl⟩ := mem_ids.mp hx'
  obtain ⟨msg₀, hmsg₀, heq⟩ := h.undelivered msg hmsg
  exact hx (mem_ids.mpr ⟨msg₀, hmsg₀, QueueMessage.msgId_eq_of_undelivered heq⟩)

/-- One message changes what is not in `undelivered`, and others under its id may go. -/
theorem Keeps.of_perm {s s' : QueueNode NodeId Value} {msg msg' : QueueMessage NodeId Value}
    {l l' : List (QueueMessage NodeId Value)} (hs : s.stored.Perm (msg :: l))
    (hs' : s'.stored.Perm (msg' :: l')) (hmsg : msg.undelivered = msg'.undelivered)
    (hsub : l'.Sublist l) (hl : ∀ m ∈ l, m.msgId ≠ msg'.msgId → m ∈ l')
    (hreplicas : s'.replicas = s.replicas) (hlog : s'.log = s.log) : Keeps s s' := by
  have hid : msg.msgId = msg'.msgId := QueueMessage.msgId_eq_of_undelivered hmsg
  refine ⟨fun x hx => ?_, fun x => ?_, fun m hm => ?_, hreplicas, hlog⟩
  · obtain ⟨m, hm, rfl⟩ := mem_ids.mp hx
    refine mem_ids.mpr ?_
    by_cases hne : m.msgId = msg'.msgId
    · exact ⟨msg', hs'.mem_iff.mpr List.mem_cons_self, hne.symm⟩
    · rcases List.mem_cons.mp (hs.mem_iff.mp hm) with rfl | hm
      · exact absurd hid hne
      · exact ⟨m, hs'.mem_iff.mpr (List.mem_cons_of_mem _ (hl m hm hne)), rfl⟩
  · have hcount : s.ids.count x = (msg'.msgId :: l.map QueueMessage.msgId).count x := by
      rw [← hid]
      exact (hs.map QueueMessage.msgId).count_eq x
    have hcount' : s'.ids.count x = (msg'.msgId :: l'.map QueueMessage.msgId).count x :=
      (hs'.map QueueMessage.msgId).count_eq x
    rw [hcount, hcount']
    exact ((hsub.map QueueMessage.msgId).cons_cons msg'.msgId).count_le x
  · rcases List.mem_cons.mp (hs'.mem_iff.mp hm) with rfl | hm
    · exact ⟨msg, hs.mem_iff.mpr List.mem_cons_self, hmsg⟩
    · exact ⟨m, hs.mem_iff.mpr (List.mem_cons_of_mem _ (hsub.subset hm)), rfl⟩

theorem Keeps.of_stored_perm {s s' : QueueNode NodeId Value} (h : s'.stored.Perm s.stored)
    (hreplicas : s'.replicas = s.replicas) (hlog : s'.log = s.log) : Keeps s s' where
  ids := fun _ hx => (h.map _).mem_iff.mpr hx
  count := fun x => ((h.map _).count_eq x).le
  undelivered := fun msg hmsg => ⟨msg, h.mem_iff.mp hmsg, rfl⟩
  replicas := hreplicas
  log := hlog

theorem stored_inflight {s : QueueNode NodeId Value} {msg : QueueMessage NodeId Value}
    (h : s.inflight.get? msg.msgId = some msg) :
    s.stored.Perm
      (msg :: ({ s with inflight := s.inflight.pop msg.msgId } : QueueNode NodeId Value).stored) :=
  ((Keyed.values_perm h).append_left _).trans List.perm_middle

theorem requeue_keeps {now : Time} {s : QueueNode NodeId Value} {msg : QueueMessage NodeId Value}
    (h : s.inflight.get? msg.msgId = some msg) : Keeps s (requeue now s msg) := by
  rw [requeue]
  split
  · exact Keeps.of_perm (stored_inflight h) (stored_append _ _) (by simp) (List.Sublist.refl _)
      (fun _ hm _ => hm) rfl rfl
  · exact Keeps.refl s

theorem requeue_inflight {now : Time} (s : QueueNode NodeId Value)
    (msg : QueueMessage NodeId Value) (x : String) (hx : msg.msgId ≠ x) :
    (requeue now s msg).inflight.get? x = s.inflight.get? x := by
  rw [requeue]
  split
  · rw [append_inflight, Keyed.get?_pop, if_neg hx]
  · rfl

theorem requeueExpiredInflight_keeps (now : Time) (s : QueueNode NodeId Value) :
    Keeps s (s.requeueExpiredInflight now) :=
  Keyed.foldl_values Keeps.refl (fun _ _ _ => Keeps.trans) requeue_inflight
    (fun _ _ => requeue_keeps) s

/-! ## Taking a message -/

theorem popLoop_perm (now : Time) : ∀ (k : ℕ) (q : List (QueueMessage NodeId Value)),
    ((popLoop now k q).1.toList ++ (popLoop now k q).2).Perm q
  | 0, q => List.Perm.refl q
  | _ + 1, [] => List.Perm.refl []
  | k + 1, msg :: q => by
    rw [popLoop]
    split
    · exact (popLoop_perm now k (q ++ [msg])).trans (List.perm_append_singleton msg q)
    · exact List.Perm.refl _

/-- A message that a consumer can get. -/
def visible (now : Time) (msg : QueueMessage NodeId Value) : Bool :=
  msg.visibilityTimeoutUntil ≤ now

theorem popLoop_eq_find? (now : Time) : ∀ (k : ℕ) (q : List (QueueMessage NodeId Value)),
    k ≤ q.length → (popLoop now k q).1 = (q.take k).find? (visible now)
  | 0, q, _ => by simp [popLoop]
  | k + 1, msg :: q, hk => by
    have hk' : k ≤ q.length := by simpa using hk
    rw [popLoop, List.take_succ_cons]
    split
    · next hinv =>
      rw [popLoop_eq_find? now k (q ++ [msg]) (by simp; omega), List.take_append_of_le_length hk',
        List.find?_cons_of_neg (by simpa [visible] using hinv)]
    · next hvis => rw [List.find?_cons_of_pos (by simpa [visible] using hvis)]

/-- The first visible message of a queue. -/
def firstVisible (queue : String) (now : Time) (s : QueueNode NodeId Value) :
    Option (QueueMessage NodeId Value) :=
  ((s.queues.get? queue).getD []).find? (visible now)

variable (cfg : Config NodeId)

/-- `_pop_local` takes the first visible message. -/
theorem popLocal_fst (queue : String) (now : Time) (s : QueueNode NodeId Value) :
    (popLocal cfg queue now s).1 =
      (s.firstVisible queue now).map fun msg => msg.deliver (now + cfg.visibilityTimeout) := by
  unfold popLocal firstVisible
  cases hq : s.queues.get? queue with
  | none => rfl
  | some q =>
    have hfind := popLoop_eq_find? now q.length q le_rfl
    rw [List.take_length] at hfind
    simp only [Option.getD_some, ← hfind]
    rcases popLoop now q.length q with ⟨_ | msg, q'⟩ <;> rfl

/-- What is taken is inflight. -/
theorem popLocal_inflight {queue : String} {now : Time} {s s' : QueueNode NodeId Value}
    {msg : QueueMessage NodeId Value} (h : popLocal cfg queue now s = (some msg, s')) :
    msg ∈ s'.stored := by
  unfold popLocal at h
  split at h
  · cases h
  · split at h
    · cases h
    · cases h
      exact List.mem_append_right _ (Keyed.mem_values_of_get? (Keyed.get?_put_self _ _))

/-- Messages that are not visible change places. -/
theorem Keeps.rotate {s : QueueNode NodeId Value} {queue : String}
    {q q' : List (QueueMessage NodeId Value)} (hq : s.queues.get? queue = some q)
    (h : q'.Perm q) : Keeps s { s with queues := s.queues.set queue q' } := by
  have hpending := (pending_set_perm s queue q').trans
    ((h.append_right _).trans (pending_perm_of_get? hq).symm)
  exact Keeps.of_stored_perm (hpending.append_right _) rfl rfl

/-- A message goes from its queue to the inflight table. -/
theorem Keeps.take {s : QueueNode NodeId Value} {queue : String}
    {q q' : List (QueueMessage NodeId Value)} {msg : QueueMessage NodeId Value}
    (hq : s.queues.get? queue = some q) (h : (msg :: q').Perm q) (t : Time) :
    Keeps s { s with
      queues := s.queues.set queue q', inflight := s.inflight.put (msg.deliver t) } := by
  let rest := q' ++ (s.queues.erase queue).values.flatten
  have hs : s.stored.Perm (msg :: (rest ++ s.inflight.values)) :=
    ((pending_perm_of_get? hq).trans (h.symm.append_right _)).append_right _
  have hs' := ((pending_set_perm s queue q').append
    (s.inflight.values_put_perm (msg.deliver t))).trans List.perm_middle
  refine Keeps.of_perm hs hs' (by simp) ((s.inflight.values_pop_sublist _).append_left rest)
    (fun m hm hne => ?_) rfl rfl
  rcases List.mem_append.mp hm with hm | hm
  · exact List.mem_append_left _ hm
  · exact List.mem_append_right _ (Keyed.mem_values_pop.mpr ⟨hm, hne⟩)

theorem popLocal_keeps (queue : String) (now : Time) (s : QueueNode NodeId Value) :
    Keeps s (popLocal cfg queue now s).2 := by
  unfold popLocal
  split
  · exact Keeps.refl s
  · next q hq =>
    have hloop := popLoop_perm now q.length q
    split
    · next q' hpop =>
      rw [hpop] at hloop
      exact Keeps.rotate hq hloop
    · next msg q' hpop =>
      rw [hpop] at hloop
      exact Keeps.take hq hloop _

theorem dequeue_keeps (queue : String) (now now' : Time) (s : QueueNode NodeId Value) :
    Keeps s (dequeue cfg queue now now' s).2.1 := by
  have h := (requeueExpiredInflight_keeps now s).trans
    (popLocal_keeps cfg queue now' (s.requeueExpiredInflight now))
  unfold dequeue
  rcases hpop : popLocal cfg queue now' (s.requeueExpiredInflight now) with ⟨_ | msg, s'⟩
  all_goals
    rw [hpop] at h
    exact h

theorem handleDequeue_keeps (senderId : NodeId) (queue : String) (now : Time)
    (s : QueueNode NodeId Value) : Keeps s (handleDequeue cfg senderId queue now s).1 := by
  have h := popLocal_keeps cfg queue now s
  unfold handleDequeue
  rcases hpop : popLocal cfg queue now s with ⟨_ | msg, s'⟩
  all_goals
    rw [hpop] at h
    exact h

/-! ## Removing a message -/

/-- From `s` to `s'` the message `x` is removed from the inflight table or the replicas, and the log
says so. -/
structure Removes (x : String) (s s' : QueueNode NodeId Value) : Prop where
  stored : s'.stored ⊆ s.stored
  ids : ∀ y ∈ s.ids, y ≠ x → y ∈ s'.ids
  replicas : s'.replicas = s.replicas ∨ s'.replicas = s.replicas.pop x
  log : s'.log = s.log ++ [.ack x]

theorem Removes.replicas_get? {x y : String} {s s' : QueueNode NodeId Value} (h : Removes x s s')
    {msg : QueueMessage NodeId Value} (hmsg : s'.replicas.get? y = some msg) :
    s.replicas.get? y = some msg := by
  rcases h.replicas with hr | hr
  · rwa [hr] at hmsg
  · exact Keyed.get?_of_get?_pop (hr ▸ hmsg)

theorem handleAck_removes (x : String) (s : QueueNode NodeId Value) : Removes x s (s.handleAck x) :=
  ⟨fun _ h => h, fun _ h _ => h, Or.inr rfl, rfl⟩

variable [DecidableEq NodeId]

/-- `ack` removes the message from the inflight table, logs it, and removes a replica at most. -/
theorem ack_cases (cfg : Config NodeId) (x : String) (s : QueueNode NodeId Value) :
    s.inflight.get? x = none ∧ ack cfg x s = (false, s, []) ∨
      ∃ msg, s.inflight.get? x = some msg ∧ (ack cfg x s).1 = true ∧
        (ack cfg x s).2.1 = { s with
          inflight := s.inflight.pop x
          log := s.log ++ [.ack x]
          replicas := if cfg.nodeId ∈ msg.replicas then s.replicas.pop x else s.replicas } ∧
        (ack cfg x s).2.2 = Network.broadcast cfg.nodeId
          (msg.replicas.filter fun b => b ≠ cfg.nodeId) (.queueAck x) := by
  unfold ack
  split
  · next h => exact Or.inl ⟨h, rfl⟩
  · next msg h => exact Or.inr ⟨msg, h, rfl, rfl, rfl⟩

theorem ack_removes {x : String} {s : QueueNode NodeId Value} (h : (ack cfg x s).1 = true) :
    Removes x s (ack cfg x s).2.1 := by
  rcases ack_cases cfg x s with ⟨-, heq⟩ | ⟨msg, -, -, heq, -⟩
  · rw [heq] at h
    cases h
  · rw [heq]
    refine ⟨fun m hm => ?_, fun y hy hne => ?_, ?_, rfl⟩
    · rcases List.mem_append.mp hm with hm | hm
      · exact List.mem_append_left _ hm
      · exact List.mem_append_right _ (Keyed.mem_values_pop.mp hm).1
    · obtain ⟨m, hm, rfl⟩ := mem_ids.mp hy
      refine mem_ids.mpr ⟨m, ?_, rfl⟩
      rcases List.mem_append.mp hm with hm | hm
      · exact List.mem_append_left _ hm
      · exact List.mem_append_right _ (Keyed.mem_values_pop.mpr ⟨hm, hne⟩)
    · by_cases hself : cfg.nodeId ∈ msg.replicas
      · simp [hself]
      · simp [hself]

theorem ack_fst (x : String) (s : QueueNode NodeId Value) :
    (ack cfg x s).1 = (s.inflight.get? x).isSome := by
  rcases ack_cases cfg x s with ⟨hnone, heq⟩ | ⟨msg, hsome, htrue, -, -⟩
  · rw [heq, hnone]
    rfl
  · rw [htrue, hsome]
    rfl

/-! ## All inputs -/

variable {cfg}

omit [DecidableEq NodeId] in
theorem msgId_newMessage {cfg : Config NodeId} {msgId queue : String} {payload : Value}
    {partitionKey : Option String} {msg : QueueMessage NodeId Value}
    (h : newMessage cfg msgId queue payload partitionKey = some msg) : msg.msgId = msgId := by
  unfold newMessage at h
  split at h
  · cases h
  · cases h
    rfl

/-- What holds when messages are stored and replicas kept holds after `enqueue`. -/
theorem enqueue_induction {P : QueueNode NodeId Value → Prop} {msgId queue : String}
    {payload : Value} {partitionKey : Option String} {s : QueueNode NodeId Value} (hs : P s)
    (hlocal : ∀ s msg, newMessage cfg msgId queue payload partitionKey = some msg →
      P s → P (s.storeLocal msg))
    (hreplica : ∀ s msg, newMessage cfg msgId queue payload partitionKey = some msg →
      cfg.nodeId ∈ msg.replicas → P s → P (s.storeReplica msg)) :
    P (enqueue cfg msgId queue payload partitionKey s).2.1 := by
  unfold enqueue
  split
  · exact hs
  · next msg hmsg =>
    have hplaced : P (place cfg msg s).1 := by
      unfold place
      split
      · exact hlocal s msg hmsg hs
      · exact hs
    refine List.foldlRecOn _ _ hplaced (fun t ht b hb => ?_)
    obtain ⟨hb, heq⟩ := List.mem_filter.mp hb
    obtain rfl := of_decide_eq_true heq
    exact hreplica t msg hmsg hb ht

/-- The input makes the message. -/
def Draws (cfg : Config NodeId)
    (inp : Input NodeId (Call NodeId Value) Time (Payload NodeId Value))
    (msg : QueueMessage NodeId Value) : Prop :=
  ∃ msgId queue payload partitionKey, inp = .call (.enqueue msgId queue payload partitionKey) ∧
    newMessage cfg msgId queue payload partitionKey = some msg

/-- **What a node does to its state**: an induction over its inputs. -/
theorem act_induction {P : QueueNode NodeId Value → Prop} {s : QueueNode NodeId Value}
    (inp : Input NodeId (Call NodeId Value) Time (Payload NodeId Value)) (hs : P s)
    (hkeeps : ∀ s', Keeps s s' → P s')
    (hlocal : ∀ t msg, Draws cfg inp msg ∨
      (∃ now m d, inp = .receive now m ∧ m.payload = .queueEnqueue msg d) →
      P t → P (t.storeLocal msg))
    (hreplica : ∀ t msg, Draws cfg inp msg ∧ cfg.nodeId ∈ msg.replicas ∨
      (∃ now m, inp = .receive now m ∧ m.payload = .queueReplicate msg) →
      P t → P (t.storeReplica msg))
    (hack : ∀ x s', inp = .call (.ack x) → (ack cfg x s).1 = true → Removes x s s' → P s')
    (hhandleAck : ∀ now m x, inp = .receive now m → m.payload = .queueAck x → P (s.handleAck x))
    (hfail : ∀ b, inp = .call (.onPeerFailure b) → P (onPeerFailure cfg b s)) :
    P (act cfg inp s).1 := by
  cases inp with
  | call c =>
    cases c with
    | enqueue msgId queue payload partitionKey =>
      exact enqueue_induction hs
        (fun t msg h => hlocal t msg (Or.inl ⟨_, _, _, _, rfl, h⟩))
        (fun t msg h hself => hreplica t msg (Or.inl ⟨⟨_, _, _, _, rfl, h⟩, hself⟩))
    | dequeue queue now now' => exact hkeeps _ (dequeue_keeps cfg queue now now' s)
    | ack x =>
      -- an `ack` that returns `False` does nothing
      rcases hfst : (ack cfg x s).1 with _ | _
      · rcases ack_cases cfg x s with ⟨-, heq⟩ | ⟨-, -, htrue, -, -⟩
        · show P (ack cfg x s).2.1
          rw [heq]
          exact hs
        · rw [hfst] at htrue
          cases htrue
      · exact hack x _ rfl hfst (ack_removes cfg hfst)
    | requeueExpiredInflight now => exact hkeeps _ (requeueExpiredInflight_keeps now s)
    | onPeerFailure b => exact hfail b rfl
  | receive now m =>
    obtain ⟨senderId, receiverId, payload⟩ := m
    cases payload with
    | queueEnqueue message delivered =>
      exact hlocal s message (Or.inr ⟨_, _, _, rfl, rfl⟩) hs
    | queueReplicate message => exact hreplica s message (Or.inr ⟨_, _, rfl, rfl⟩) hs
    | queueDequeue queue => exact hkeeps _ (handleDequeue_keeps cfg senderId queue now s)
    | queueAck x => exact hhandleAck now _ x rfl rfl

end QueueNode

end Queue
