import Terdistribusi.Queue.Properties.Intact
import Mathlib.Algebra.Order.Group.Multiset
import Mathlib.Tactic.Abel

/-!
# A restart on the log

A node runs, stops between two operations, and a fresh node starts on its log. The log has a record
for what is stored and for every replica, but the replay of an `ack` record takes nothing away: it
looks for the message in the inflight table, which is empty in a fresh node, and not in the queues
or the replicas. Nor does the log know of a second copy of a message that took the place of the
first in the inflight table.

Messages are counted, queue by queue, and compared as they were before they were delivered.

* `Follows` — what an operation adds to the log, and what it takes from the stored messages
* `replay_covers` — nothing that was stored is missing after a restart
* `recovers_iff` — nothing more is there exactly when no message was ever taken away
-/

namespace Queue

open Infra

variable {NodeId Value : Type}

/-- The messages of a list as they were before they were delivered, each as often as it is there. -/
def contents (l : List (QueueMessage NodeId Value)) : Multiset (QueueMessage NodeId Value) :=
  ((l.map QueueMessage.undelivered : List _) : Multiset _)

section Contents

variable {l l' : List (QueueMessage NodeId Value)}

@[simp] theorem contents_nil : contents ([] : List (QueueMessage NodeId Value)) = 0 := rfl

@[simp] theorem contents_append (l l' : List (QueueMessage NodeId Value)) :
    contents (l ++ l') = contents l + contents l' := by
  simp [contents]

theorem contents_perm (h : l.Perm l') : contents l = contents l' :=
  Multiset.coe_eq_coe.mpr (h.map _)

theorem contents_cons (msg : QueueMessage NodeId Value) (l : List (QueueMessage NodeId Value)) :
    contents (msg :: l) = contents [msg] + contents l :=
  contents_append [msg] l

theorem contents_deliver (msg : QueueMessage NodeId Value) (t : Time) :
    contents [msg.deliver t] = contents [msg] := rfl

theorem contents_reset (msg : QueueMessage NodeId Value) : contents [msg.reset] = contents [msg] :=
  rfl

theorem contents_le (h : l.Sublist l') : contents l ≤ contents l' :=
  Multiset.coe_le.mpr (h.map _).subperm

@[simp] theorem card_contents (l : List (QueueMessage NodeId Value)) :
    (contents l).card = l.length := by
  simp [contents]

/-- The messages of one queue. -/
theorem contents_filter (queue : String) (l : List (QueueMessage NodeId Value)) :
    (contents l).filter (fun msg => msg.queue = queue) =
      contents (l.filter fun msg => msg.queue = queue) := by
  unfold contents
  rw [Multiset.filter_coe, List.filter_map]
  rfl

/-- What is contained queue by queue is contained. -/
theorem le_of_filter_queue {m m' : Multiset (QueueMessage NodeId Value)}
    (h : ∀ queue, m.filter (fun msg => msg.queue = queue) ≤
      m'.filter fun msg => msg.queue = queue) : m ≤ m' := by
  classical
  refine Multiset.le_iff_count.mpr fun msg => ?_
  have hcount := Multiset.le_iff_count.mp (h msg.queue) msg
  have hself (m : Multiset (QueueMessage NodeId Value)) :
      (m.filter fun m => m.queue = msg.queue).count msg = m.count msg :=
    Multiset.count_filter_of_pos rfl
  rwa [hself, hself] at hcount

end Contents

namespace Record

def enqueued : Record NodeId Value → Option (QueueMessage NodeId Value)
  | .enqueue message => some message
  | _ => none

def replicated : Record NodeId Value → Option (QueueMessage NodeId Value)
  | .replicate message => some message
  | _ => none

end Record

namespace QueueNode

/-! ## What the log says -/

/-- The messages of the `enqueue` records. -/
def logged (log : List (Record NodeId Value)) : List (QueueMessage NodeId Value) :=
  log.filterMap Record.enqueued

/-- The replicas by the `replicate` records. -/
def mirror (log : List (Record NodeId Value)) : Table NodeId Value :=
  (log.filterMap Record.replicated).foldl Keyed.put Keyed.empty

@[simp] theorem logged_enqueue (log : List (Record NodeId Value))
    (msg : QueueMessage NodeId Value) : logged (log ++ [.enqueue msg]) = logged log ++ [msg] := by
  rw [logged, List.filterMap_append]
  rfl

@[simp] theorem logged_ack (log : List (Record NodeId Value)) (x : String) :
    logged (log ++ [.ack x]) = logged log := by
  rw [logged, List.filterMap_append]
  exact List.append_nil _

@[simp] theorem logged_replicate (log : List (Record NodeId Value))
    (msg : QueueMessage NodeId Value) : logged (log ++ [.replicate msg]) = logged log := by
  rw [logged, List.filterMap_append]
  exact List.append_nil _

@[simp] theorem mirror_enqueue (log : List (Record NodeId Value))
    (msg : QueueMessage NodeId Value) : mirror (log ++ [.enqueue msg]) = mirror log := by
  rw [mirror, List.filterMap_append, List.foldl_append]
  rfl

@[simp] theorem mirror_ack (log : List (Record NodeId Value)) (x : String) :
    mirror (log ++ [.ack x]) = mirror log := by
  rw [mirror, List.filterMap_append, List.foldl_append]
  rfl

@[simp] theorem mirror_replicate (log : List (Record NodeId Value))
    (msg : QueueMessage NodeId Value) :
    mirror (log ++ [.replicate msg]) = (mirror log).put msg := by
  rw [mirror, List.filterMap_append, List.foldl_append]
  rfl

/-! ## Messages in the deques of their queues -/

/-- The deque of a queue is what is pending for it. -/
theorem Routed.deque_perm {s : QueueNode NodeId Value} (h : s.Routed) (queue : String) :
    (s.deque queue).Perm (s.pending.filter fun msg => msg.queue = queue) := by
  -- what the deques of the other queues hold is not for this one
  have hother : ∀ d : Dict String (List (QueueMessage NodeId Value)), d.get? queue = none →
      (∀ name q, d.get? name = some q → s.queues.get? name = some q) →
        (d.values.flatten.filter fun msg => msg.queue = queue) = [] := by
    intro d hnone hd
    refine List.filter_eq_nil_iff.mpr fun msg hmsg hqueue => ?_
    obtain ⟨q, hq, hmem⟩ := List.mem_flatten.mp hmsg
    obtain ⟨name, hname⟩ := Dict.mem_values_iff.mp hq
    have hown : msg.queue = name := by
      refine h name msg ?_
      rw [deque, hd name q hname]
      exact hmem
    rw [← hown, of_decide_eq_true hqueue, hnone] at hname
    cases hname
  unfold deque
  cases hq : s.queues.get? queue with
  | none =>
    rw [Option.getD_none, pending, hother s.queues hq fun _ _ => id]
  | some q =>
    have hself : (q.filter fun msg => msg.queue = queue) = q := by
      refine List.filter_eq_self.mpr fun msg hmsg => decide_eq_true (h queue msg ?_)
      rw [deque, hq]
      exact hmsg
    have hrest := hother (s.queues.erase queue) (by simp [Dict.get?_erase])
      fun _ _ => Dict.get?_of_get?_erase
    have hperm := (pending_perm_of_get? hq).filter fun msg => msg.queue = queue
    rw [List.filter_append, hself, hrest, List.append_nil] at hperm
    exact hperm.symm

/-- The messages of a queue that the node stores. -/
def storedIn (queue : String) (s : QueueNode NodeId Value) : List (QueueMessage NodeId Value) :=
  s.deque queue ++ s.inflight.values.filter fun msg => msg.queue = queue

theorem Routed.storedIn_perm {s : QueueNode NodeId Value} (h : s.Routed) (queue : String) :
    (s.storedIn queue).Perm (s.stored.filter fun msg => msg.queue = queue) := by
  rw [storedIn, stored, List.filter_append]
  exact (h.deque_perm queue).append_right _

/-! ## The replay -/

theorem replay_log : ∀ (log : List (Record NodeId Value)) (s : QueueNode NodeId Value),
    (log.foldl applyLogRecord s).log = s.log
  | [], _ => rfl
  | r :: log, s => by
    rw [List.foldl_cons, replay_log log]
    cases r <;> rfl

theorem replay_inflight : ∀ (log : List (Record NodeId Value)) (s : QueueNode NodeId Value),
    s.inflight = Keyed.empty → (log.foldl applyLogRecord s).inflight = Keyed.empty
  | [], _, h => h
  | r :: log, s, h => by
    refine replay_inflight log _ ?_
    cases r with
    | enqueue msg => exact h
    | ack x =>
      show s.inflight.pop x = Keyed.empty
      rw [h]
      exact Keyed.pop_of_get?_none (Keyed.get?_empty x)
    | replicate msg => exact h

theorem replay_pending : ∀ (log : List (Record NodeId Value)) (s : QueueNode NodeId Value),
    (log.foldl applyLogRecord s).pending.Perm (logged log ++ s.pending)
  | [], s => List.Perm.refl _
  | r :: log, s => by
    refine (replay_pending log (applyLogRecord s r)).trans ?_
    cases r with
    | enqueue msg => exact ((s.pending_append msg).append_left _).trans List.perm_middle
    | ack x => exact List.Perm.refl _
    | replicate msg => exact List.Perm.refl _

theorem replay_replicas : ∀ (log : List (Record NodeId Value)) (s : QueueNode NodeId Value),
    (log.foldl applyLogRecord s).replicas =
      (log.filterMap Record.replicated).foldl Keyed.put s.replicas
  | [], _ => rfl
  | r :: log, s => by
    rw [List.foldl_cons, replay_replicas log]
    cases r <;> rfl

@[simp] theorem onStart_log (log : List (Record NodeId Value)) : (onStart log).log = log :=
  replay_log log _

@[simp] theorem onStart_replicas (log : List (Record NodeId Value)) :
    (onStart log).replicas = mirror log :=
  replay_replicas log _

theorem onStart_pending (log : List (Record NodeId Value)) :
    (onStart log).pending.Perm (logged log) := by
  refine (replay_pending log { log := log }).trans ?_
  rw [show ({ log := log } : QueueNode NodeId Value).pending = [] from rfl, List.append_nil]

theorem onStart_stored (log : List (Record NodeId Value)) :
    (onStart log).stored.Perm (logged log) := by
  have h : (onStart log).inflight = Keyed.empty := replay_inflight log { log := log } rfl
  unfold stored
  rw [h, Keyed.values_empty, List.append_nil]
  exact onStart_pending log

/-- What a fresh node has in a deque. -/
theorem contents_onStart_deque (log : List (Record NodeId Value)) (queue : String) :
    contents ((onStart log).deque queue) =
      (contents (logged log)).filter fun msg => msg.queue = queue := by
  rw [contents_perm ((routed_onStart log).deque_perm queue), ← contents_filter,
    contents_perm (onStart_pending log)]

end QueueNode

open QueueNode

/-! ## What a restart gives -/

/-- A fresh node on the log of `s` has the same messages pending for each queue as `s` stores, less
those whose ids were acked, and the same replicas. -/
structure Recovers (acked : List String) (s : QueueNode NodeId Value) : Prop where
  pending : ∀ queue, contents ((onStart s.log).deque queue) =
    contents ((s.storedIn queue).filter fun msg => msg.msgId ∉ acked)
  replicas : (onStart s.log).replicas = s.replicas

/-- The stored messages are those of the log, and so are the replicas. -/
structure Mirrored (s : QueueNode NodeId Value) : Prop where
  stored : contents (logged s.log) = contents s.stored
  replicas : mirror s.log = s.replicas

/-- With nothing acked, a restart recovers what the log has. -/
theorem Mirrored.recovers {s : QueueNode NodeId Value} (h : Mirrored s) (hrouted : s.Routed) :
    Recovers [] s where
  pending := fun queue => by
    have hall : ((s.storedIn queue).filter fun msg => msg.msgId ∉ ([] : List String)) =
        s.storedIn queue := by simp
    rw [contents_onStart_deque, hall, contents_perm (hrouted.storedIn_perm queue),
      ← contents_filter, h.stored]
  replicas := by rw [onStart_replicas, h.replicas]

/-- Where a restart recovers, the log has no more than is stored. -/
theorem Recovers.logged_le {acked : List String} {s : QueueNode NodeId Value}
    (h : Recovers acked s) (hrouted : s.Routed) : contents (logged s.log) ≤ contents s.stored := by
  refine le_of_filter_queue fun queue => ?_
  rw [← contents_onStart_deque, h.pending queue, contents_filter,
    ← contents_perm (hrouted.storedIn_perm queue)]
  exact contents_le List.filter_sublist

theorem mirrored_onStart (log : List (Record NodeId Value)) : Mirrored (onStart log) where
  stored := by rw [onStart_log, contents_perm (onStart_stored log)]
  replicas := by rw [onStart_log, onStart_replicas]

/-! ## What the operations do -/

/-- From `s` to `s'` the message `lost` is stored no longer, and what is stored newly is in the log.
-/
def Follows (lost : Option (QueueMessage NodeId Value)) (s s' : QueueNode NodeId Value) : Prop :=
  contents (logged s'.log) + contents s.stored =
    contents (logged s.log) + (contents lost.toList + contents s'.stored)

theorem Follows.refl (s : QueueNode NodeId Value) : Follows none s s := by
  simp [Follows]

theorem Follows.trans {lost : Option (QueueMessage NodeId Value)} {s t u : QueueNode NodeId Value}
    (h : Follows none s t) (h' : Follows lost t u) : Follows lost s u := by
  have hst : contents (logged t.log) + contents s.stored =
      contents (logged s.log) + contents t.stored := by simpa [Follows] using h
  refine add_left_cancel (a := contents (logged t.log) + contents t.stored) ?_
  calc contents (logged t.log) + contents t.stored + (contents (logged u.log) + contents s.stored)
      = (contents (logged t.log) + contents s.stored) +
          (contents (logged u.log) + contents t.stored) := by abel
    _ = (contents (logged s.log) + contents t.stored) +
          (contents (logged t.log) + (contents lost.toList + contents u.stored)) := by
        rw [hst, h']
    _ = _ := by abel

/-- Nothing is stored newly. -/
theorem Follows.of_log {lost : Option (QueueMessage NodeId Value)} {s s' : QueueNode NodeId Value}
    (hlog : logged s'.log = logged s.log)
    (h : contents s.stored = contents lost.toList + contents s'.stored) : Follows lost s s' := by
  rw [Follows, hlog, h]

theorem storeLocal_follows (s : QueueNode NodeId Value) (msg : QueueMessage NodeId Value) :
    Follows none s (s.storeLocal msg) := by
  have hstored : contents (s.storeLocal msg).stored = contents [msg] + contents s.stored :=
    (contents_perm (s.stored_append msg)).trans (contents_cons msg s.stored)
  have hlogged : contents (logged (s.storeLocal msg).log) =
      contents (logged s.log) + contents [msg] := by simp [QueueNode.storeLocal]
  rw [Follows, hstored, hlogged, Option.toList_none, contents_nil, zero_add, add_assoc]

theorem storeReplica_follows (s : QueueNode NodeId Value) (msg : QueueMessage NodeId Value) :
    Follows none s (s.storeReplica msg) :=
  Follows.of_log (logged_replicate _ _) (zero_add _).symm

theorem handleAck_follows (s : QueueNode NodeId Value) (x : String) :
    Follows none s (s.handleAck x) :=
  Follows.of_log (logged_ack _ _) (zero_add _).symm

/-- A message under its id, and the others. -/
theorem contents_values (t : Table NodeId Value) (x : String) :
    contents t.values = contents (t.get? x).toList + contents (t.pop x).values := by
  cases hx : t.get? x with
  | none => rw [Keyed.pop_of_get?_none hx, Option.toList_none, contents_nil, zero_add]
  | some msg =>
    rw [contents_perm (Keyed.values_perm hx), contents_cons]
    rfl

theorem requeue_follows {now : Time} {s : QueueNode NodeId Value}
    {msg : QueueMessage NodeId Value} (h : s.inflight.get? msg.msgId = some msg) :
    Follows none s (requeue now s msg) := by
  rw [requeue]
  split
  · refine Follows.of_log rfl ?_
    rw [contents_perm (stored_append _ _), contents_perm (stored_inflight h), contents_cons,
      contents_cons msg.reset, contents_reset, Option.toList_none, contents_nil, zero_add]
  · exact Follows.refl s

theorem requeueExpiredInflight_follows (now : Time) (s : QueueNode NodeId Value) :
    Follows none s (s.requeueExpiredInflight now) :=
  Keyed.foldl_values Follows.refl (fun _ _ _ => Follows.trans) requeue_inflight
    (fun _ _ => requeue_follows) s

/-- The copy in the inflight table whose place `_pop_local` gives to another copy. -/
def QueueNode.overwritten (queue : String) (now : Time) (s : QueueNode NodeId Value) :
    Option (QueueMessage NodeId Value) :=
  (s.firstVisible queue now).bind fun msg => s.inflight.get? msg.msgId

/-- Messages that are not visible change places. -/
theorem Follows.rotate {s : QueueNode NodeId Value} {queue : String}
    {q q' : List (QueueMessage NodeId Value)} (hq : s.queues.get? queue = some q)
    (h : q'.Perm q) : Follows none s { s with queues := s.queues.set queue q' } := by
  refine Follows.of_log rfl ?_
  have hpending := (pending_set_perm s queue q').trans
    ((h.append_right _).trans (pending_perm_of_get? hq).symm)
  rw [Option.toList_none, contents_nil, zero_add]
  exact (contents_perm (hpending.append_right s.inflight.values)).symm

/-- A message goes from its queue to the inflight table. -/
theorem Follows.take {s : QueueNode NodeId Value} {queue : String}
    {q q' : List (QueueMessage NodeId Value)} {msg : QueueMessage NodeId Value}
    (hq : s.queues.get? queue = some q) (h : (msg :: q').Perm q) (t : Time) :
    Follows (s.inflight.get? msg.msgId) s { s with
      queues := s.queues.set queue q', inflight := s.inflight.put (msg.deliver t) } := by
  refine Follows.of_log rfl ?_
  let rest := q' ++ (s.queues.erase queue).values.flatten
  have hs : contents s.stored = contents [msg] + (contents rest + contents s.inflight.values) := by
    rw [← contents_append, ← contents_cons]
    exact contents_perm (((pending_perm_of_get? hq).trans (h.symm.append_right _)).append_right _)
  have hs' : contents ({ s with
      queues := s.queues.set queue q', inflight := s.inflight.put (msg.deliver t) } :
        QueueNode NodeId Value).stored =
      contents [msg] + (contents rest + contents (s.inflight.pop msg.msgId).values) := by
    rw [← contents_append, ← contents_deliver msg t, ← contents_cons]
    exact contents_perm (((pending_set_perm s queue q').append
      (s.inflight.values_put_perm (msg.deliver t))).trans List.perm_middle)
  rw [hs, hs', contents_values s.inflight msg.msgId]
  abel

theorem popLocal_follows (cfg : Config NodeId) (queue : String) (now : Time)
    (s : QueueNode NodeId Value) :
    Follows (s.overwritten queue now) s (popLocal cfg queue now s).2 := by
  unfold popLocal overwritten firstVisible
  cases hq : s.queues.get? queue with
  | none => exact Follows.refl s
  | some q =>
    have hfind := popLoop_eq_find? now q.length q le_rfl
    have hloop := popLoop_perm now q.length q
    rw [List.take_length] at hfind
    simp only [Option.getD_some, ← hfind]
    rcases hpop : popLoop now q.length q with ⟨_ | msg, q'⟩
    · rw [hpop] at hloop
      exact Follows.rotate hq hloop
    · rw [hpop] at hloop
      exact Follows.take hq hloop _

section Inputs

variable [DecidableEq NodeId] {cfg : Config NodeId}

theorem ack_follows (x : String) (s : QueueNode NodeId Value) :
    Follows (s.inflight.get? x) s (QueueNode.ack cfg x s).2.1 := by
  rcases ack_cases cfg x s with ⟨hnone, heq⟩ | ⟨msg, -, -, heq, -⟩
  · rw [heq, hnone]
    exact Follows.refl s
  · rw [heq]
    refine Follows.of_log (logged_ack _ _) ?_
    unfold stored
    rw [contents_append, contents_append, contents_values s.inflight x]
    exact add_left_comm _ _ _

/-- The stored message that the input takes away: `ack` finds it inflight, or another copy of it
takes its place there. -/
def lost (s : QueueNode NodeId Value) :
    Input NodeId (Call NodeId Value) Time (Payload NodeId Value) →
      Option (QueueMessage NodeId Value)
  | .call (.ack x) => s.inflight.get? x
  | .call (.dequeue queue now now') => (s.requeueExpiredInflight now).overwritten queue now'
  | .receive now m =>
    match m.payload with
    | .queueDequeue queue => s.overwritten queue now
    | _ => none
  | _ => none

/-- The replica that a QUEUE_ACK takes away. -/
def lostReplica (s : QueueNode NodeId Value) :
    Input NodeId (Call NodeId Value) Time (Payload NodeId Value) →
      Option (QueueMessage NodeId Value)
  | .receive _ m =>
    match m.payload with
    | .queueAck x => s.replicas.get? x
    | _ => none
  | _ => none

/-- **What a node does to its log and its messages**, with any input but the failure of a peer. -/
theorem act_follows {s : QueueNode NodeId Value}
    {inp : Input NodeId (Call NodeId Value) Time (Payload NodeId Value)}
    (hfail : ∀ b, inp ≠ .call (.onPeerFailure b)) : Follows (lost s inp) s (act cfg inp s).1 := by
  cases inp with
  | call c =>
    cases c with
    | enqueue msgId queue payload partitionKey =>
      exact enqueue_induction (Follows.refl s)
        (fun t msg _ h => h.trans (storeLocal_follows t msg))
        (fun t msg _ _ h => h.trans (storeReplica_follows t msg))
    | dequeue queue now now' =>
      show Follows _ s (QueueNode.dequeue cfg queue now now' s).2.1
      rw [(dequeue_eq cfg queue now now' s).2]
      exact (requeueExpiredInflight_follows now s).trans (popLocal_follows cfg queue now' _)
    | ack x => exact ack_follows x s
    | requeueExpiredInflight now => exact requeueExpiredInflight_follows now s
    | onPeerFailure b => exact absurd rfl (hfail b)
  | receive now m =>
    obtain ⟨senderId, receiverId, payload⟩ := m
    cases payload with
    | queueEnqueue message delivered => exact storeLocal_follows s message
    | queueReplicate message => exact storeReplica_follows s message
    | queueDequeue queue =>
      have h := popLocal_follows cfg queue now s
      show Follows _ s (handleDequeue cfg senderId queue now s).1
      unfold handleDequeue
      rcases hpop : popLocal cfg queue now s with ⟨_ | msg, s'⟩
      all_goals
        rw [hpop] at h
        exact h
    | queueAck x => exact handleAck_follows s x

/-- An input that takes no replica and no message away leaves the replicas as the log has them. -/
theorem mirror_act {s : QueueNode NodeId Value} (h : mirror s.log = s.replicas)
    {inp : Input NodeId (Call NodeId Value) Time (Payload NodeId Value)}
    (hfail : ∀ b, inp ≠ .call (.onPeerFailure b)) (hlost : lost s inp = none)
    (hreplica : lostReplica s inp = none) :
    mirror (act cfg inp s).1.log = (act cfg inp s).1.replicas := by
  refine act_induction (P := fun t => mirror t.log = t.replicas) inp h
    (fun s' hk => by rw [hk.log, hk.replicas, h])
    (fun t msg _ ht => (mirror_enqueue _ _).trans ht) (fun t msg _ ht => ?_) ?_ ?_
    (fun b hb => absurd hb (hfail b))
  · show mirror (t.log ++ [.replicate msg]) = t.replicas.put msg
    rw [mirror_replicate, ht]
  · rintro x s' rfl htrue -
    have hnone : s.inflight.get? x = none := hlost
    rw [ack_fst, hnone] at htrue
    cases htrue
  · rintro now ⟨a, b, payload⟩ x rfl rfl
    have hnone : s.replicas.get? x = none := hreplica
    show mirror (s.log ++ [.ack x]) = s.replicas.pop x
    rw [mirror_ack, h, Keyed.pop_of_get?_none hnone]

end Inputs

/-! ## Runs of one node -/

variable [DecidableEq NodeId]

/-- What one node does with any input. No peer fails. -/
def nodeStep (cfg : Config NodeId) (s : QueueNode NodeId Value)
    (inp : Input NodeId (Call NodeId Value) Time (Payload NodeId Value)) :
    Option (QueueNode NodeId Value) :=
  match inp with
  | .call (.onPeerFailure _) => none
  | _ => some (act cfg inp s).1

/-- A run of a node that has started on `log₀`. -/
abbrev NodeRun (cfg : Config NodeId) (log₀ : List (Record NodeId Value)) :=
  Run (nodeStep cfg) (onStart log₀)

variable {cfg : Config NodeId} {log₀ : List (Record NodeId Value)}

theorem nodeStep_eq_some {s s' : QueueNode NodeId Value}
    {inp : Input NodeId (Call NodeId Value) Time (Payload NodeId Value)}
    (h : nodeStep cfg s inp = some s') :
    s' = (act cfg inp s).1 ∧ ∀ b, inp ≠ .call (.onPeerFailure b) := by
  unfold nodeStep at h
  split at h
  · cases h
  · next hne => exact ⟨(Option.some.inj h).symm, hne⟩

/-- The id for which the input makes `ack` return `True`. -/
def ackedIds (cfg : Config NodeId) (s : QueueNode NodeId Value) :
    Input NodeId (Call NodeId Value) Time (Payload NodeId Value) → List String
  | .call (.ack x) => if (QueueNode.ack cfg x s).1 then [x] else []
  | _ => []

/-- The ids for which `ack` has returned `True` before time `i`. -/
def NodeRun.acked (run : NodeRun cfg log₀) (i : ℕ) : List String := run.history (ackedIds cfg) i

theorem ackedIds_eq_nil {s : QueueNode NodeId Value}
    {inp : Input NodeId (Call NodeId Value) Time (Payload NodeId Value)}
    (h : lost s inp = none) : ackedIds cfg s inp = [] := by
  cases inp with
  | call c =>
    cases c with
    | ack x =>
      have hnone : s.inflight.get? x = none := h
      have hfalse : ¬ (QueueNode.ack cfg x s).1 := by simp [ack_fst, hnone]
      exact if_neg hfalse
    | _ => rfl
  | receive now m => rfl

theorem NodeRun.follows (run : NodeRun cfg log₀) {i : ℕ} (hi : i < run.length) :
    Follows (lost (run.state i) (run.event i)) (run.state i) (run.state (i + 1)) := by
  obtain ⟨hs, hfail⟩ := nodeStep_eq_some (run.state_succ i hi)
  rw [hs]
  exact act_follows hfail

theorem NodeRun.routed (run : NodeRun cfg log₀) : ∀ i ≤ run.length, (run.state i).Routed := by
  refine run.invariant (routed_onStart log₀) fun s inp s' h hs => ?_
  rw [(nodeStep_eq_some hs).1]
  exact h.act cfg inp

/-- Nothing that a node stores is missing after a restart. -/
theorem replay_covers (run : NodeRun cfg log₀) : ∀ i ≤ run.length,
    contents (run.state i).stored ≤ contents (onStart (run.state i).log).pending := by
  have hlogged : ∀ i ≤ run.length,
      contents (run.state i).stored ≤ contents (logged (run.state i).log) := by
    refine run.induction ?_ fun i hi ih => ?_
    · rw [run.state_zero]
      exact (mirrored_onStart log₀).stored.ge
    · refine le_of_add_le_add_left (a := contents (logged (run.state i).log)) ?_
      calc contents (logged (run.state i).log) + contents (run.state (i + 1)).stored
          ≤ contents (logged (run.state (i + 1)).log) + contents (run.state i).stored := by
            rw [run.follows hi]
            gcongr
            exact Multiset.le_add_left _ _
        _ ≤ contents (logged (run.state (i + 1)).log) + contents (logged (run.state i).log) := by
            gcongr
        _ = _ := add_comm _ _
  intro i hi
  rw [contents_perm (onStart_pending _)]
  exact hlogged i hi

/-- Nothing was taken away before time `i`. -/
def NodeRun.Lossless (run : NodeRun cfg log₀) (i : ℕ) : Prop :=
  ∀ j < i, lost (run.state j) (run.event j) = none ∧
    lostReplica (run.state j) (run.event j) = none

theorem NodeRun.Lossless.acked_eq {run : NodeRun cfg log₀} {i : ℕ} (h : run.Lossless i) :
    run.acked i = [] := by
  refine List.flatMap_eq_nil_iff.mpr fun j hj => ackedIds_eq_nil ?_
  exact (h j (List.mem_range.mp hj)).1

theorem NodeRun.Lossless.mirrored {run : NodeRun cfg log₀} : ∀ i ≤ run.length,
    run.Lossless i → Mirrored (run.state i) := by
  refine run.induction (fun _ => ?_) fun i hi ih h => ?_
  · rw [run.state_zero]
    exact mirrored_onStart log₀
  · have hm := ih fun j hj => h j (Nat.lt_succ_of_lt hj)
    obtain ⟨hlost, hreplica⟩ := h i i.lt_succ_self
    constructor
    · have hbalance := run.follows hi
      rw [Follows, hlost, hm.stored, Option.toList_none, contents_nil, zero_add, add_comm]
        at hbalance
      exact add_left_cancel hbalance
    · obtain ⟨hs, hfail⟩ := nodeStep_eq_some (run.state_succ i hi)
      rw [hs]
      exact mirror_act hm.replicas hfail hlost hreplica

omit [DecidableEq NodeId] in
/-- Where the log had what is stored, an input that takes a message away leaves more in the log. -/
theorem Mirrored.not_recovers {s s' : QueueNode NodeId Value} (h : Mirrored s) (hrouted : s'.Routed)
    {msg : QueueMessage NodeId Value} (hf : Follows (some msg) s s') (acked : List String) :
    ¬ Recovers acked s' := by
  intro hrec
  have hle := Multiset.card_le_card (hrec.logged_le hrouted)
  have hbalance := congrArg Multiset.card hf
  rw [h.stored] at hbalance
  simp only [Multiset.card_add, card_contents, Option.toList_some, List.length_singleton]
    at hle hbalance
  omega

/-- Where the replicas were those of the log, an input that takes one away makes them differ. -/
theorem Mirrored.not_recovers_replica {s : QueueNode NodeId Value} (h : Mirrored s)
    {inp : Input NodeId (Call NodeId Value) Time (Payload NodeId Value)}
    {msg : QueueMessage NodeId Value} (hreplica : lostReplica s inp = some msg)
    (acked : List String) : ¬ Recovers acked (act cfg inp s).1 := by
  intro hrec
  cases inp with
  | call c => cases hreplica
  | receive now m =>
    obtain ⟨senderId, receiverId, payload⟩ := m
    cases payload with
    | queueAck x =>
      have hx : s.replicas.get? x = some msg := hreplica
      have hmirror : (onStart (s.log ++ [.ack x])).replicas = s.replicas.pop x := hrec.replicas
      rw [onStart_replicas, mirror_ack, h.replicas] at hmirror
      rw [hmirror, Keyed.get?_pop_self] at hx
      cases hx
    | _ => cases hreplica

/-- **When a restart recovers the state**: a node recovers what it had, at every time of a run,
exactly when the run has taken no message and no replica away. -/
theorem recovers_iff (run : NodeRun cfg log₀) :
    (∀ i ≤ run.length, Recovers (run.acked i) (run.state i)) ↔
      ∀ i < run.length, lost (run.state i) (run.event i) = none ∧
        lostReplica (run.state i) (run.event i) = none := by
  constructor
  · intro h i
    -- up to the first input that takes something away, the node mirrors its log
    induction i using Nat.strong_induction_on with
    | _ i ih =>
      intro hi
      have hm := NodeRun.Lossless.mirrored i hi.le fun j hj => ih j hj (hj.trans hi)
      have hrec := h (i + 1) hi
      constructor
      · refine Option.eq_none_iff_forall_ne_some.mpr fun msg hmsg => ?_
        have hf := run.follows hi
        rw [hmsg] at hf
        exact hm.not_recovers (run.routed (i + 1) hi) hf _ hrec
      · refine Option.eq_none_iff_forall_ne_some.mpr fun msg hmsg => ?_
        rw [(nodeStep_eq_some (run.state_succ i hi)).1] at hrec
        exact hm.not_recovers_replica hmsg _ hrec
  · intro hno i hi
    have hlossless : run.Lossless i := fun j hj => hno j (Nat.lt_of_lt_of_le hj hi)
    rw [hlossless.acked_eq]
    exact (hlossless.mirrored i hi).recovers (run.routed i hi)

/-! ## A message that comes back -/

/-- The only node of a cluster. -/
def alone : Config (Fin 1) :=
  { nodeId := 0, peers := [], getNNodes := fun _ _ => [0], replicationFactor := 2,
    visibilityTimeout := 30 }

/-- A message is enqueued, dequeued and acked. -/
def consumed : NodeRun alone ([] : List (Record (Fin 1) ℕ)) :=
  Run.ofEvents _ _
    [.call (.enqueue "m" "orders" 1 none), .call (.dequeue "orders" 0 0), .call (.ack "m")]
    (.call (.ack "m")) (by decide +kernel)

/-- After the ack the node has nothing left, and a fresh node on its log has the message in its
queue. -/
theorem consumed_comes_back :
    consumed.acked 3 = ["m"] ∧ (consumed.state 3).stored = [] ∧
      ((onStart (consumed.state 3).log).deque "orders").map QueueMessage.msgId = ["m"] ∧
      ¬ Recovers (consumed.acked 3) (consumed.state 3) := by
  have hdeque :
      ((onStart (consumed.state 3).log).deque "orders").map QueueMessage.msgId = ["m"] := by
    decide +kernel
  have hstored : (consumed.state 3).storedIn "orders" = [] := by decide +kernel
  refine ⟨by decide +kernel, by decide +kernel, hdeque, fun h => ?_⟩
  -- one message is pending and none is stored
  have hcard := congrArg Multiset.card (h.pending "orders")
  rw [hstored, List.filter_nil, card_contents, card_contents, List.length_nil,
    ← List.length_map QueueMessage.msgId, hdeque] at hcard
  cases hcard

end Queue
