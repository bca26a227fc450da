import Terdistribusi.Queue.Traced
import Terdistribusi.Queue.Properties.Stored
import Terdistribusi.Infra.Bisect

/-!
# Conservation at one node

`Conserved` relates the deques and the inflight table to the history. Everything in a deque is
visible, so a dequeue takes the head, and what has never been delivered stays in store order. A
store, a round of the loop over expired messages, a dequeue and an ack each keep the invariant; the
loop keeps it because its rounds do (`Keyed.foldl_values`).
-/

namespace Queue

open Infra

variable {NodeId Value : Type}

namespace QueueNode

theorem deque_append (s : QueueNode NodeId Value) (msg : QueueMessage NodeId Value)
    (queue : String) :
    (s.append msg).deque queue =
      if msg.queue = queue then s.deque queue ++ [msg] else s.deque queue := by
  unfold deque append
  rw [Dict.get?_set]
  by_cases h : msg.queue = queue <;> simp [h]

/-- The node has the message in a deque or inflight. -/
def Carries (s : QueueNode NodeId Value) (msg : QueueMessage NodeId Value) : Prop :=
  msg ∈ s.deque msg.queue ∨ s.inflight.get? msg.msgId = some msg

section Places

variable {s : QueueNode NodeId Value} {msg m : QueueMessage NodeId Value} {queue msgId : String}

theorem mem_deque_append (hm : m ∈ (s.append msg).deque queue) :
    m = msg ∧ msg.queue = queue ∨ m ∈ s.deque queue := by
  rw [deque_append] at hm
  split at hm
  · next hq =>
    rcases List.mem_append.mp hm with hm | hm
    · exact Or.inr hm
    · exact Or.inl ⟨List.mem_singleton.mp hm, hq⟩
  · exact Or.inr hm

theorem carries_append (hm : (s.append msg).Carries m) : m = msg ∨ s.Carries m := by
  rcases hm with hm | hm
  · exact (mem_deque_append hm).imp And.left Or.inl
  · exact Or.inr (Or.inr hm)

/-- Other ids are as often in the deque as before. -/
theorem count_deque_append (hne : msg.msgId ≠ msgId) :
    (((s.append msg).deque queue).map QueueMessage.msgId).count msgId =
      ((s.deque queue).map QueueMessage.msgId).count msgId := by
  rw [deque_append]
  split
  · rw [List.map_append, List.count_append, List.map_singleton, List.count_singleton]
    simp [hne]
  · rfl

/-- A node that has less inflight. -/
theorem carries_of_pop
    (hm : ({ s with inflight := s.inflight.pop msgId } : QueueNode NodeId Value).Carries m) :
    s.Carries m :=
  hm.imp_right Keyed.get?_of_get?_pop

/-- The rest of a deque stays, and a message goes inflight. -/
def handOver (queue : String) (q : List (QueueMessage NodeId Value))
    (msg : QueueMessage NodeId Value) (s : QueueNode NodeId Value) : QueueNode NodeId Value :=
  { s with queues := s.queues.set queue q, inflight := s.inflight.put msg }

theorem deque_handOver (s : QueueNode NodeId Value) (q : List (QueueMessage NodeId Value))
    (name : String) :
    (s.handOver queue q msg).deque name = if queue = name then q else s.deque name := by
  unfold deque handOver
  rw [Dict.get?_set]
  split <;> rfl

theorem mem_deque_handOver {q : List (QueueMessage NodeId Value)} (hq : s.deque queue = msg :: q)
    {msg' : QueueMessage NodeId Value} {name : String}
    (hm : m ∈ (s.handOver queue q msg').deque name) : m ∈ s.deque name := by
  rw [deque_handOver] at hm
  split at hm
  · next hname => exact hname ▸ hq ▸ List.mem_cons_of_mem _ hm
  · exact hm

end Places

/-- What `_pop_local` does to a deque whose messages are all visible. -/
theorem popLocal_of_visible (cfg : Config NodeId) {queue : String} {now : Time}
    {s : QueueNode NodeId Value} (h : ∀ msg ∈ s.deque queue, msg.visibilityTimeoutUntil ≤ now) :
    s.deque queue = [] ∧ (popLocal cfg queue now s).1 = none ∧
        (popLocal cfg queue now s).2.inflight = s.inflight ∧
        (∀ name, (popLocal cfg queue now s).2.deque name = s.deque name) ∨
      ∃ msg q, s.deque queue = msg :: q ∧
        popLocal cfg queue now s = (some (msg.deliver (now + cfg.visibilityTimeout)),
          s.handOver queue q (msg.deliver (now + cfg.visibilityTimeout))) := by
  unfold popLocal deque at *
  cases hq : s.queues.get? queue with
  | none => exact Or.inl ⟨rfl, rfl, rfl, fun name => rfl⟩
  | some q =>
    rw [hq] at h
    cases q with
    | nil =>
      refine Or.inl ⟨rfl, rfl, rfl, fun name => ?_⟩
      simp only [List.length_nil, popLoop, Dict.get?_set]
      split
      · next hname => rw [← hname, hq]
      · rfl
    | cons msg q =>
      have hvisible := not_lt.mpr (h msg List.mem_cons_self)
      refine Or.inr ⟨msg, q, rfl, ?_⟩
      simp only [List.length_cons, popLoop, if_neg hvisible]
      rfl

theorem dequeue_eq (cfg : Config NodeId) (queue : String) (now now' : Time)
    (s : QueueNode NodeId Value) :
    (dequeue cfg queue now now' s).1 =
        (popLocal cfg queue now' (s.requeueExpiredInflight now)).1 ∧
      (dequeue cfg queue now now' s).2.1 =
        (popLocal cfg queue now' (s.requeueExpiredInflight now)).2 := by
  unfold dequeue
  split
  · next h => rw [h]; exact ⟨rfl, rfl⟩
  · next h => rw [h]; exact ⟨rfl, rfl⟩

end QueueNode

namespace TracedNode

/-- The node and its history fit. -/
structure Conserved (s : TracedNode NodeId Value) : Prop where
  nonneg : 0 ≤ s.clock
  nodup : (s.stores.map QueueMessage.msgId).Nodup
  acked_stored : ∀ msgId ∈ s.acked, msgId ∈ s.stores.map QueueMessage.msgId
  own : ∀ queue, ∀ msg ∈ s.node.deque queue, msg.queue = queue
  visible : ∀ queue, ∀ msg ∈ s.node.deque queue, msg.visibilityTimeoutUntil ≤ s.clock
  origin : ∀ msg, s.node.Carries msg → ∃ msg₀ ∈ s.stores, msg₀.undelivered = msg.undelivered
  placed : ∀ msg ∈ s.stores, s.places msg.queue msg.msgId = 1
  counted : ∀ msg, s.node.Carries msg → msg.deliveryCount = s.deliveredIds.count msg.msgId
  inflight_delivered : ∀ msgId msg, s.node.inflight.get? msgId = some msg → 0 < msg.deliveryCount
  delivered : ∀ d ∈ s.deliveries, d.2.queue = d.1 ∧
    ∃ msg₀ ∈ s.stores, msg₀.undelivered = d.2.undelivered
  numbered : ∀ i d, s.deliveries[i]? = some d →
    d.2.deliveryCount = (s.deliveredIds.take i).count d.2.msgId + 1
  ordered : ∀ queue, s.storedIds queue = s.firstDeliveries queue ++
    ((s.node.deque queue).filter fun msg => msg.deliveryCount = 0).map QueueMessage.msgId

variable {s : TracedNode NodeId Value} {msg : QueueMessage NodeId Value}

theorem conserved_empty : Conserved ({} : TracedNode NodeId Value) where
  nonneg := le_rfl
  nodup := List.nodup_nil
  acked_stored := by simp
  own := fun queue msg h => by cases h
  visible := fun queue msg h => by cases h
  origin := by rintro msg (h | h) <;> cases h
  placed := by simp
  counted := by rintro msg (h | h) <;> cases h
  inflight_delivered := fun msgId msg h => by cases h
  delivered := by simp
  numbered := by simp
  ordered := fun queue => rfl

/-- Time passes. -/
theorem Conserved.wait (h : Conserved s) {now : Time} (hnow : s.clock ≤ now) :
    Conserved { s with clock := now } :=
  { h with
    nonneg := h.nonneg.trans hnow
    visible := fun queue msg hmsg => (h.visible queue msg hmsg).trans hnow }

/-- The invariant sees the deques and the inflight table of the node. -/
theorem Conserved.congr (h : Conserved s) {node : QueueNode NodeId Value}
    (hinflight : node.inflight = s.node.inflight)
    (hdeque : ∀ queue, node.deque queue = s.node.deque queue) :
    Conserved { s with node := node } where
  nonneg := h.nonneg
  nodup := h.nodup
  acked_stored := h.acked_stored
  own := fun queue msg hmsg => h.own queue msg (hdeque queue ▸ hmsg)
  visible := fun queue msg hmsg => h.visible queue msg (hdeque queue ▸ hmsg)
  origin := fun msg hmsg => h.origin msg (by
    rwa [QueueNode.Carries, hdeque, hinflight] at hmsg)
  placed := fun msg hmsg => by
    rw [places, hdeque, hinflight]
    exact h.placed msg hmsg
  counted := fun msg hmsg => h.counted msg (by
    rwa [QueueNode.Carries, hdeque, hinflight] at hmsg)
  inflight_delivered := fun msgId msg hmsg => h.inflight_delivered msgId msg (hinflight ▸ hmsg)
  delivered := h.delivered
  numbered := h.numbered
  ordered := fun queue => by
    rw [hdeque]
    exact h.ordered queue

/-- The stored message of an id. -/
theorem Conserved.eq_of_msgId (h : Conserved s) {msg msg' : QueueMessage NodeId Value}
    (hmsg : msg ∈ s.stores) (hmsg' : msg' ∈ s.stores) (hid : msg.msgId = msg'.msgId) : msg = msg' :=
  List.inj_on_of_nodup_map h.nodup hmsg hmsg' hid

theorem queue_eq_of_undelivered {msg msg' : QueueMessage NodeId Value}
    (h : msg.undelivered = msg'.undelivered) : msg.queue = msg'.queue :=
  (QueueMessage.mk.inj h).2.1

/-- A message that the node has is in one place, once. -/
theorem Conserved.places_eq (h : Conserved s) (hmsg : s.node.Carries msg) :
    s.places msg.queue msg.msgId = 1 := by
  obtain ⟨msg₀, hmem, heq⟩ := h.origin msg hmsg
  rw [← queue_eq_of_undelivered heq, ← QueueMessage.msgId_eq_of_undelivered heq]
  exact h.placed msg₀ hmem

/-! ## A store -/

/-- An id that was not stored is in no place. -/
theorem Conserved.not_mem_deque (h : Conserved s) {msgId : String}
    (hnew : msgId ∉ s.stores.map QueueMessage.msgId) (queue : String) :
    msgId ∉ (s.node.deque queue).map QueueMessage.msgId := by
  intro hmem
  obtain ⟨msg, hmsg, rfl⟩ := List.mem_map.mp hmem
  obtain ⟨msg₀, hmem₀, heq⟩ := h.origin msg (Or.inl (h.own queue msg hmsg ▸ hmsg))
  exact hnew (QueueMessage.msgId_eq_of_undelivered heq ▸ List.mem_map_of_mem hmem₀)

theorem Conserved.inflight_eq_none (h : Conserved s) {msgId : String}
    (hnew : msgId ∉ s.stores.map QueueMessage.msgId) : s.node.inflight.get? msgId = none := by
  cases hget : s.node.inflight.get? msgId with
  | none => rfl
  | some msg =>
    obtain rfl := Keyed.key_of_get? hget
    obtain ⟨msg₀, hmem₀, heq⟩ := h.origin msg (Or.inr hget)
    exact absurd (QueueMessage.msgId_eq_of_undelivered heq ▸ List.mem_map_of_mem hmem₀) hnew

theorem Conserved.not_mem_deliveredIds (h : Conserved s) {msgId : String}
    (hnew : msgId ∉ s.stores.map QueueMessage.msgId) : msgId ∉ s.deliveredIds := by
  intro hmem
  obtain ⟨d, hd, rfl⟩ := List.mem_map.mp hmem
  obtain ⟨-, msg₀, hmem₀, heq⟩ := h.delivered d hd
  exact hnew (QueueMessage.msgId_eq_of_undelivered heq ▸ List.mem_map_of_mem hmem₀)

theorem Conserved.store (h : Conserved s) {now : Time} (hnow : s.clock ≤ now)
    (hfresh : s.Fresh now msg) :
    Conserved { s with
      node := s.node.storeLocal msg, clock := now, stores := s.stores ++ [msg] } := by
  obtain ⟨hnew, hcount, hvisible⟩ := hfresh
  have hdeque (queue : String) :
      (s.node.storeLocal msg).deque queue = (s.node.append msg).deque queue := rfl
  have hcarries {m : QueueMessage NodeId Value} (hm : (s.node.storeLocal msg).Carries m) :
      m = msg ∨ s.node.Carries m := QueueNode.carries_append hm
  refine ⟨h.nonneg.trans hnow, ?_, ?_, ?_, ?_, ?_, ?_, ?_, h.inflight_delivered, ?_, h.numbered, ?_⟩
  · rw [List.map_append]
    -- the new id is none of those stored before
    refine List.nodup_append'.mpr ⟨h.nodup, List.nodup_singleton _, ?_⟩
    simpa using hnew
  · intro msgId hmem
    rw [List.map_append]
    exact List.mem_append_left _ (h.acked_stored msgId hmem)
  · intro queue m hm
    rcases QueueNode.mem_deque_append hm with ⟨rfl, hq⟩ | hm
    · exact hq
    · exact h.own queue m hm
  · intro queue m hm
    rcases QueueNode.mem_deque_append hm with ⟨rfl, -⟩ | hm
    · -- the message is visible at once
      exact hvisible
    · exact (h.visible queue m hm).trans hnow
  · intro m hm
    rcases hcarries hm with rfl | hm
    · exact ⟨m, by simp, rfl⟩
    · obtain ⟨msg₀, hmem₀, heq⟩ := h.origin m hm
      exact ⟨msg₀, List.mem_append_left _ hmem₀, heq⟩
  · intro m hm
    rw [places, hdeque]
    rcases List.mem_append.mp hm with hm | hm
    · -- an older message stays where it was
      have hne : msg.msgId ≠ m.msgId := fun heq => hnew (heq ▸ List.mem_map_of_mem hm)
      rw [QueueNode.count_deque_append hne]
      exact h.placed m hm
    · obtain rfl := List.mem_singleton.mp hm
      -- the new one is in its deque and nowhere else
      have hcount := List.count_eq_zero.mpr (h.not_mem_deque hnew m.queue)
      have hacked := List.count_eq_zero.mpr fun hmem => hnew (h.acked_stored m.msgId hmem)
      have hinflight : (s.node.storeLocal m).inflight.get? m.msgId = none := h.inflight_eq_none hnew
      simp [QueueNode.deque_append, hcount, hacked, hinflight]
  · intro m hm
    rcases hcarries hm with rfl | hm
    · exact hcount.trans (List.count_eq_zero.mpr (h.not_mem_deliveredIds hnew)).symm
    · exact h.counted m hm
  · intro d hd
    obtain ⟨hq, msg₀, hmem₀, heq⟩ := h.delivered d hd
    exact ⟨hq, msg₀, List.mem_append_left _ hmem₀, heq⟩
  · intro queue
    -- it comes last in the order of its queue
    have hordered := h.ordered queue
    simp only [storedIds, firstDeliveries, List.filter_append, List.map_append, hdeque,
      QueueNode.deque_append] at hordered ⊢
    rw [hordered]
    by_cases hq : msg.queue = queue <;> simp [hq, hcount]

/-! ## Expired messages -/

/-- The queue of a message is that of the stored message of its id. -/
theorem Conserved.queue_eq (h : Conserved s) (hmsg : s.node.Carries msg)
    {m : QueueMessage NodeId Value} (hm : m ∈ s.stores) (hid : m.msgId = msg.msgId) :
    m.queue = msg.queue := by
  obtain ⟨msg₀, hmem₀, heq⟩ := h.origin msg hmsg
  obtain rfl := h.eq_of_msgId hm hmem₀ (hid.trans (QueueMessage.msgId_eq_of_undelivered heq).symm)
  exact queue_eq_of_undelivered heq

theorem Conserved.expire (h : Conserved s) (hmsg : s.node.inflight.get? msg.msgId = some msg) :
    Conserved { s with
      node := { s.node with inflight := s.node.inflight.pop msg.msgId }.append msg.reset } := by
  have hcarries : s.node.Carries msg := Or.inr hmsg
  have hcarries' {m : QueueMessage NodeId Value}
      (hm : QueueNode.Carries
        ({ s.node with inflight := s.node.inflight.pop msg.msgId }.append msg.reset) m) :
      m = msg.reset ∨ s.node.Carries m :=
    (QueueNode.carries_append hm).imp_right QueueNode.carries_of_pop
  refine ⟨h.nonneg, h.nodup, h.acked_stored, ?_, ?_, ?_, ?_, ?_, ?_, h.delivered, h.numbered, ?_⟩
  · intro queue m hm
    rcases QueueNode.mem_deque_append hm with ⟨rfl, hq⟩ | hm
    · exact hq
    · exact h.own queue m hm
  · intro queue m hm
    rcases QueueNode.mem_deque_append hm with ⟨rfl, -⟩ | hm
    · exact h.nonneg
    · exact h.visible queue m hm
  · intro m hm
    rcases hcarries' hm with rfl | hm
    · exact h.origin msg hcarries
    · exact h.origin m hm
  · intro m hm
    have hplaced := h.placed m hm
    by_cases hid : m.msgId = msg.msgId
    · -- it leaves the inflight table for the deque of its queue
      simp only [places, QueueNode.deque_append, QueueNode.append_inflight,
        Keyed.get?_pop] at hplaced ⊢
      rw [hid, h.queue_eq hcarries hm hid, hmsg] at hplaced
      rw [hid, h.queue_eq hcarries hm hid]
      simp [QueueMessage.reset, QueueNode.deque] at hplaced ⊢
      omega
    · have hne : msg.reset.msgId ≠ m.msgId := Ne.symm hid
      rw [places, QueueNode.count_deque_append hne, QueueNode.append_inflight, Keyed.get?_pop,
        if_neg (Ne.symm hid)]
      exact hplaced
  · intro m hm
    rcases hcarries' hm with rfl | hm
    · exact h.counted msg hcarries
    · exact h.counted m hm
  · exact fun msgId m hm => h.inflight_delivered msgId m (Keyed.get?_of_get?_pop hm)
  · intro queue
    have hordered := h.ordered queue
    -- it has been delivered before, and the order is that of the first deliveries
    have hreset : msg.reset.deliveryCount ≠ 0 := (h.inflight_delivered msg.msgId msg hmsg).ne'
    simp only [storedIds, firstDeliveries, QueueNode.deque_append] at hordered ⊢
    rw [hordered]
    split
    · simp [hreset, QueueNode.deque]
    · rfl

theorem Conserved.requeueExpiredInflight (h : Conserved s) (now : Time) :
    Conserved { s with node := s.node.requeueExpiredInflight now } := by
  have hloop := Keyed.foldl_values (f := QueueNode.requeue now)
    (R := fun n n' => Conserved { s with node := n } → Conserved { s with node := n' })
    (fun _ => id) (fun _ _ _ hab hbc => hbc ∘ hab) QueueNode.requeue_inflight
    (fun n msg hmsg hn => by
      rw [QueueNode.requeue]
      split
      · exact hn.expire hmsg
      · exact hn) s.node
  exact hloop h

/-! ## A dequeue -/

section Deliver

variable {queue : String} {q : List (QueueMessage NodeId Value)}

theorem Conserved.carries_head (h : Conserved s) (hq : s.node.deque queue = msg :: q) :
    msg.queue = queue ∧ s.node.Carries msg := by
  have hmem : msg ∈ s.node.deque queue := hq ▸ List.mem_cons_self
  have hown : msg.queue = queue := h.own queue msg hmem
  exact ⟨hown, Or.inl (hown.symm ▸ hmem)⟩

/-- The head of a deque is nowhere else. -/
theorem Conserved.places_head (h : Conserved s) (hq : s.node.deque queue = msg :: q) :
    msg.msgId ∉ q.map QueueMessage.msgId ∧ s.acked.count msg.msgId = 0 := by
  obtain ⟨hown, hcarries⟩ := h.carries_head hq
  have hplaces := h.places_eq hcarries
  rw [places, hown, hq, List.map_cons, List.count_cons_self] at hplaces
  exact ⟨List.count_eq_zero.mp (by omega), by omega⟩

theorem Conserved.ne_head (h : Conserved s) (hq : s.node.deque queue = msg :: q)
    {msg' m : QueueMessage NodeId Value} {name : String}
    (hm : m ∈ (s.node.handOver queue q msg').deque name) : m.msgId ≠ msg.msgId := by
  intro hid
  obtain ⟨hown, hcarries⟩ := h.carries_head hq
  have hold := QueueNode.mem_deque_handOver hq hm
  have hname := h.own name m hold
  obtain ⟨m₀, hm₀, heq⟩ := h.origin m (Or.inl (hname.symm ▸ hold))
  have hqueue := h.queue_eq hcarries hm₀ ((QueueMessage.msgId_eq_of_undelivered heq).trans hid)
  rw [queue_eq_of_undelivered heq, hname, hown] at hqueue
  rw [QueueNode.deque_handOver, if_pos hqueue.symm] at hm
  exact (h.places_head hq).1 (hid ▸ List.mem_map_of_mem hm)

theorem Conserved.carries_handOver (h : Conserved s) (hq : s.node.deque queue = msg :: q)
    {until_ : Time} {m : QueueMessage NodeId Value}
    (hm : (s.node.handOver queue q (msg.deliver until_)).Carries m) :
    m = msg.deliver until_ ∨ m.msgId ≠ msg.msgId ∧ s.node.Carries m := by
  rcases hm with hm | hm
  · exact Or.inr ⟨h.ne_head hq hm, Or.inl (QueueNode.mem_deque_handOver hq hm)⟩
  · have hm : (s.node.inflight.put (msg.deliver until_)).get? m.msgId = some m := hm
    rw [Keyed.get?_put] at hm
    split at hm
    · exact Or.inl (Option.some.inj hm).symm
    · next hne => exact Or.inr ⟨Ne.symm hne, Or.inr hm⟩

/-- The message goes from its deque to the inflight table, and no other one moves. -/
theorem Conserved.placed_handOver (h : Conserved s) (hq : s.node.deque queue = msg :: q)
    (until_ : Time) {m : QueueMessage NodeId Value} (hm : m ∈ s.stores) :
    (((s.node.handOver queue q (msg.deliver until_)).deque m.queue).map
        QueueMessage.msgId).count m.msgId +
      ((s.node.inflight.put (msg.deliver until_)).get? m.msgId).isSome.toNat +
      s.acked.count m.msgId = 1 := by
  obtain ⟨hown, hcarries⟩ := h.carries_head hq
  rw [QueueNode.deque_handOver, Keyed.get?_put]
  by_cases hid : m.msgId = msg.msgId
  · -- it is out of the deque, and inflight
    obtain ⟨hout, hacked⟩ := h.places_head hq
    rw [hid, h.queue_eq hcarries hm hid, hown, if_pos rfl, List.count_eq_zero.mpr hout, hacked]
    simp
  · have hne : (msg.deliver until_).msgId ≠ m.msgId := Ne.symm hid
    have hplaced := h.placed m hm
    rw [places] at hplaced
    rw [if_neg hne, ← hplaced]
    split
    · next hname => rw [← hname, hq, List.map_cons, List.count_cons_of_ne (Ne.symm hid)]
    · rfl

/-- A message has been delivered from its own queue. -/
theorem Conserved.mem_deliveries_iff (h : Conserved s) (hmsg : s.node.Carries msg) :
    msg.msgId ∈ (s.deliveries.filter fun d => d.1 = msg.queue).map (fun d => d.2.msgId) ↔
      msg.deliveryCount ≠ 0 := by
  rw [h.counted msg hmsg, ← Nat.pos_iff_ne_zero, List.count_pos_iff]
  constructor
  · intro hmem
    obtain ⟨d, hd, hid⟩ := List.mem_map.mp hmem
    exact hid ▸ List.mem_map_of_mem (List.mem_of_mem_filter hd)
  · intro hmem
    obtain ⟨d, hd, hid⟩ := List.mem_map.mp hmem
    obtain ⟨hdq, msg₀, hmem₀, heq⟩ := h.delivered d hd
    have hqueue := h.queue_eq hmsg hmem₀ ((QueueMessage.msgId_eq_of_undelivered heq).trans hid)
    rw [queue_eq_of_undelivered heq, hdq] at hqueue
    exact List.mem_map.mpr ⟨d, List.mem_filter.mpr ⟨hd, by simpa using hqueue⟩, hid⟩

theorem Conserved.numbered_concat (h : Conserved s) (hmsg : s.node.Carries msg) (until_ : Time)
    {i : ℕ} {d : String × QueueMessage NodeId Value}
    (hd : (s.deliveries ++ [(queue, msg.deliver until_)])[i]? = some d) :
    d.2.deliveryCount = ((s.deliveredIds ++ [msg.msgId]).take i).count d.2.msgId + 1 := by
  have hlen : s.deliveredIds.length = s.deliveries.length := List.length_map _
  rcases Nat.lt_or_ge i s.deliveries.length with hi | hi
  · rw [List.getElem?_append_left hi] at hd
    rw [List.take_append_of_le_length (by omega)]
    exact h.numbered i d hd
  · rw [List.getElem?_append_right hi, List.getElem?_singleton] at hd
    split at hd
    · rw [← Option.some.inj hd, List.take_append_of_le_length (by omega),
        List.take_of_length_le (by omega)]
      exact congrArg (· + 1) (h.counted msg hmsg)
    · cases hd

/-- A first delivery takes the message that was stored first among those that wait for one. -/
theorem Conserved.ordered_handOver (h : Conserved s) (hq : s.node.deque queue = msg :: q)
    (until_ : Time) (name : String) : s.storedIds name =
      (((s.deliveries ++ [(queue, msg.deliver until_)]).filter fun d => d.1 = name).map
        fun d => d.2.msgId).eraseDups ++
      (((s.node.handOver queue q (msg.deliver until_)).deque name).filter
        fun m => m.deliveryCount = 0).map QueueMessage.msgId := by
  obtain ⟨hown, hcarries⟩ := h.carries_head hq
  have hordered := h.ordered name
  rw [QueueNode.deque_handOver]
  by_cases hname : queue = name
  · subst hname
    have hmem_iff := h.mem_deliveries_iff hcarries
    rw [hown] at hmem_iff
    rw [hordered, hq, firstDeliveries, List.filter_append, List.map_append]
    by_cases hzero : msg.deliveryCount = 0
    · -- a first delivery moves the id from the second part to the first
      have hnot : msg.msgId ∉ (s.deliveries.filter fun d => d.1 = queue).map
          (fun d => d.2.msgId) := fun hmem => hmem_iff.mp hmem hzero
      simp [eraseDups_concat, hnot, hzero]
    · have hin := hmem_iff.mpr hzero
      simp [eraseDups_concat, hin, hzero]
  · rw [hordered, firstDeliveries, List.filter_append, List.map_append]
    simp [hname]

theorem Conserved.deliver (h : Conserved s) (hq : s.node.deque queue = msg :: q) (until_ : Time) :
    Conserved { s with
      node := s.node.handOver queue q (msg.deliver until_)
      deliveries := s.deliveries ++ [(queue, msg.deliver until_)] } := by
  obtain ⟨hown, hcarries⟩ := h.carries_head hq
  refine ⟨h.nonneg, h.nodup, h.acked_stored, ?_, ?_, ?_, ?_, ?_, ?_, ?_, ?_,
    h.ordered_handOver hq until_⟩
  · exact fun name m hm => h.own name m (QueueNode.mem_deque_handOver hq hm)
  · exact fun name m hm => h.visible name m (QueueNode.mem_deque_handOver hq hm)
  · intro m hm
    rcases h.carries_handOver hq hm with rfl | ⟨-, hm⟩
    · exact h.origin msg hcarries
    · exact h.origin m hm
  · exact fun m hm => h.placed_handOver hq until_ hm
  · intro m hm
    -- the count of the message goes up with its delivery
    rw [deliveredIds, List.map_append, List.count_append, ← deliveredIds]
    rcases h.carries_handOver hq hm with rfl | ⟨hne, hm⟩
    · simp [QueueMessage.deliver, h.counted msg hcarries]
    · simp [h.counted m hm, Ne.symm hne]
  · intro msgId m hm
    have hm : (s.node.inflight.put (msg.deliver until_)).get? msgId = some m := hm
    rw [Keyed.get?_put] at hm
    split at hm
    · rw [← Option.some.inj hm]
      exact Nat.succ_pos _
    · exact h.inflight_delivered msgId m hm
  · intro d hd
    rcases List.mem_append.mp hd with hd | hd
    · exact h.delivered d hd
    · obtain rfl := List.mem_singleton.mp hd
      exact ⟨hown, h.origin msg hcarries⟩
  · intro i d hd
    rw [deliveredIds, List.map_append]
    exact h.numbered_concat hcarries until_ hd

end Deliver

theorem Conserved.dequeue {cfg : Config NodeId} (h : Conserved s) (queue : String) {now now' : Time}
    (hnow : s.clock ≤ now) (hnow' : now ≤ now') :
    Conserved { s with
      node := (s.node.dequeue cfg queue now now').2.1
      clock := now'
      deliveries := s.deliveries ++
        (s.node.dequeue cfg queue now now').1.toList.map fun msg => (queue, msg) } := by
  have hexpired := (h.wait (hnow.trans hnow')).requeueExpiredInflight now
  obtain ⟨hfst, hsnd⟩ := QueueNode.dequeue_eq cfg queue now now' s.node
  rw [hfst, hsnd]
  rcases QueueNode.popLocal_of_visible cfg (hexpired.visible queue) with
    ⟨-, hnone, hinflight, hdeque⟩ | ⟨msg, q, hq, hpop⟩
  · rw [hnone]
    simpa using hexpired.congr hinflight hdeque
  · rw [hpop]
    exact hexpired.deliver hq _

/-! ## An ack -/

theorem Conserved.pop (h : Conserved s) (hmsg : s.node.inflight.get? msg.msgId = some msg) :
    Conserved { s with
      node := { s.node with inflight := s.node.inflight.pop msg.msgId }
      acked := s.acked ++ [msg.msgId] } := by
  have hcarries : s.node.Carries msg := Or.inr hmsg
  refine ⟨h.nonneg, h.nodup, ?_, h.own, h.visible,
    fun m hm => h.origin m (QueueNode.carries_of_pop hm), ?_,
    fun m hm => h.counted m (QueueNode.carries_of_pop hm),
    fun msgId m hm => h.inflight_delivered msgId m (Keyed.get?_of_get?_pop hm),
    h.delivered, h.numbered, h.ordered⟩
  · intro msgId hmem
    rcases List.mem_append.mp hmem with hmem | hmem
    · exact h.acked_stored msgId hmem
    · obtain ⟨msg₀, hmem₀, heq⟩ := h.origin msg hcarries
      rw [List.mem_singleton.mp hmem, ← QueueMessage.msgId_eq_of_undelivered heq]
      exact List.mem_map_of_mem hmem₀
  · intro m hm
    have hplaced := h.placed m hm
    simp only [places, Keyed.get?_pop, List.count_append] at hplaced ⊢
    by_cases hid : m.msgId = msg.msgId
    · rw [hid, hmsg] at hplaced
      rw [hid]
      simp [QueueNode.deque] at hplaced ⊢
      omega
    · rw [if_neg (Ne.symm hid), ← hplaced]
      simp [Ne.symm hid, QueueNode.deque]

theorem Conserved.ack (h : Conserved s) (hmsg : s.node.inflight.get? msg.msgId = some msg)
    {node : QueueNode NodeId Value} (hqueues : node.queues = s.node.queues)
    (hpop : node.inflight = s.node.inflight.pop msg.msgId) :
    Conserved { s with node := node, acked := s.acked ++ [msg.msgId] } := by
  refine (h.pop hmsg).congr hpop fun queue => ?_
  unfold QueueNode.deque
  rw [hqueues]

/-! ## Runs -/

variable [DecidableEq NodeId] {cfg : Config NodeId}

theorem Conserved.step (h : Conserved s) {e : Event NodeId Value} {s' : TracedNode NodeId Value}
    (hs : step cfg s e = some s') : Conserved s' := by
  cases e with
  | store now msg =>
    obtain ⟨⟨hnow, hfresh⟩, hs⟩ := Option.ite_none_right_eq_some.mp hs
    cases hs
    exact h.store hnow hfresh
  | dequeue queue now now' =>
    obtain ⟨⟨hnow, hnow'⟩, hs⟩ := Option.ite_none_right_eq_some.mp hs
    cases hs
    exact h.dequeue queue hnow hnow'
  | ack msgId =>
    cases hs
    rcases QueueNode.ack_cases cfg msgId s.node with ⟨-, heq⟩ | ⟨msg, hmsg, htrue, hnode, -⟩
    · simpa [heq] using h
    · obtain rfl := Keyed.key_of_get? hmsg
      rw [htrue, if_pos rfl]
      exact h.ack hmsg (by rw [hnode]) (by rw [hnode])
  | requeueExpiredInflight now =>
    obtain ⟨hnow, hs⟩ := Option.ite_none_right_eq_some.mp hs
    cases hs
    exact (h.wait hnow).requeueExpiredInflight now

/-- A node without peers; what is dequeued at time `1` comes back after time `31`. -/
def alone : Config String :=
  { nodeId := "a", peers := [], getNNodes := fun _ _ => ["a"], replicationFactor := 2
    visibilityTimeout := 30 }

/-- Two messages; the first is delivered, expires, and is delivered again after the second. -/
def redelivered : TracedRun alone ℕ :=
  Run.ofEvents _ _
    [.store 1 { msgId := "m", queue := "orders", partitionKey := "m", payload := 1 },
      .store 1 { msgId := "n", queue := "orders", partitionKey := "n", payload := 2 },
      .dequeue "orders" 1 1, .dequeue "orders" 40 40, .dequeue "orders" 41 41, .ack "m"]
    (.ack "m") (by decide +kernel)

/-- Every stored message is in one place, once: in the deque of its queue, inflight or acked. Its
counter is the number of its deliveries, and the first deliveries of a queue are in store order. -/
theorem conservation (cfg : Config NodeId) (r : TracedRun cfg Value) {i : ℕ} (hi : i ≤ r.length) :
    (∀ msg ∈ (r.state i).stores, (r.state i).places msg.queue msg.msgId = 1 ∧
      ∀ queue, queue ≠ msg.queue →
        msg.msgId ∉ ((r.state i).node.deque queue).map QueueMessage.msgId) ∧
    (∀ msg, (r.state i).node.Carries msg →
      (∃ msg₀ ∈ (r.state i).stores, msg₀.undelivered = msg.undelivered) ∧
      msg.deliveryCount = (r.state i).deliveredIds.count msg.msgId) ∧
    (∀ k d, (r.state i).deliveries[k]? = some d →
      d.2.deliveryCount = ((r.state i).deliveredIds.take k).count d.2.msgId + 1) ∧
    (∀ queue, (r.state i).firstDeliveries queue <+: (r.state i).storedIds queue) := by
  have h : Conserved (r.state i) :=
    r.invariant conserved_empty (fun _ _ _ h hs => h.step hs) i hi
  refine ⟨fun msg hmsg => ⟨h.placed msg hmsg, fun queue hqueue hmem => ?_⟩,
    fun msg hmsg => ⟨h.origin msg hmsg, h.counted msg hmsg⟩, h.numbered, fun queue => ?_⟩
  · obtain ⟨m, hm, hid⟩ := List.mem_map.mp hmem
    have hown := h.own queue m hm
    exact hqueue (hown.symm.trans (h.queue_eq (Or.inl (hown.symm ▸ hm)) hmsg hid.symm).symm)
  · rw [h.ordered queue]
    exact List.prefix_append _ _

theorem conservation_redelivered :
    (redelivered.state 6).deliveredIds = ["m", "n", "m"] ∧
      (redelivered.state 6).firstDeliveries "orders" <+:
        (redelivered.state 6).storedIds "orders" :=
  ⟨by decide +kernel, (conservation alone redelivered (le_refl redelivered.length)).2.2.2 "orders"⟩

end TracedNode

end Queue
