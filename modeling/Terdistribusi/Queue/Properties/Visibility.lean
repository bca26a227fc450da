import Terdistribusi.Queue.Properties.Conservation

/-!
# The visibility timeout

What `dequeue` hands out is hidden for `visibility_timeout`, and comes back after it.

* `delivered_apart` — between two deliveries of one message more than the timeout passes, and a
  message that is acked is not delivered again
* `delivered_again` — a message that is not acked can be had again when its time is over, by as many
  calls of `dequeue` as messages may be before it
-/

namespace Queue

open Infra

variable {NodeId Value : Type}

namespace QueueNode

/-! ## Expired messages -/

/-- The loop over expired messages takes exactly these out of the inflight table. -/
theorem get?_requeueExpiredInflight (now : Time) (s : QueueNode NodeId Value) (x : String) :
    (s.requeueExpiredInflight now).inflight.get? x =
      (s.inflight.get? x).filter fun msg => ¬ msg.visibilityTimeoutUntil < now := by
  have h := Keyed.get?_foldl_values QueueNode.inflight (requeue now)
    (fun msg => if msg.visibilityTimeoutUntil < now then none else some msg)
    requeue_inflight (fun n msg hmsg => ?_) s x
  · rw [requeueExpiredInflight, h]
    cases s.inflight.get? x with
    | none => rfl
    | some msg =>
      rw [Option.bind_some, Option.filter_some]
      split <;> simp_all
  · rw [requeue]
    split
    · rw [append_inflight, Keyed.get?_pop, if_pos rfl]
    · exact hmsg

/-- Between two states in the loop: deques have grown by messages that were inflight and expired. -/
structure Requeued (now : Time) (s s' : QueueNode NodeId Value) : Prop where
  inflight : ∀ x msg, s'.inflight.get? x = some msg → s.inflight.get? x = some msg
  grown : ∀ queue, s.deque queue <+: s'.deque queue
  origin : ∀ queue, ∀ msg ∈ s'.deque queue, msg ∈ s.deque queue ∨
    ∃ m, s.inflight.get? msg.msgId = some m ∧ m.visibilityTimeoutUntil < now

theorem Requeued.refl {now : Time} (s : QueueNode NodeId Value) : Requeued now s s :=
  ⟨fun _ _ => id, fun _ => List.prefix_rfl, fun _ _ => Or.inl⟩

theorem Requeued.trans {now : Time} {a b c : QueueNode NodeId Value} (hab : Requeued now a b)
    (hbc : Requeued now b c) : Requeued now a c := by
  refine ⟨fun x msg hm => hab.inflight x msg (hbc.inflight x msg hm),
    fun queue => (hab.grown queue).trans (hbc.grown queue), fun queue msg hm => ?_⟩
  rcases hbc.origin queue msg hm with hm | ⟨m, hm, hlt⟩
  · exact hab.origin queue msg hm
  · exact Or.inr ⟨m, hab.inflight _ m hm, hlt⟩

theorem requeued_requeue {now : Time} {s : QueueNode NodeId Value} {msg : QueueMessage NodeId Value}
    (hmsg : s.inflight.get? msg.msgId = some msg) : Requeued now s (requeue now s msg) := by
  rw [requeue]
  split
  · next hlt =>
    refine ⟨fun x m hm => Keyed.get?_of_get?_pop hm, fun queue => ?_, fun queue m hm => ?_⟩
    · rw [deque_append]
      split
      · exact List.prefix_append _ _
      · exact List.prefix_rfl
    · rcases mem_deque_append hm with ⟨rfl, -⟩ | hm
      · exact Or.inr ⟨msg, hmsg, hlt⟩
      · exact Or.inl hm
  · exact Requeued.refl s

theorem requeued (now : Time) (s : QueueNode NodeId Value) :
    Requeued now s (s.requeueExpiredInflight now) :=
  Keyed.foldl_values Requeued.refl (fun _ _ _ => Requeued.trans) requeue_inflight
    (fun _ _ => requeued_requeue) s

end QueueNode

namespace TracedNode

variable {s s' : TracedNode NodeId Value} {cfg : Config NodeId}

/-! ## Hidden messages -/

/-- What `dequeue` does: it takes the first message out of the deque, when there is one. -/
theorem Conserved.dequeue_cases (cfg : Config NodeId) (h : Conserved s) (queue : String)
    {now now' : Time} (hnow : s.clock ≤ now) (hnow' : now ≤ now') :
    (s.node.requeueExpiredInflight now).deque queue = [] ∧
        (s.node.dequeue cfg queue now now').1 = none ∧
        (s.node.dequeue cfg queue now now').2.1.inflight =
          (s.node.requeueExpiredInflight now).inflight ∧
        (∀ name, (s.node.dequeue cfg queue now now').2.1.deque name =
          (s.node.requeueExpiredInflight now).deque name) ∨
      ∃ msg q, (s.node.requeueExpiredInflight now).deque queue = msg :: q ∧
        (s.node.dequeue cfg queue now now').1 =
          some (msg.deliver (now' + cfg.visibilityTimeout)) ∧
        (s.node.dequeue cfg queue now now').2.1 = (s.node.requeueExpiredInflight now).handOver
          queue q (msg.deliver (now' + cfg.visibilityTimeout)) := by
  have hexpired := (h.wait (hnow.trans hnow')).requeueExpiredInflight now
  obtain ⟨hfst, hsnd⟩ := QueueNode.dequeue_eq cfg queue now now' s.node
  rw [hfst, hsnd]
  rcases QueueNode.popLocal_of_visible cfg (hexpired.visible queue) with
    ⟨hnil, hnone, hinflight, hdeque⟩ | ⟨msg, q, hq, hpop⟩
  · exact Or.inl ⟨hnil, hnone, hinflight, hdeque⟩
  · exact Or.inr ⟨msg, q, hq, by rw [hpop], by rw [hpop]⟩

/-- Message `x` is not handed out before `until_`. -/
structure HiddenUntil (x : String) (until_ : Time) (s : TracedNode NodeId Value) : Prop where
  inflight : ∀ msg, s.node.inflight.get? x = some msg → until_ ≤ msg.visibilityTimeoutUntil
  deque : ∀ queue, ∀ msg ∈ s.node.deque queue, msg.msgId = x → until_ < s.clock

theorem HiddenUntil.expire {x : String} {until_ : Time} (h : HiddenUntil x until_ s) {now : Time}
    (hnow : s.clock ≤ now) :
    HiddenUntil x until_ { s with node := s.node.requeueExpiredInflight now, clock := now } := by
  have hrequeued := QueueNode.requeued now s.node
  refine ⟨fun msg hm => h.inflight msg (hrequeued.inflight x msg hm), fun queue msg hm hid => ?_⟩
  rcases hrequeued.origin queue msg hm with hold | ⟨m, hget, hlt⟩
  · exact (h.deque queue msg hold hid).trans_le hnow
  · exact (h.inflight m (hid ▸ hget)).trans_lt hlt

section Runs

variable [DecidableEq NodeId]

/-- What is hidden stays hidden, while other messages are stored and handed out. -/
theorem HiddenUntil.step {x : String} {until_ : Time} (hh : HiddenUntil x until_ s)
    (h : Conserved s) (hx : x ∈ s.stores.map QueueMessage.msgId)
    (huntil : until_ ≤ s.clock + cfg.visibilityTimeout) {e : Event NodeId Value}
    (hs : step cfg s e = some s') : HiddenUntil x until_ s' := by
  cases e with
  | store now msg =>
    obtain ⟨⟨hnow, hnew, -⟩, hs⟩ := Option.ite_none_right_eq_some.mp hs
    cases hs
    refine ⟨hh.inflight, fun queue m hm hid => ?_⟩
    rcases QueueNode.mem_deque_append hm with ⟨rfl, -⟩ | hm
    · -- the new message has an id of its own
      exact absurd (hid ▸ hx) hnew
    · exact (hh.deque queue m hm hid).trans_le hnow
  | dequeue queue now now' =>
    obtain ⟨⟨hnow, hnow'⟩, hs⟩ := Option.ite_none_right_eq_some.mp hs
    cases hs
    have hexpired := hh.expire hnow
    have hlater : ∀ name, ∀ m ∈ (s.node.requeueExpiredInflight now).deque name, m.msgId = x →
        until_ < now' :=
      fun name m hm hid => (hexpired.deque name m hm hid).trans_le hnow'
    rcases h.dequeue_cases cfg queue hnow hnow' with ⟨-, -, hinflight, hdeque⟩ | ⟨msg, q, hq, -, hn⟩
    · refine ⟨fun m hm => hexpired.inflight m (hinflight ▸ hm), fun name m hm => ?_⟩
      exact hlater name m (hdeque name ▸ hm)
    · refine ⟨fun m hm => ?_, fun name m hm => ?_⟩
      · dsimp only at hm
        rw [hn, QueueNode.handOver, Keyed.get?_put] at hm
        split at hm
        · cases hm
          -- a message that is handed out now is hidden for longer
          exact huntil.trans (add_le_add_left (hnow.trans hnow') _)
        · exact hexpired.inflight m hm
      · dsimp only at hm
        rw [hn] at hm
        exact hlater name m (QueueNode.mem_deque_handOver hq hm)
  | ack msgId =>
    cases hs
    rcases QueueNode.ack_cases cfg msgId s.node with ⟨-, heq⟩ | ⟨msg, -, -, hnode, -⟩
    · refine ⟨fun m hm => hh.inflight m ?_, fun queue m hm => hh.deque queue m ?_⟩
      · simpa [heq] using hm
      · simpa [heq] using hm
    · refine ⟨fun m hm => hh.inflight m ?_, fun queue m hm => hh.deque queue m ?_⟩
      · dsimp only at hm
        rw [hnode] at hm
        exact Keyed.get?_of_get?_pop hm
      · dsimp only at hm
        rwa [hnode] at hm
  | requeueExpiredInflight now =>
    obtain ⟨hnow, hs⟩ := Option.ite_none_right_eq_some.mp hs
    cases hs
    exact hh.expire hnow

theorem clock_le {e : Event NodeId Value} (hs : step cfg s e = some s') : s.clock ≤ s'.clock := by
  cases e with
  | store now msg =>
    obtain ⟨⟨hnow, -⟩, hs⟩ := Option.ite_none_right_eq_some.mp hs
    cases hs
    exact hnow
  | dequeue queue now now' =>
    obtain ⟨⟨hnow, hnow'⟩, hs⟩ := Option.ite_none_right_eq_some.mp hs
    cases hs
    exact hnow.trans hnow'
  | ack msgId =>
    cases hs
    exact le_rfl
  | requeueExpiredInflight now =>
    obtain ⟨hnow, hs⟩ := Option.ite_none_right_eq_some.mp hs
    cases hs
    exact hnow

theorem stored_mono {e : Event NodeId Value} (hs : step cfg s e = some s') {x : String}
    (hx : x ∈ s.stores.map QueueMessage.msgId) : x ∈ s'.stores.map QueueMessage.msgId := by
  cases e with
  | store now msg =>
    obtain ⟨-, hs⟩ := Option.ite_none_right_eq_some.mp hs
    cases hs
    rw [List.map_append]
    exact List.mem_append_left _ hx
  | dequeue queue now now' | requeueExpiredInflight now =>
    obtain ⟨-, hs⟩ := Option.ite_none_right_eq_some.mp hs
    cases hs
    exact hx
  | ack msgId =>
    cases hs
    exact hx

/-- The message that is handed out in an event, and when. -/
def handedOut (cfg : Config NodeId) (s : TracedNode NodeId Value) :
    Event NodeId Value → Option (Time × QueueMessage NodeId Value)
  | .dequeue queue now now' => (s.node.dequeue cfg queue now now').1.map fun msg => (now', msg)
  | _ => none

/-- What is handed out is hidden for the timeout from then on. -/
theorem Conserved.hidden_of_handedOut (h : Conserved s) {e : Event NodeId Value}
    (hs : TracedNode.step cfg s e = some s') {t : Time} {m : QueueMessage NodeId Value}
    (hm : handedOut cfg s e = some (t, m)) :
    s'.clock = t ∧ m.msgId ∈ s'.stores.map QueueMessage.msgId ∧
      HiddenUntil m.msgId (t + cfg.visibilityTimeout) s' := by
  cases e with
  | dequeue queue now now' =>
    obtain ⟨⟨hnow, hnow'⟩, hs⟩ := Option.ite_none_right_eq_some.mp hs
    cases hs
    obtain ⟨m', hfst, heq⟩ := Option.map_eq_some_iff.mp hm
    cases heq
    have hexpired := (h.wait (hnow.trans hnow')).requeueExpiredInflight now
    rcases h.dequeue_cases cfg queue hnow hnow' with ⟨-, hnone, -⟩ | ⟨msg, q, hq, hsome, hn⟩
    · rw [hnone] at hfst
      cases hfst
    · obtain rfl := Option.some.inj (hsome.symm.trans hfst)
      obtain ⟨-, hcarries⟩ := hexpired.carries_head hq
      obtain ⟨msg₀, hmem₀, heq⟩ := hexpired.origin msg hcarries
      refine ⟨rfl, ?_, fun m' hm' => ?_, fun name m' hm' hid => ?_⟩
      · exact List.mem_map.mpr ⟨msg₀, hmem₀, QueueMessage.msgId_eq_of_undelivered heq⟩
      · dsimp only at hm'
        rw [hn, QueueNode.handOver, Keyed.get?_put, if_pos rfl] at hm'
        cases hm'
        exact le_rfl
      · dsimp only at hm'
        rw [hn] at hm'
        exact absurd hid (hexpired.ne_head hq hm')
  | store now msg => cases hm
  | ack msgId => cases hm
  | requeueExpiredInflight now => cases hm

/-- A message that is handed out is not hidden any more, and not acked. -/
theorem Conserved.over_of_handedOut (h : Conserved s) {e : Event NodeId Value}
    (hs : TracedNode.step cfg s e = some s') {t until_ : Time} {m : QueueMessage NodeId Value}
    (hm : handedOut cfg s e = some (t, m)) (hh : HiddenUntil m.msgId until_ s) :
    until_ < t ∧ m.msgId ∉ s.acked := by
  cases e with
  | dequeue queue now now' =>
    obtain ⟨⟨hnow, hnow'⟩, -⟩ := Option.ite_none_right_eq_some.mp hs
    obtain ⟨m', hfst, heq⟩ := Option.map_eq_some_iff.mp hm
    cases heq
    have hexpired := (h.wait (hnow.trans hnow')).requeueExpiredInflight now
    rcases h.dequeue_cases cfg queue hnow hnow' with ⟨-, hnone, -⟩ | ⟨msg, q, hq, hsome, -⟩
    · rw [hnone] at hfst
      cases hfst
    · obtain rfl := Option.some.inj (hsome.symm.trans hfst)
      refine ⟨((hh.expire hnow).deque queue msg ?_ rfl).trans_le hnow', ?_⟩
      · exact hq ▸ List.mem_cons_self
      · exact List.count_eq_zero.mp (hexpired.places_head hq).2
  | store now msg => cases hm
  | ack msgId => cases hm
  | requeueExpiredInflight now => cases hm

/-- **A message is handed out to one consumer at a time.** Between two deliveries of a message more
than the visibility timeout passes, and it is not acked by then. -/
theorem delivered_apart (r : TracedRun cfg Value) {i j : ℕ} (hij : i < j) (hj : j < r.length)
    {t t' : Time} {m m' : QueueMessage NodeId Value}
    (hi : handedOut cfg (r.state i) (r.event i) = some (t, m))
    (hj' : handedOut cfg (r.state j) (r.event j) = some (t', m')) (hid : m'.msgId = m.msgId) :
    t + cfg.visibilityTimeout < t' ∧ m.msgId ∉ (r.state j).acked := by
  have hconserved : ∀ k ≤ r.length, Conserved (r.state k) :=
    r.invariant conserved_empty fun _ _ _ h hs => h.step hs
  obtain ⟨hclock, hstored, hhidden⟩ := (hconserved i (by omega)).hidden_of_handedOut
    (r.state_succ i (by omega)) hi
  -- from then on, it is stored and hidden, and the clock does not go back
  have hlater : ∀ k, i + 1 ≤ k → k ≤ r.length → t ≤ (r.state k).clock ∧
      m.msgId ∈ (r.state k).stores.map QueueMessage.msgId ∧
      HiddenUntil m.msgId (t + cfg.visibilityTimeout) (r.state k) := by
    intro k hk
    induction k, hk using Nat.le_induction with
    | base => exact fun _ => ⟨hclock.ge, hstored, hhidden⟩
    | succ k hk ih =>
      intro hlen
      obtain ⟨hclock, hstored, hhidden⟩ := ih (by omega)
      have hs := r.state_succ k hlen
      exact ⟨hclock.trans (clock_le hs), stored_mono hs hstored,
        hhidden.step (hconserved k (by omega)) hstored (add_le_add_left hclock _) hs⟩
  obtain ⟨-, -, hhidden⟩ := hlater j hij hj.le
  rw [← hid] at hhidden ⊢
  exact (hconserved j hj.le).over_of_handedOut (r.state_succ j hj) hj' hhidden

/-! ## Messages come back -/

variable (cfg) in
/-- Calls of `dequeue` at one time hand out what is in the deque from its head on. -/
theorem Conserved.exec_dequeues {queue : String} {t : Time} {m : QueueMessage NodeId Value}
    {ys : List (QueueMessage NodeId Value)} : ∀ (xs : List (QueueMessage NodeId Value))
    {s : TracedNode NodeId Value}, Conserved s → s.clock ≤ t →
      xs ++ m :: ys <+: (s.node.requeueExpiredInflight t).deque queue →
      ∃ s', exec (TracedNode.step cfg) s (List.replicate (xs.length + 1) (.dequeue queue t t)) =
        some s' ∧ s'.deliveries.getLast? = some (queue, m.deliver (t + cfg.visibilityTimeout))
  | xs, s, h, ht, ⟨zs, hzs⟩ => by
    have hstep : TracedNode.step cfg s (.dequeue queue t t) = some { s with
        node := (s.node.dequeue cfg queue t t).2.1
        clock := t
        deliveries := s.deliveries ++
          (s.node.dequeue cfg queue t t).1.toList.map fun msg => (queue, msg) } :=
      if_pos ⟨ht, le_rfl⟩
    have hnext := h.step hstep
    rcases h.dequeue_cases cfg queue ht (le_refl t) with ⟨hnil, -⟩ | ⟨msg, q, hq, hsome, hn⟩
    · rw [hnil] at hzs
      simp at hzs
    · rw [hq] at hzs
      cases xs with
      | nil =>
        obtain ⟨rfl, -⟩ := List.cons.inj hzs
        refine ⟨_, by rw [List.length_nil, List.replicate_one, exec_cons, hstep]; rfl, ?_⟩
        rw [hsome]
        exact List.getLast?_concat
      | cons x xs =>
        obtain ⟨rfl, hrest⟩ := List.cons.inj hzs
        have hdeque : ((s.node.dequeue cfg queue t t).2.1).deque queue = q := by
          rw [hn, QueueNode.deque_handOver, if_pos rfl]
        -- what expires meanwhile goes behind the message
        have hgrown := (QueueNode.requeued t (s.node.dequeue cfg queue t t).2.1).grown queue
        rw [hdeque, ← hrest] at hgrown
        obtain ⟨s', hs', hlast⟩ := exec_dequeues xs hnext (le_refl t)
          ((List.prefix_append _ _).trans hgrown)
        refine ⟨s', ?_, hlast⟩
        rw [List.length_cons, List.replicate_succ, exec_cons, hstep]
        exact hs'

omit [DecidableEq NodeId] in
/-- The messages of a deque are different stored messages. -/
theorem Conserved.length_deque_le (h : Conserved s) (queue : String) :
    (s.node.deque queue).length ≤ (s.storedIds queue).length := by
  have hcarries : ∀ msg ∈ s.node.deque queue, msg.queue = queue ∧ s.node.Carries msg := by
    intro msg hmsg
    have hown := h.own queue msg hmsg
    exact ⟨hown, Or.inl (hown.symm ▸ hmsg)⟩
  rw [← List.length_map QueueMessage.msgId]
  refine List.Nodup.length_le_of_subset (List.nodup_iff_count_le_one.mpr fun x => ?_) fun x hx => ?_
  · by_cases hx : x ∈ (s.node.deque queue).map QueueMessage.msgId
    · obtain ⟨msg, hmsg, rfl⟩ := List.mem_map.mp hx
      obtain ⟨hown, hmsg⟩ := hcarries msg hmsg
      have hplaces := h.places_eq hmsg
      rw [places, hown] at hplaces
      omega
    · rw [List.count_eq_zero.mpr hx]
      exact Nat.zero_le 1
  · obtain ⟨msg, hmsg, rfl⟩ := List.mem_map.mp hx
    obtain ⟨hown, hmsg⟩ := hcarries msg hmsg
    obtain ⟨msg₀, hmem₀, heq⟩ := h.origin msg hmsg
    refine List.mem_map.mpr ⟨msg₀, List.mem_filter.mpr ⟨hmem₀, ?_⟩,
      QueueMessage.msgId_eq_of_undelivered heq⟩
    exact decide_eq_true ((queue_eq_of_undelivered heq).trans hown)

/-- **A message is handed out until it is acked.** In every state of a run, when a stored message is
not acked and not hidden, calls of `dequeue` hand it out, at most as many as messages were ever
stored in its queue. -/
theorem delivered_again (r : TracedRun cfg Value) {i : ℕ} (hi : i ≤ r.length)
    {msg : QueueMessage NodeId Value} (hmsg : msg ∈ (r.state i).stores)
    (hack : msg.msgId ∉ (r.state i).acked) {t : Time} (ht : (r.state i).clock ≤ t)
    (hover : ∀ m, (r.state i).node.inflight.get? msg.msgId = some m →
      m.visibilityTimeoutUntil < t) :
    ∃ k ≤ ((r.state i).storedIds msg.queue).length, ∃ s',
      exec (TracedNode.step cfg) (r.state i) (List.replicate k (.dequeue msg.queue t t)) =
        some s' ∧
      ∃ m, s'.deliveries.getLast? = some (msg.queue, m) ∧ m.msgId = msg.msgId := by
  have h : Conserved (r.state i) := r.invariant conserved_empty (fun _ _ _ h hs => h.step hs) i hi
  generalize r.state i = s at *
  have hexpired := h.requeueExpiredInflight t
  -- it is in its deque once expired messages are back
  have hmem : msg.msgId ∈ ((s.node.requeueExpiredInflight t).deque msg.queue).map
      QueueMessage.msgId := by
    have hplaces := hexpired.placed msg hmsg
    have hgone : (s.node.requeueExpiredInflight t).inflight.get? msg.msgId = none := by
      rw [QueueNode.get?_requeueExpiredInflight]
      cases hget : s.node.inflight.get? msg.msgId with
      | none => rfl
      | some m =>
        rw [Option.filter_some, if_neg]
        simpa using hover m hget
    rw [places, List.count_eq_zero.mpr hack, hgone] at hplaces
    exact List.count_pos_iff.mp (by simpa using hplaces.ge)
  obtain ⟨m, hm, hid⟩ := List.mem_map.mp hmem
  obtain ⟨xs, ys, hsplit⟩ := List.append_of_mem hm
  obtain ⟨s', hs', hlast⟩ := h.exec_dequeues cfg xs ht (by rw [hsplit])
  refine ⟨xs.length + 1, ?_, s', hs', _, hlast, hid⟩
  have hlength := hexpired.length_deque_le msg.queue
  rw [hsplit, List.length_append, List.length_cons] at hlength
  exact le_trans (by omega) hlength

end Runs

/-- In `redelivered`, the second delivery of the first message. -/
theorem delivered_apart_redelivered : (1 : Time) + 30 < 41 ∧ "m" ∉ (redelivered.state 4).acked := by
  have hfirst : handedOut alone (redelivered.state 2) (redelivered.event 2) = some (1,
      { msgId := "m", queue := "orders", partitionKey := "m", payload := 1, deliveryCount := 1,
        visibilityTimeoutUntil := 31 }) := by decide +kernel
  have hsecond : handedOut alone (redelivered.state 4) (redelivered.event 4) = some (41,
      { msgId := "m", queue := "orders", partitionKey := "m", payload := 1, deliveryCount := 2,
        visibilityTimeoutUntil := 71 }) := by decide +kernel
  exact delivered_apart redelivered (by decide) (by decide) hfirst hsecond rfl

/-- In `redelivered`, the first message can be had again after its first delivery. -/
theorem delivered_again_redelivered : ∃ k ≤ 2, ∃ s',
    exec (step alone) (redelivered.state 3) (List.replicate k (.dequeue "orders" 40 40)) = some s' ∧
      ∃ m, s'.deliveries.getLast? = some ("orders", m) ∧ m.msgId = "m" := by
  have hstored : { msgId := "m", queue := "orders", partitionKey := "m", payload := 1 } ∈
      (redelivered.state 3).stores := by decide +kernel
  exact delivered_again redelivered (i := 3) (by decide) hstored (by decide +kernel) (t := 40)
    (by decide +kernel) (by decide +kernel)

end TracedNode

end Queue
