import Terdistribusi.Queue.Properties.Origin

/-!
# No loss before the ack

Once a node has stored a message with `_store_local`, a message with its id stays with this node, in
a queue or in the inflight table, until the node acks it: a dequeue and an expired timeout move it
between the two, an entry of the inflight table is only overwritten by one with the same id, and
what happens on other nodes and in the network does not touch it.
-/

namespace Queue

open Infra QueueNode

variable {NodeId Value : Type} [DecidableEq NodeId] {cfg : Config NodeId}

namespace QueueNode

/-- What a node has logged with `_store_local` it stores, apart from what is in `acked`. -/
def Holds (acked : String → Prop) (s : QueueNode NodeId Value) : Prop :=
  ∀ msg, Record.enqueue msg ∈ s.log → acked msg.msgId ∨ msg.msgId ∈ s.ids

omit [DecidableEq NodeId] in
theorem Holds.of_log {acked : String → Prop} {s s' : QueueNode NodeId Value} (h : Holds acked s)
    (hids : ∀ x ∈ s.ids, acked x ∨ x ∈ s'.ids)
    (hlog : ∀ msg, Record.enqueue msg ∈ s'.log → Record.enqueue msg ∈ s.log) : Holds acked s' := by
  intro msg hmsg
  rcases h msg (hlog msg hmsg) with hack | hid
  · exact Or.inl hack
  · exact hids msg.msgId hid

omit [DecidableEq NodeId] in
theorem Holds.storeLocal {acked : String → Prop} {s : QueueNode NodeId Value} (h : Holds acked s)
    (msg : QueueMessage NodeId Value) : Holds acked (s.storeLocal msg) := by
  intro m hm
  have hids := s.ids_append msg
  rcases List.mem_append.mp hm with hm | hm
  · exact (h m hm).imp_right fun hid => hids.mem_iff.mpr (List.mem_cons_of_mem _ hid)
  · cases List.mem_singleton.mp hm
    exact Or.inr (hids.mem_iff.mpr List.mem_cons_self)

omit [DecidableEq NodeId] in
theorem Holds.removes {acked : String → Prop} {s s' : QueueNode NodeId Value} (h : Holds acked s)
    {x : String} (hr : Removes x s s') (hx : acked x) : Holds acked s' := by
  refine h.of_log (fun y hy => ?_) (fun m hm => ?_)
  · by_cases hyx : y = x
    · subst hyx
      exact Or.inl hx
    · exact Or.inr (hr.ids y hy hyx)
  · rw [hr.log] at hm
    simpa using hm

/-- A promotion adds messages to the queues and logs nothing. -/
theorem onPeerFailure_ids (cfg : Config NodeId) (b : NodeId) (s : QueueNode NodeId Value) :
    s.ids ⊆ (onPeerFailure cfg b s).ids ∧ (onPeerFailure cfg b s).log = s.log := by
  refine Keyed.foldl_values (R := fun s s' : QueueNode NodeId Value =>
      s.ids ⊆ s'.ids ∧ s'.log = s.log) (fun s => ⟨fun _ => id, rfl⟩)
    (fun _ _ _ h h' => ⟨fun _ hx => h'.1 (h.1 hx), h'.2.trans h.2⟩) promote_replicas
    (fun s msg _ => ?_) s
  rw [promote]
  split
  · exact ⟨fun x hx => (s.ids_append _).mem_iff.mpr (List.mem_cons_of_mem _ hx), rfl⟩
  · exact ⟨fun _ => id, rfl⟩

theorem Holds.act {acked : String → Prop} {s : QueueNode NodeId Value} (h : Holds acked s)
    (inp : Input NodeId (Call NodeId Value) Time (Payload NodeId Value))
    (hack : ∀ x, inp = .call (.ack x) → (QueueNode.ack cfg x s).1 = true → acked x) :
    Holds acked (act cfg inp s).1 := by
  refine act_induction inp h (fun s' hk => ?_) (fun t msg _ ht => ht.storeLocal msg)
    (fun t msg _ ht => ?_) (fun x s' hinp htrue hr => h.removes hr (hack x hinp htrue))
    (fun now m x _ _ => ?_)
    (fun b _ => ?_)
  · exact h.of_log (fun x hx => Or.inr (hk.ids hx)) (fun m hm => by rwa [hk.log] at hm)
  · exact ht.of_log (fun x hx => Or.inr hx)
      (fun m hm => by simpa [QueueNode.storeReplica] using hm)
  · exact h.of_log (fun x hx => Or.inr hx) (fun m hm => by simpa [handleAck] using hm)
  · obtain ⟨hids, hlog⟩ := onPeerFailure_ids cfg b s
    exact h.of_log (fun x hx => Or.inr (hids hx)) (fun m hm => by rwa [hlog] at hm)

end QueueNode

variable {ms : Members NodeId}

theorem holds (run : ClusterRun ms Value) : ∀ i ≤ run.length, ∀ a,
    Holds (run.AckedBefore i) ((run.state i).nodes a) := by
  refine run.induction ?_ (fun i hi ih => ?_)
  · intro a msg hmsg
    rw [run.state_zero] at hmsg
    cases hmsg
  · have hold : ∀ a, Holds (run.AckedBefore (i + 1)) ((run.state i).nodes a) := by
      intro a msg hmsg
      refine (ih a msg hmsg).imp_left ?_
      rintro ⟨j, hj, hack⟩
      exact ⟨j, by omega, hack⟩
    refine (Network.everywhere_succ (N := fun _ s => Holds (run.AckedBefore (i + 1)) s)
      (M := fun _ _ => True) (run.state_succ i hi) hold (fun _ _ _ => trivial)
      (fun a inp hinput _ => ⟨(hold a).act inp ?_, fun _ _ => trivial⟩)).1
    rintro x rfl hack
    exact ⟨i, i.lt_succ_self, a, Network.input?_call hinput, hack⟩

/-- **No loss before the ack**: what a node has stored with `_store_local`, and logged there, is
stored by some node as long as `ack` has not returned `True` for its id. -/
theorem no_loss_before_ack (run : ClusterRun ms Value) (hids : run.UniqueIds) {i : ℕ}
    (hi : i ≤ run.length) {a : NodeId} {msg : QueueMessage NodeId Value}
    (hmsg : Record.enqueue msg ∈ ((run.state i).nodes a).log)
    (hack : ¬ run.AckedBefore i msg.msgId) :
    ∃ b, ∃ msg' ∈ ((run.state i).nodes b).stored, msg'.body = msg.body := by
  have hid := (holds run i hi a msg hmsg).resolve_left hack
  obtain ⟨msg', hmsg', heq⟩ := mem_ids.mp hid
  have hmade := made run i hi
  refine ⟨a, msg', hmsg', ?_⟩
  have hlogged : msg ∈ ((run.state i).nodes a).occurring :=
    mem_occurring.mpr (Or.inr (Or.inr ⟨_, hmsg, rfl⟩))
  exact (hmade.nodes a msg' (occurring_of_stored hmsg')).body_eq hids hi
    (hmade.nodes a msg hlogged) heq

/-- The reply to a dequeue request is lost. -/
def replyLost : ClusterRun pair ℕ :=
  Run.ofEvents _ _ (askedFor ++ [.drop 0 0]) (.drop 0 0) (by decide +kernel)

theorem no_loss_before_ack_replyLost :
    ∃ b, ∃ msg' ∈ ((replyLost.state 5).nodes b).stored, msg'.body = order.body := by
  have hlogged : Record.enqueue order ∈ ((replyLost.state 5).nodes 1).log := by decide +kernel
  have hunacked : ∀ j < 5, ∀ a : Fin 2, replyLost.event j ≠ .call a (.ack "m") := by
    decide +kernel
  exact no_loss_before_ack replyLost (by decide +kernel) (by decide) hlogged
    fun ⟨j, hj, a, he, _⟩ => hunacked j hj a he

end Queue
