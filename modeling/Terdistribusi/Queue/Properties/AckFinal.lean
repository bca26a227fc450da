import Terdistribusi.Queue.Properties.OneCopy

/-!
# When an ack is final

The ack of a message removes the only copy that is stored (`Counted.acked`), and it goes to all
nodes that the message lists for its replicas. A replica is only ever at a listed node, so each one
has the QUEUE_ACK in its inbox or has logged it (`Cleared`).

Two things break this. A node that hands a copy over keeps another one, which the ack at the other
node does not reach. And a QUEUE_REPLICATE that comes after the QUEUE_ACK makes a replica that
nothing removes.
-/

namespace Queue

open Infra QueueNode

variable {NodeId Value : Type}

/-- The id of an `ack` record. -/
def Record.acked : Record NodeId Value → Option String
  | .ack msgId => some msgId
  | _ => none

namespace QueueNode

/-- The ids that the log says are acked. -/
def ackedIds (s : QueueNode NodeId Value) : List String := s.log.filterMap Record.acked

theorem mem_ackedIds {s : QueueNode NodeId Value} {x : String} :
    x ∈ s.ackedIds ↔ Record.ack x ∈ s.log := by
  unfold ackedIds
  rw [List.mem_filterMap]
  constructor
  · rintro ⟨r, hr, hx⟩
    cases r with
    | ack y =>
      cases hx
      exact hr
    | _ => cases hx
  · exact fun h => ⟨_, h, rfl⟩

/-- The message of a QUEUE_REPLICATE for an id that the log says is acked. -/
def belated (s : QueueNode NodeId Value) :
    Input NodeId (Call NodeId Value) Time (Payload NodeId Value) → Option String
  | .receive _ m =>
    match m.payload with
    | .queueReplicate msg => if msg.msgId ∈ s.ackedIds then some msg.msgId else none
    | _ => none
  | _ => none

variable [DecidableEq NodeId] {cfg : Config NodeId} {s : QueueNode NodeId Value}
  {inp : Input NodeId (Call NodeId Value) Time (Payload NodeId Value)} {x : String}

theorem act_queueAck {now : Time} {o : Message NodeId (Payload NodeId Value)}
    (hp : o.payload = .queueAck x) : (act cfg (.receive now o) s).1 = s.handleAck x := by
  obtain ⟨senderId, receiverId, payload⟩ := o
  cases hp
  rfl

theorem act_ackedIds (hfail : ∀ b, inp ≠ .call (.onPeerFailure b)) (hx : x ∈ s.ackedIds) :
    x ∈ (act cfg inp s).1.ackedIds := by
  rw [mem_ackedIds] at hx ⊢
  refine act_induction (P := fun t => Record.ack x ∈ t.log) inp hx
    (fun s' hk => by rwa [hk.log]) (fun t msg _ ht => List.mem_append_left _ ht)
    (fun t msg _ ht => List.mem_append_left _ ht) (fun y s' _ _ hr => ?_)
    (fun now m y _ _ => List.mem_append_left _ hx) (fun b hb => absurd hb (hfail b))
  rw [hr.log]
  exact List.mem_append_left _ hx

/-- An input that brings no replica with the id leaves none that was not there. -/
theorem act_replicas (hfail : ∀ b, inp ≠ .call (.onPeerFailure b))
    (hdraws : ∀ msg, Draws cfg inp msg → msg.msgId ≠ x)
    (hreplicate : ∀ now m msg, inp = .receive now m → m.payload = .queueReplicate msg →
      msg.msgId ≠ x) {msg : QueueMessage NodeId Value}
    (hx : (act cfg inp s).1.replicas.get? x = some msg) : s.replicas.get? x = some msg := by
  refine act_induction
    (P := fun t => t.replicas.get? x = some msg → s.replicas.get? x = some msg) inp id
    (fun s' hk h => by rwa [hk.replicas] at h) (fun t m _ ht h => ht h) (fun t m hm ht h => ?_)
    (fun y s' _ _ hr h => hr.replicas_get? h)
    (fun now m y _ _ h => (handleAck_removes y s).replicas_get? h)
    (fun b hb => absurd hb (hfail b)) hx
  have hne : m.msgId ≠ x := by
    rcases hm with ⟨hdraw, -⟩ | ⟨now, o, hinp, hp⟩
    · exact hdraws m hdraw
    · exact hreplicate now o m hinp hp
  have hput : (t.replicas.put m).get? x = some msg := h
  rw [Keyed.get?_put, if_neg hne] at hput
  exact ht hput

/-- Only `enqueue` sends replicas, and only to the listed nodes. -/
theorem act_sends_replicate {o : Message NodeId (Payload NodeId Value)}
    {msg : QueueMessage NodeId Value} (ho : o ∈ (act cfg inp s).2)
    (hp : o.payload = .queueReplicate msg) : Draws cfg inp msg ∧ o.receiverId ∈ msg.replicas := by
  rcases act_sends_cases ho with ⟨m, hdraw, ⟨hp', -⟩ | ⟨hp', hr⟩⟩ | ⟨m, -, hp'⟩ | hnone
  · rw [hp'] at hp
    cases hp
  · rw [hp'] at hp
    cases hp
    exact ⟨hdraw, hr⟩
  · rw [hp'] at hp
    cases hp
  · rw [hp] at hnone
    cases hnone

/-- A replica that an input brings is listed, when the received one is. -/
theorem act_listed (cfg : Config NodeId)
    (hs : ∀ msg ∈ s.replicas.values, cfg.nodeId ∈ msg.replicas)
    (hfail : ∀ b, inp ≠ .call (.onPeerFailure b))
    (hreplicate : ∀ now m msg, inp = .receive now m → m.payload = .queueReplicate msg →
      cfg.nodeId ∈ msg.replicas) :
    ∀ msg ∈ (act cfg inp s).1.replicas.values, cfg.nodeId ∈ msg.replicas := by
  have hremoves : ∀ y s', Removes y s s' → ∀ msg ∈ s'.replicas.values, cfg.nodeId ∈ msg.replicas :=
    fun y s' hr msg hmsg =>
      hs msg (Keyed.mem_values_iff.mpr (hr.replicas_get? (Keyed.mem_values_iff.mp hmsg)))
  refine act_induction
    (P := fun t => ∀ msg ∈ t.replicas.values, cfg.nodeId ∈ msg.replicas) inp hs
    (fun s' hk => by rwa [hk.replicas]) (fun t m _ ht => ht) (fun t m hm ht msg hmsg => ?_)
    (fun y s' _ _ hr => hremoves y s' hr) (fun now m y _ _ => hremoves y _ (handleAck_removes y s))
    (fun b hb => absurd hb (hfail b))
  rcases Keyed.mem_values_put hmsg with rfl | hmsg
  · rcases hm with ⟨-, hself⟩ | ⟨now, o, hinp, hp⟩
    · exact hself
    · exact hreplicate now o msg hinp hp
  · exact ht msg hmsg

end QueueNode

/-! ## In a cluster -/

variable [DecidableEq NodeId] {ms : Members NodeId}

/-- The id of a QUEUE_REPLICATE that is taken after the node has logged an ack for it. -/
def overtaken (s : Cluster NodeId Value) (e : Event NodeId Value) : Option String :=
  (s.input? e).bind fun r => belated (s.nodes r.1) r.2

/-- No QUEUE_REPLICATE for the id is overtaken by its ack. -/
def InStep (run : ClusterRun ms Value) (x : String) : Prop :=
  ∀ i < run.length, overtaken (run.state i) (run.event i) ≠ some x

instance (run : ClusterRun ms Value) (x : String) : Decidable (InStep run x) :=
  inferInstanceAs (Decidable (∀ i < run.length, _))

/-- Replicas are only at the nodes that their message lists, and on their way to these. -/
structure Listed (s : Cluster NodeId Value) : Prop where
  nodes : ∀ a, ∀ msg ∈ (s.nodes a).replicas.values, a ∈ msg.replicas
  inbox : ∀ a, ∀ o ∈ s.inbox a, ∀ msg, o.payload = .queueReplicate msg → a ∈ msg.replicas

theorem listed (run : ClusterRun ms Value) (hfail : run.NoPeerFailure) :
    ∀ i ≤ run.length, Listed (run.state i) := by
  refine run.induction ?_ (fun i hi ih => ?_)
  · constructor
    · intro a msg hmsg
      rw [run.state_zero] at hmsg
      cases hmsg
    · intro a o ho
      rw [run.state_zero] at ho
      cases ho
  · have hsucc := Network.everywhere_succ
      (N := fun a s => ∀ msg ∈ s.replicas.values, a ∈ msg.replicas)
      (M := fun a o => ∀ msg, o.payload = .queueReplicate msg → a ∈ msg.replicas)
      (run.state_succ i hi) ih.nodes ih.inbox (fun a inp hinput hreceived => ⟨?_, ?_⟩)
    · exact ⟨hsucc.1, hsucc.2⟩
    · exact act_listed (ms.config a) (ih.nodes a) (ne_onPeerFailure hinput (hfail i hi))
        (fun now m msg hinp hp => hreceived now m hinp msg hp)
    · exact fun o ho msg hp => (act_sends_replicate ho hp).2

/-- A node has a replica with the id, or a QUEUE_REPLICATE for it in its inbox. -/
def Replicated (s : Cluster NodeId Value) (x : String) (b : NodeId) : Prop :=
  ∃ msg, msg.msgId = x ∧
    ((s.nodes b).replicas.get? x = some msg ∨ ∃ o ∈ s.inbox b, o.payload = .queueReplicate msg)

/-- A QUEUE_ACK for the id is on its way to the node, or the node has logged it and has no
replica. -/
def Cleared (s : Cluster NodeId Value) (x : String) (b : NodeId) : Prop :=
  (∃ o ∈ s.inbox b, o.payload = .queueAck x) ∨
    x ∈ (s.nodes b).ackedIds ∧ (s.nodes b).replicas.get? x = none

omit [DecidableEq NodeId] in
theorem Listed.mem_replicas {s : Cluster NodeId Value} (h : Listed s) {b : NodeId} {x : String}
    {msg : QueueMessage NodeId Value} (hrep : (s.nodes b).replicas.get? x = some msg ∨
      ∃ o ∈ s.inbox b, o.payload = .queueReplicate msg) : b ∈ msg.replicas := by
  rcases hrep with hmsg | ⟨o, ho, hp⟩
  · exact h.nodes b msg (Keyed.mem_values_of_get? hmsg)
  · exact h.inbox b o ho msg hp

theorem AllMade.of_replicated {run : ClusterRun ms Value} {i : ℕ} (h : AllMade run i) {b : NodeId}
    {x : String} {msg : QueueMessage NodeId Value}
    (hrep : ((run.state i).nodes b).replicas.get? x = some msg ∨
      ∃ o ∈ (run.state i).inbox b, o.payload = .queueReplicate msg) : Made run i msg := by
  rcases hrep with hmsg | ⟨o, ho, hp⟩
  · exact h.nodes b msg (mem_occurring.mpr (Or.inr (Or.inl (Keyed.mem_values_of_get? hmsg))))
  · exact h.inbox b o ho msg (by rw [hp]; rfl)

section Ack

variable {run : ClusterRun ms Value} {i : ℕ} {a : NodeId} {x : String}
  {inbox₀ : NodeId → List (Message NodeId (Payload NodeId Value))}

/-- An id that has been drawn is not drawn again. -/
theorem ne_of_draws {inp : Input NodeId (Call NodeId Value) Time (Payload NodeId Value)}
    (hids : run.UniqueIds) (hi : i < run.length) (hx : x ∈ run.drawnIds i)
    (hinput : (run.state i).input? (run.event i) = some (a, inp)) :
    ∀ msg, Draws (ms.config a) inp msg → msg.msgId ≠ x := by
  rintro msg ⟨msgId, queue, payload, partitionKey, rfl, hnew⟩ rfl
  refine not_mem_drawnIds hids hi ?_ hx
  rw [Network.input?_call hinput, msgId_newMessage hnew]
  rfl

/-- An input that brings no copy with the id to a node leaves what is replicated replicated. -/
theorem replicated_before {inp : Input NodeId (Call NodeId Value) Time (Payload NodeId Value)}
    (hids : run.UniqueIds) (hfail : run.NoPeerFailure) (hi : i < run.length)
    (hx : x ∈ run.drawnIds i) (hinput : (run.state i).input? (run.event i) = some (a, inp))
    (hmoves : Network.Moves ms.act (run.state i) (run.state (i + 1)) a inp inbox₀) {b : NodeId}
    (hrep : Replicated (run.state (i + 1)) x b) : Replicated (run.state i) x b := by
  have hdraws := ne_of_draws hids hi hx hinput
  obtain ⟨m, hid, hm | ⟨o, ho, hp⟩⟩ := hrep
  · rw [hmoves.nodes] at hm
    by_cases hb : b = a
    · subst hb
      rw [Function.update_self] at hm
      by_cases hrec : ∃ now o msg, inp = .receive now o ∧ o.payload = .queueReplicate msg ∧
          msg.msgId = x
      · obtain ⟨now, o, msg, rfl, hp, hmsg⟩ := hrec
        obtain ⟨k, -, ho⟩ := Network.input?_receive hinput
        exact ⟨msg, hmsg, Or.inr ⟨o, List.mem_of_getElem? ho, hp⟩⟩
      · refine ⟨m, hid, Or.inl (act_replicas (ne_onPeerFailure hinput (hfail i hi)) hdraws ?_ hm)⟩
        exact fun now o msg hinp hp hmsg => hrec ⟨now, o, msg, hinp, hp, hmsg⟩
    · rw [Function.update_of_ne hb] at hm
      exact ⟨m, hid, Or.inl hm⟩
  · rcases hmoves.mem_inbox ho with hold | ⟨hout, -⟩
    · exact ⟨m, hid, Or.inr ⟨o, hold, hp⟩⟩
    · exact absurd hid (hdraws m (act_sends_replicate hout hp).1)

/-- The ack goes to all nodes that have a replica, or will have one. -/
theorem cleared_of_ack (hids : run.UniqueIds) (hfail : run.NoPeerFailure) (hi : i < run.length)
    (hinput : (run.state i).input? (run.event i) = some (a, .call (.ack x)))
    (hmoves : Network.Moves ms.act (run.state i) (run.state (i + 1)) a (.call (.ack x)) inbox₀)
    (hsome : (((run.state i).nodes a).inflight.get? x).isSome) {b : NodeId}
    (hrep : Replicated (run.state (i + 1)) x b) : Cleared (run.state (i + 1)) x b := by
  rcases ack_cases (ms.config a) x ((run.state i).nodes a) with
    ⟨hnone, -⟩ | ⟨msg, hmsg, -, hnode, hout⟩
  · rw [hnone] at hsome
    cases hsome
  · have hself : (run.state (i + 1)).nodes a =
        (ack (ms.config a) x ((run.state i).nodes a)).2.1 := by
      rw [hmoves.nodes, Function.update_self]
      rfl
    have hid := Keyed.key_of_get? hmsg
    have hmade := made run i hi.le
    have hmsg_made : Made run i msg := by
      refine hmade.nodes a msg (occurring_of_stored ?_)
      exact List.mem_append_right _ (Keyed.mem_values_of_get? hmsg)
    -- what makes `b` replicated was there before, and lists the same nodes
    obtain ⟨m, hmid, hbefore⟩ :=
      replicated_before hids hfail hi (hid ▸ hmsg_made.mem_drawnIds) hinput hmoves hrep
    have hsame : m.replicas = msg.replicas := QueueMessage.replicas_eq_of_body
      ((hmade.of_replicated hbefore).body_eq hids hi.le hmsg_made (hmid.trans hid.symm))
    have hb : b ∈ msg.replicas := by
      rw [← hsame]
      exact (listed run hfail i hi.le).mem_replicas hbefore
    by_cases hba : b = a
    · subst hba
      refine Or.inr ⟨?_, ?_⟩
      · rw [hself, hnode, mem_ackedIds]
        exact List.mem_append_right _ List.mem_cons_self
      · rw [hself, hnode]
        exact (congrArg (Keyed.get? · x) (if_pos hb)).trans (Keyed.get?_pop_self _ x)
    · refine Or.inl ⟨{ senderId := a, receiverId := b, payload := .queueAck x }, ?_, rfl⟩
      have hsent : ({ senderId := a, receiverId := b, payload := .queueAck x } :
          Message NodeId (Payload NodeId Value)) ∈
            (ms.act a (.call (.ack x)) ((run.state i).nodes a)).2 := by
        show _ ∈ (ack (ms.config a) x ((run.state i).nodes a)).2.2
        rw [hout]
        exact Network.mem_broadcast.mpr
          ⟨rfl, rfl, List.mem_filter.mpr ⟨hb, decide_eq_true hba⟩⟩
      exact hmoves.sent hsent

/-- What is cleared stays cleared. -/
theorem cleared_succ {inp : Input NodeId (Call NodeId Value) Time (Payload NodeId Value)}
    (hids : run.UniqueIds) (hfail : run.NoPeerFailure) (hstep : InStep run x) (hi : i < run.length)
    (hx : x ∈ run.drawnIds i) (hinput : (run.state i).input? (run.event i) = some (a, inp))
    (hmoves : Network.Moves ms.act (run.state i) (run.state (i + 1)) a inp inbox₀) {b : NodeId}
    (h : Cleared (run.state i) x b) : Cleared (run.state (i + 1)) x b := by
  have hnofail := ne_onPeerFailure hinput (hfail i hi)
  rcases h with ⟨o, ho, hp⟩ | ⟨hlogged, hnone⟩
  · by_cases htaken : b = a ∧ ∃ now, inp = .receive now o
    · -- the node takes the ack
      obtain ⟨rfl, now, rfl⟩ := htaken
      have hself : (run.state (i + 1)).nodes b = ((run.state i).nodes b).handleAck x := by
        rw [hmoves.nodes, Function.update_self]
        exact act_queueAck hp
      refine Or.inr ⟨?_, ?_⟩
      · rw [hself, mem_ackedIds]
        exact List.mem_append_right _ List.mem_cons_self
      · rw [hself]
        exact Keyed.get?_pop_self _ x
    · refine Or.inl ⟨o, hmoves.kept ho ?_, hp⟩
      rintro now o' hinp hb rfl
      exact htaken ⟨hb, now, hinp⟩
  · refine Or.inr ?_
    rw [hmoves.nodes]
    by_cases hb : b = a
    · subst hb
      rw [Function.update_self]
      refine ⟨act_ackedIds hnofail hlogged, ?_⟩
      -- a replica that came back would have been stored after its ack
      by_contra hsome
      obtain ⟨m, hm⟩ := Option.ne_none_iff_exists'.mp hsome
      have hold : ((run.state i).nodes b).replicas.get? x = some m := by
        refine act_replicas hnofail (ne_of_draws hids hi hx hinput) ?_ hm
        rintro now o msg rfl hp rfl
        refine hstep i hi ?_
        simp [overtaken, hinput, belated, hp, hlogged]
      rw [hnone] at hold
      cases hold
    · rw [Function.update_of_ne hb]
      exact ⟨hlogged, hnone⟩

end Ack

variable [Fintype NodeId]

theorem cleared (run : ClusterRun ms Value) (hids : run.UniqueIds) (hdrops : run.NoDrops)
    (hfail : run.NoPeerFailure) {x : String} (hretains : Retains run x) (hstep : InStep run x) :
    ∀ i ≤ run.length, run.AckedBefore i x →
      ∀ b, Replicated (run.state i) x b → Cleared (run.state i) x b := by
  refine run.induction ?_ (fun i hi ih => ?_)
  · rintro ⟨j, hj, -⟩
    cases hj
  · intro hack b hrep
    rcases Network.moves_cases (run.state_succ i hi) with
      ⟨a, k, m, hdrop, -⟩ | ⟨a, inp, inbox₀, hinput, hmoves⟩
    · have hno := hdrops i hi
      rw [hdrop] at hno
      cases hno
    · rcases ackedBefore_succ.mp hack with hold | hnew
      · have hx : x ∈ run.drawnIds i := by
          have hcount := (counted run hfail hretains i hi.le).acked hold
          exact List.count_pos_iff.mp (by omega)
        have hbefore := replicated_before hids hfail hi hx hinput hmoves hrep
        exact cleared_succ hids hfail hstep hi hx hinput hmoves (ih hold b hbefore)
      · obtain ⟨rfl, hsome⟩ := input_of_ackedAt hnew hinput
        exact cleared_of_ack hids hfail hi hinput hmoves hsome hrep

/-- After an ack no node stores the message. -/
theorem not_mem_ids_of_acked {run : ClusterRun ms Value} (hids : run.UniqueIds)
    (hfail : run.NoPeerFailure) {x : String} (hretains : Retains run x) {i : ℕ}
    (hi : i ≤ run.length) (hack : run.AckedBefore i x) (a : NodeId) :
    x ∉ ((run.state i).nodes a).ids := by
  have hcount := (counted run hfail hretains i hi).acked hack
  have hone := List.nodup_iff_count_le_one.mp (drawnIds_nodup hids hi) x
  have hle := Network.weigh_le_total (fun n : QueueNode NodeId Value => n.ids.count x) (carries x)
    (run.state i) a
  unfold copies at hcount
  exact List.count_eq_zero.mp (by omega)

omit [DecidableEq NodeId] [Fintype NodeId] in
/-- What a consumer gets was stored. -/
theorem mem_ids_of_dequeue {cfg : Config NodeId} {queue : String} {now now' : Time}
    {s : QueueNode NodeId Value} {msg : QueueMessage NodeId Value}
    (h : (dequeue cfg queue now now' s).1 = some msg) : msg.msgId ∈ s.ids := by
  have hkeeps := dequeue_keeps cfg queue now now' s
  by_contra hno
  refine hkeeps.not_mem_ids hno (mem_ids.mpr ⟨msg, ?_, rfl⟩)
  unfold dequeue at h ⊢
  rcases hpop : popLocal cfg queue now' (s.requeueExpiredInflight now) with ⟨_ | msg', s'⟩
  · rw [hpop] at h
    cases h
  · rw [hpop] at h
    cases h
    exact popLocal_inflight cfg hpop

/-- **An ack is final** for an id of which no copy is handed over and whose QUEUE_REPLICATE is not
overtaken: when `ack` has returned `True` and no message is in flight, no node has a message with
the id, and no consumer gets one again. -/
theorem ack_final (run : ClusterRun ms Value) (hids : run.UniqueIds) (hdrops : run.NoDrops)
    (hfail : run.NoPeerFailure) {x : String} (hretains : Retains run x) (hstep : InStep run x)
    {i : ℕ} (hi : i ≤ run.length) (hack : run.AckedBefore i x)
    (hquiet : ∀ a, (run.state i).inbox a = []) :
    (∀ a, x ∉ ((run.state i).nodes a).ids ∧ ((run.state i).nodes a).replicas.get? x = none) ∧
      ∀ j < run.length, i ≤ j → ∀ a queue now now' msg,
        run.event j = .call a (.dequeue queue now now') →
        (dequeue (ms.config a) queue now now' ((run.state j).nodes a)).1 = some msg →
        msg.msgId ≠ x := by
  constructor
  · intro a
    refine ⟨not_mem_ids_of_acked hids hfail hretains hi hack a, ?_⟩
    by_contra hsome
    obtain ⟨m, hm⟩ := Option.ne_none_iff_exists'.mp hsome
    have hclear := cleared run hids hdrops hfail hretains hstep i hi hack a
      ⟨m, Keyed.key_of_get? hm, Or.inl hm⟩
    rcases hclear with ⟨o, ho, -⟩ | ⟨-, hnone⟩
    · rw [hquiet a] at ho
      cases ho
    · exact hsome hnone
  · rintro j hj hij a queue now now' msg - hmsg rfl
    have hlater : run.AckedBefore j msg.msgId := by
      obtain ⟨k, hk, hacked⟩ := hack
      exact ⟨k, by omega, hacked⟩
    exact not_mem_ids_of_acked hids hfail hretains hj.le hlater a (mem_ids_of_dequeue hmsg)

/-- The primary delivers the message to a consumer of its own and is told of the ack. -/
def ackedHome : ClusterRun pair ℕ :=
  Run.ofEvents _ _ (askedFor.take 2 ++
    [.call 1 (.dequeue "orders" 0 0), .call 1 (.ack "m"), .deliver 0 0 0]) (.drop 0 0)
    (by decide +kernel)

theorem ack_final_ackedHome :
    "m" ∉ ((ackedHome.state 5).nodes 1).ids ∧
      ((ackedHome.state 5).nodes 0).replicas.get? "m" = none := by
  have hack : ackedHome.AckedBefore 5 "m" :=
    ⟨3, by decide, 1, by decide +kernel, by decide +kernel⟩
  have hfinal := (ack_final ackedHome (by decide +kernel) (by decide +kernel) (by decide +kernel)
    (by decide +kernel) (by decide +kernel) (by decide) hack (by decide +kernel)).1
  exact ⟨(hfinal 1).1, (hfinal 0).2⟩

/-! ## Acks that are not final -/

/-- Node 0 gets the message from node 1, a consumer of node 0 acks it, and a consumer of node 1 asks
for a message. -/
def ackedAway : ClusterRun pair ℕ :=
  Run.ofEvents _ _ (askedFor ++
    [.deliver 0 0 0, .call 0 (.dequeue "orders" 31 31), .call 0 (.ack "m"),
      .call 1 (.dequeue "orders" 31 31)]) (.drop 0 0) (by decide +kernel)

/-- After the ack no message is in flight and node 1 still has the message, which its consumer
gets. -/
theorem ackedAway_delivers_again :
    ackedAway.UniqueIds ∧ ackedAway.NoDrops ∧ ackedAway.NoPeerFailure ∧
      ackedAway.AckedBefore 7 "m" ∧ (∀ a, (ackedAway.state 7).inbox a = []) ∧
      "m" ∈ ((ackedAway.state 7).nodes 1).ids ∧
      ((dequeue (pair.config 1) "orders" 31 31 ((ackedAway.state 7).nodes 1)).1.map
        QueueMessage.msgId) = some "m" := by
  have hack : ackedAway.AckedBefore 7 "m" :=
    ⟨6, by decide, 0, by decide +kernel, by decide +kernel⟩
  refine ⟨by decide +kernel, by decide +kernel, by decide +kernel, hack, by decide +kernel,
    by decide +kernel, by decide +kernel⟩

/-- Node 1 enqueues the message, and its QUEUE_ACK to node 0 is delivered before its
QUEUE_REPLICATE. -/
def ackedEarly : ClusterRun pair ℕ :=
  Run.ofEvents _ _ [.call 1 (.enqueue "m" "orders" 1 none), .call 1 (.dequeue "orders" 0 0),
    .call 1 (.ack "m"), .deliver 0 1 0, .deliver 0 0 0] (.drop 0 0) (by decide +kernel)

/-- The replica stays. No copy was handed over. -/
theorem ackedEarly_keeps_replica :
    Retains ackedEarly "m" ∧ (∀ a, (ackedEarly.state 5).inbox a = []) ∧
      (((ackedEarly.state 5).nodes 0).replicas.get? "m").isSome := by
  decide +kernel

end Queue
