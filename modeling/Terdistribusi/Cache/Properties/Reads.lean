import Terdistribusi.Cache.Properties.Sound
import Terdistribusi.Infra.Causes

/-!
# Concurrent reads

Futures wait by key. A `get` that misses while an earlier `get` of the same key waits takes the
place of its future, which then waits in vain; as long as no `get` does this, every one is answered.

* `waiting_act` — what can happen to a `get` that waits under its key
* `ClusterRun.every_get_returns_iff` — every `get` gets a value that a peer has had, exactly when
  no `get` misses while another one waits
* `ClusterRun.Misses.replaced_returns_nothing` — a `get` that is replaced never returns a value
-/

namespace Cache

open Infra

variable {NodeId Key Value : Type} [DecidableEq Key]

namespace CacheNode

variable {cfg : Config NodeId} {key : Key} {s : CacheNode Key Value} {id : ℕ}
  {inp : Input NodeId (Call Key Value) Unit (Payload Key Value)}

/-! ## A `get` that misses -/

theorem validLine?_eq_none (h : s.value? key = none) : s.validLine? key = none :=
  Option.map_eq_none_iff.mp h

theorem act_get_of_miss (h : s.value? key = none) :
    act cfg (.call (.get key)) s = s.busRead cfg key := by
  simp only [act, get, validLine?_eq_none h]

/-- The earlier futures stay. -/
theorem reads_get_of_miss (cfg : Config NodeId) (hs : s.Sound) (hmiss : s.value? key = none)
    {read : Read Key Value} (hread : s.reads.get? id = some read) :
    (act cfg (.call (.get key)) s).1.reads.get? id = some read := by
  rw [act_get_of_miss hmiss]
  exact (Dict.get?_set_ne _ _ (Nat.ne_of_gt (hs.reads id read hread))).trans hread

theorem miss_of_nextRead (h : (act cfg (.call (.get key)) s).1.nextRead = s.nextRead + 1) :
    s.value? key = none := by
  unfold value?
  cases hline : s.validLine? key with
  | none => rfl
  | some line =>
    simp only [act, get, hline] at h
    omega

/-- A node with the key answers the node that fetches it. -/
theorem answer_fetch (cfg : Config NodeId) (h : s.value? key ≠ none) (env : Unit)
    {m : Message NodeId (Payload Key Value)} (hm : m.payload = .cacheFetch key) :
    ∃ reply : Reply Value,
      { senderId := cfg.nodeId, receiverId := m.senderId, payload := .cacheResponse key reply } ∈
        (act cfg (.receive env m) s).2 := by
  cases hline : s.validLine? key with
  | none => exact absurd (by unfold value?; rw [hline]; rfl) h
  | some line =>
    simp only [act, hm, handleFetch, hline]
    exact ⟨_, Network.mem_broadcast.mpr ⟨rfl, rfl, List.mem_cons_self⟩⟩

/-! ## A `get` that waits -/

/-- What an input can do to a `get` of the key whose future is the one that a reply resolves. -/
inductive WaitingStep (cfg : Config NodeId) (key : Key)
    (inp : Input NodeId (Call Key Value) Unit (Payload Key Value)) (s : CacheNode Key Value)
    (id : ℕ) : Prop
  | waits (hpending : (act cfg inp s).1.pendingReads.get? key = some id)
    (hread : (act cfg inp s).1.reads.get? id = some { key := key, future := .pending })
    (h : ∀ env m reply, inp = .receive env m → m.payload ≠ .cacheResponse key reply)
  | answered (env : Unit) (m : Message NodeId (Payload Key Value)) (reply : Reply Value)
    (h : inp = .receive env m) (hm : m.payload = .cacheResponse key reply)
    (hread : (act cfg inp s).1.reads.get? id = some { key := key, future := .result reply })
  | timedOut (h : inp = .call (.timeout id))
  | replaced (h : inp = .call (.get key)) (hmiss : s.value? key = none)
  | removed (id' : ℕ) (h : inp = .call (.resume id'))
    (hread : s.reads.get? id' = some { key := key, future := .cancelled })

theorem waiting_get (key' : Key) (hpending : s.pendingReads.get? key = some id)
    (hread : s.reads.get? id = some { key := key, future := .pending }) (hid : id < s.nextRead) :
    WaitingStep cfg key (.call (.get key')) s id := by
  cases hmiss : s.value? key' with
  | none =>
    by_cases hk : key' = key
    · subst hk
      exact .replaced rfl hmiss
    · refine .waits ?_ ?_ (by simp) <;> rw [act_get_of_miss hmiss]
      · exact (Dict.get?_set_ne _ _ hk).trans hpending
      · exact (Dict.get?_set_ne _ _ (Nat.ne_of_gt hid)).trans hread
  | some v =>
    obtain ⟨line, hline, -⟩ := Option.map_eq_some_iff.mp hmiss
    refine .waits ?_ ?_ (by simp) <;> simp only [act, get, hline]
    · exact hpending
    · exact hread

theorem waiting_timeout (id' : ℕ) (hpending : s.pendingReads.get? key = some id)
    (hread : s.reads.get? id = some { key := key, future := .pending }) :
    WaitingStep cfg key (.call (.timeout id')) s id := by
  by_cases hid : id' = id
  · subst hid
    exact .timedOut rfl
  · refine .waits ?_ ?_ (by simp) <;> simp only [act, timeout] <;> split
    · exact hpending
    · exact hpending
    · exact hread
    · exact (Dict.get?_set_ne _ _ hid).trans hread

theorem waiting_resume (id' : ℕ) (hpending : s.pendingReads.get? key = some id)
    (hread : s.reads.get? id = some { key := key, future := .pending }) :
    WaitingStep cfg key (.call (.resume id')) s id := by
  -- a `get` that goes on is not the one that waits
  have hne {read : Read Key Value} (hread' : s.reads.get? id' = some read)
      (hf : read.future ≠ .pending) : id' ≠ id := by
    rintro rfl
    rw [hread'] at hread
    cases hread
    exact hf rfl
  have hkept (hs : (s.resume cfg id').2 = s) : WaitingStep cfg key (.call (.resume id')) s id := by
    refine .waits ?_ ?_ (by simp) <;> simp only [act, hs]
    · exact hpending
    · exact hread
  cases hread' : s.reads.get? id' with
  | none => exact hkept (by simp [resume, hread'])
  | some read =>
    obtain ⟨key', future⟩ := read
    cases future with
    | pending => exact hkept (by simp [resume, hread'])
    | cancelled =>
      by_cases hk : key' = key
      · subst hk
        exact .removed id' rfl hread'
      · refine .waits ?_ ?_ (by simp) <;> simp only [act, resume, hread', Dict.get?_erase]
        · rw [if_neg hk]
          exact hpending
        · rw [if_neg (hne hread' (by simp))]
          exact hread
    | result reply =>
      refine .waits ?_ ?_ (by simp) <;>
        simp only [act, resume, hread', Dict.get?_erase, reads_install, pendingReads_install]
      · exact hpending
      · rw [if_neg (hne hread' (by simp))]
        exact hread

theorem waiting_response {env : Unit} {m : Message NodeId (Payload Key Value)} {key' : Key}
    {reply : Reply Value} (hm : m.payload = .cacheResponse key' reply) (hs : s.Sound)
    (hpending : s.pendingReads.get? key = some id)
    (hread : s.reads.get? id = some { key := key, future := .pending }) :
    WaitingStep cfg key (.receive env m) s id := by
  by_cases hk : key' = key
  · subst hk
    refine .answered env m reply rfl hm ?_
    simp only [act, hm, handleResponse, hpending, hread]
    exact Dict.get?_set_self _ _ _
  · -- the reply resolves a future of its own key
    have hne {id' : ℕ} (hpending' : s.pendingReads.get? key' = some id') : id' ≠ id := by
      rintro rfl
      exact hk (hs.key key' id' _ hpending' hread).symm
    have hother : ∀ env' x reply',
        (.receive env m : Input NodeId (Call Key Value) Unit (Payload Key Value)) =
          .receive env' x → x.payload ≠ .cacheResponse key reply' := by
      rintro env' x reply' ⟨⟩ hx
      rw [hm] at hx
      cases hx
      exact hk rfl
    cases hpending' : s.pendingReads.get? key' with
    | none =>
      refine .waits ?_ ?_ hother <;> simp only [act, hm, handleResponse, hpending']
      · exact hpending
      · exact hread
    | some id' =>
      refine .waits ?_ ?_ hother <;> simp only [act, hm, handleResponse, hpending']
      · rw [Dict.get?_erase, if_neg hk]
        exact hpending
      · split
        · exact (Dict.get?_set_ne _ _ (hne hpending')).trans hread
        · exact hread

/-- **What can happen to a `get` that waits.** -/
theorem waiting_act (cfg : Config NodeId) (hs : s.Sound)
    (inp : Input NodeId (Call Key Value) Unit (Payload Key Value))
    (hpending : s.pendingReads.get? key = some id)
    (hread : s.reads.get? id = some { key := key, future := .pending }) :
    WaitingStep cfg key inp s id := by
  rcases sameFutures_cases cfg s inp with
    ⟨key', rfl⟩ | ⟨id', rfl⟩ | ⟨id', rfl⟩ | ⟨env, m, key', reply, rfl, hm⟩ | h
  · exact waiting_get key' hpending hread (hs.reads id _ hread)
  · exact waiting_timeout id' hpending hread
  · exact waiting_resume id' hpending hread
  · exact waiting_response hm hs hpending hread
  · by_cases hinp : ∀ env m reply, inp = .receive env m → m.payload ≠ .cacheResponse key reply
    · exact .waits (by rw [h.pendingReads]; exact hpending) (by rw [h.reads]; exact hread) hinp
    · push Not at hinp
      obtain ⟨env, m, reply, rfl, hm⟩ := hinp
      exact waiting_response hm hs hpending hread

/-! ## A `get` with its result -/

/-- **What can happen to a `get` whose future has its result.** -/
theorem result_act (cfg : Config NodeId) (hs : s.Sound)
    (inp : Input NodeId (Call Key Value) Unit (Payload Key Value)) {reply : Reply Value}
    (hread : s.reads.get? id = some { key := key, future := .result reply }) :
    (act cfg inp s).1.reads.get? id = some { key := key, future := .result reply } ∨
      inp = .call (.timeout id) ∨
      inp = .call (.resume id) ∧ (s.resume cfg id).1 = some reply.value ∧
        (act cfg inp s).1.reads.get? id = none := by
  rcases sameFutures_cases cfg s inp with
    ⟨key', rfl⟩ | ⟨id', rfl⟩ | ⟨id', rfl⟩ | ⟨env, m, key', reply', rfl, hm⟩ | h
  · refine Or.inl ?_
    -- a new read gets an id that no read has yet
    have hid := hs.reads id _ hread
    simp only [act, get]
    split
    · exact hread
    · exact (Dict.get?_set_ne _ _ (Nat.ne_of_gt hid)).trans hread
  · by_cases hid : id' = id
    · subst hid
      exact Or.inr (Or.inl rfl)
    · refine Or.inl ?_
      -- the timer of another read
      simp only [act, timeout]
      split
      · exact hread
      · exact (Dict.get?_set_ne _ _ hid).trans hread
  · by_cases hid : id' = id
    · subst hid
      refine Or.inr (Or.inr ⟨rfl, ?_, ?_⟩) <;> simp only [act, resume, hread]
      rw [Dict.get?_erase, if_pos rfl]
    · refine Or.inl ?_
      -- another `get` goes on
      simp only [act, resume]
      split
      · exact hread
      · exact hread
      · rw [Dict.get?_erase, if_neg hid]
        exact hread
      · rw [Dict.get?_erase, if_neg hid, reads_install]
        exact hread
  · refine Or.inl ?_
    simp only [act, hm, handleResponse]
    split
    · exact hread
    · dsimp only
      split
      · next id' _ _ key'' hread' =>
        -- the reply is for a read that still waits, so for another one
        refine (Dict.get?_set_ne _ _ ?_).trans hread
        rintro rfl
        rw [hread] at hread'
        cases hread'
      · exact hread
  · refine Or.inl ?_
    rw [h.reads]
    exact hread

/-! ## A `get` whose future has been replaced -/

/-- No reply will resolve the future. -/
structure Lost (s : CacheNode Key Value) (id : ℕ) : Prop where
  lt : id < s.nextRead
  pendingReads : ∀ key, s.pendingReads.get? key ≠ some id
  reads : ∀ key reply, s.reads.get? id ≠ some { key := key, future := .result reply }

/-- A `get` that misses takes the place of the future of one that waits. -/
theorem lost_of_get (cfg : Config NodeId) (hs : s.Sound) (hmiss : s.value? key = none)
    (hread : s.reads.get? id = some { key := key, future := .pending }) :
    (act cfg (.call (.get key)) s).1.Lost id := by
  have hlt := hs.reads id _ hread
  refine ⟨?_, fun key' hpending => ?_, fun key' reply hread' => ?_⟩
  · rw [act_get_of_miss hmiss]
    exact Nat.lt_succ_of_lt hlt
  · rw [act_get_of_miss hmiss] at hpending
    by_cases hk : key = key'
    · subst hk
      rw [show (s.busRead cfg key).1.pendingReads.get? key = some s.nextRead from
        Dict.get?_set_self _ _ _] at hpending
      exact Nat.ne_of_gt hlt (Option.some.inj hpending)
    · rw [show (s.busRead cfg key).1.pendingReads.get? key' = s.pendingReads.get? key' from
        Dict.get?_set_ne _ _ hk] at hpending
      exact hk (hs.key key' id _ hpending hread)
  · rw [reads_get_of_miss cfg hs hmiss hread] at hread'
    cases hread'

/-- **A future that is lost stays lost.** -/
theorem Lost.act (h : s.Lost id) : (act cfg inp s).1.Lost id where
  lt := h.lt.trans_le (pending_act cfg s inp).1
  pendingReads := by
    intro key hpending
    rcases (pending_act cfg s inp).2 key id hpending with hold | ⟨-, hid, -⟩
    · exact h.pendingReads key hold
    · exact absurd hid (Nat.ne_of_lt h.lt)
  reads := by
    intro key reply hread
    generalize hr : ({ key := key, future := .result reply } : Read Key Value) = r at hread
    cases read_act hread with
    | asked => cases hr
    | answered _ _ key' _ _ _ _ hpending _ => exact h.pendingReads key' hpending
    | cancelled => cases hr
    | kept _ hread' =>
      subst hr
      exact h.reads key reply hread'

/-- A `get` whose future is lost returns nothing. -/
theorem Lost.resume (h : s.Lost id) (cfg : Config NodeId) : (s.resume cfg id).1 = none := by
  unfold CacheNode.resume
  split
  · rfl
  · rfl
  · rfl
  · next key reply hread => exact absurd hread (h.reads key reply)

/-! ## What a reader gets -/

/-- **Where a value comes from** that a reader gets after an input. -/
theorem value?_cases {v : Value} (h : (act cfg inp s).1.value? key = some v) :
    inp = .call (.put key v) ∨
      (∃ id reply, inp = .call (.resume id) ∧
        s.reads.get? id = some { key := key, future := .result reply } ∧ reply.value = v) ∨
      s.value? key = some v := by
  obtain ⟨line, hline, rfl⟩ := Option.map_eq_some_iff.mp h
  obtain ⟨hcache, hvalid⟩ := Option.filter_eq_some_iff.mp hline
  rcases line_cases hcache with ⟨hput, -⟩ | ⟨reply, hi, rfl⟩ | ⟨line', ha, rfl⟩ | ⟨hold, -, -⟩
  · exact Or.inl hput
  · obtain ⟨id, hinp, hread⟩ := read_of_installs hi
    exact Or.inr (Or.inl ⟨id, reply, hinp, hread, rfl⟩)
  · refine Or.inr (Or.inr ?_)
    unfold value?
    rw [validLine?_of_answers ha]
    rfl
  · refine Or.inr (Or.inr ?_)
    unfold value?
    rw [validLine?_of_cache hold (of_decide_eq_true hvalid)]
    rfl

/-- A reply has a value that its sender would return. -/
theorem value?_of_sent {m : Message NodeId (Payload Key Value)} {reply : Reply Value}
    (h : m ∈ (act cfg inp s).2) (hm : m.payload = .cacheResponse key reply) :
    s.value? key = some reply.value := by
  rcases sent_act h with ⟨_, -, hp⟩ | ⟨_, -, hp⟩ | ⟨_, line, ha, hp⟩
  · rw [hp] at hm
    cases hm
  · rw [hp] at hm
    cases hm
  · rw [hp] at hm
    cases hm
    unfold value?
    rw [validLine?_of_answers ha]
    rfl

end CacheNode

namespace ClusterRun

variable [DecidableEq NodeId] {ms : Members NodeId} (run : ClusterRun ms ∅ Key Value)

/-! ## The reads of a key at a node -/

/-- The `get` that `node` is called with at time `t` misses; its future has number `id`. -/
structure Misses (node : NodeId) (key : Key) (t id : ℕ) : Prop where
  event : run.event t = .call node (.get key)
  uncached : ((run.state t).nodes node).value? key = none
  id : id = ((run.state t).nodes node).nextRead

/-- A peer has had the value at a time from `i₀` to `i`. -/
def Held (node : NodeId) (key : Key) (i₀ i : ℕ) (v : Value) : Prop :=
  ∃ peer j, peer ≠ node ∧ i₀ ≤ j ∧ j ≤ i ∧ ((run.state j).nodes peer).value? key = some v

/-- From time `i₀` on, when `node` does not have the key and nothing of an earlier `get` is left,
`peer` always has it. No message is lost. The timer of a `get` runs out only while it waits (the
`wait_for` of a future that is done returns its result), and after every message that goes back to
the `get` has been delivered. -/
structure Undisturbed (node peer : NodeId) (key : Key) (i₀ : ℕ) : Prop where
  ne : peer ≠ node
  uncached : ((run.state i₀).nodes node).value? key = none
  noRead : ∀ id read, ((run.state i₀).nodes node).reads.get? id = some read → read.key ≠ key
  noReply : ∀ m ∈ (run.state i₀).inbox node, ∀ reply, m.payload ≠ .cacheResponse key reply
  holds : ∀ i, i₀ ≤ i → i ≤ run.length → ((run.state i).nodes peer).value? key ≠ none
  noPut : ∀ i, i₀ ≤ i → i < run.length → ∀ v, run.event i ≠ .call node (.put key v)
  noDrop : ∀ i, i₀ ≤ i → i < run.length → ∀ a k, run.event i ≠ .drop a k
  punctual : ∀ t id i, i₀ ≤ t → t < i → i < run.length → run.Misses node key t id →
    run.event i = .call node (.timeout id) →
      ((run.state i).nodes node).reads.get? id = some { key := key, future := .pending } ∧
        run.Settled t i

/-- A `get` misses only when no earlier `get` of the key waits. -/
def OneAtATime (node : NodeId) (key : Key) (i₀ : ℕ) : Prop :=
  ∀ t id, i₀ ≤ t → t < run.length → run.Misses node key t id →
    ∀ id', ((run.state t).nodes node).reads.get? id' ≠ some { key := key, future := .pending }

/-- The fetch that the `get` at time `t` has sent to `peer` is in flight at time `i`, or the
answer. -/
def Coming (node peer : NodeId) (key : Key) (t i : ℕ) : Prop :=
  (∃ m ∈ (run.caused.state i).inbox peer, m.senderId = node ∧ m.payload = (.cacheFetch key, t)) ∨
    ∃ m ∈ (run.caused.state i).inbox node, ∃ reply, m.payload = (.cacheResponse key reply, t)

/-- What has become at time `i` of the `get` that has missed at time `t`: it waits under its key for
a message that is in flight, it has a reply, or it has returned a value. -/
inductive Outcome (node peer : NodeId) (key : Key) (i₀ t id i : ℕ) : Prop
  | waiting (hpending : ((run.state i).nodes node).pendingReads.get? key = some id)
    (hread : ((run.state i).nodes node).reads.get? id = some { key := key, future := .pending })
    (hcoming : run.Coming node peer key t i)
  | answered (reply : Reply Value)
    (hread : ((run.state i).nodes node).reads.get? id =
      some { key := key, future := .result reply })
    (hheld : run.Held node key i₀ i reply.value)
  | returned (j : ℕ) (v : Value) (htj : t < j) (hji : j < i)
    (hevent : run.event j = .call node (.resume id))
    (hvalue : (((run.state j).nodes node).resume (ms.config node) id).1 = some v)
    (hheld : run.Held node key i₀ j v)
    (hgone : ((run.state i).nodes node).reads.get? id = none)

section Reads

variable {run} {node peer : NodeId} {key : Key} {i₀ i t id : ℕ}

theorem Held.mono {j : ℕ} {v : Value} (hij : i ≤ j) (h : run.Held node key i₀ i v) :
    run.Held node key i₀ j v := by
  obtain ⟨peer, j', hne, h0, hj, hv⟩ := h
  exact ⟨peer, j', hne, h0, hj.trans hij, hv⟩

/-- What is in flight arrives. -/
theorem Coming.not_settled (h : run.Coming node peer key t i) : ¬ run.Settled t i := by
  intro hs
  rcases h with ⟨m, hm, -, hp⟩ | ⟨m, hm, reply, hp⟩
  · exact hs peer m hm (congrArg Prod.snd hp)
  · exact hs node m hm (congrArg Prod.snd hp)

theorem Misses.state_succ (h : run.Misses node key t id) (ht : t < run.length) :
    (run.state (t + 1)).nodes node =
      (CacheNode.act (ms.config node) (.call (.get key)) ((run.state t).nodes node)).1 := by
  have hinput : (run.state t).inputOf node (run.event t) = some (.call (.get key)) := by
    rw [h.event]
    simp [Network.inputOf, Network.input?]
  rw [Network.nodes_step (run.state_succ t ht) (Finset.notMem_empty node), hinput]
  rfl

/-- The number of a future has been given. -/
theorem Misses.lt_nextRead (h : run.Misses node key t id) (hti : t < i) :
    i ≤ run.length → id < ((run.state i).nodes node).nextRead := by
  induction i, Nat.succ_le_of_lt hti using Nat.le_induction with
  | base =>
    intro hi
    rw [h.state_succ hi, CacheNode.act_get_of_miss h.uncached, h.id]
    exact Nat.lt_succ_self _
  | succ i hi' ih =>
    intro hi
    have ih := ih hi' (Nat.le_of_lt hi)
    rw [Network.nodes_step (run.state_succ i hi) (Finset.notMem_empty node)]
    split
    · exact ih.trans_le (CacheNode.pending_act (ms.config node) _ _).1
    · exact ih

/-! ## One step -/

/-- What holds of the reads of the key at `node` when nothing disturbs them. -/
structure Serving (run : ClusterRun ms ∅ Key Value) (node peer : NodeId) (key : Key) (i₀ i : ℕ) :
    Prop where
  line : ∀ v, ((run.state i).nodes node).value? key = some v → run.Held node key i₀ i v
  reply : ∀ m ∈ (run.state i).inbox node, ∀ reply, m.payload = .cacheResponse key reply →
    run.Held node key i₀ i reply.value
  started : ∀ id read, ((run.state i).nodes node).reads.get? id = some read → read.key = key →
    ∃ t, i₀ ≤ t ∧ t < i ∧ run.Misses node key t id
  outcome : ∀ t id, i₀ ≤ t → t < i → run.Misses node key t id →
    run.Outcome node peer key i₀ t id i

theorem Undisturbed.serving (h : run.Undisturbed node peer key i₀) :
    run.Serving node peer key i₀ i₀ where
  line := by
    intro v hv
    rw [h.uncached] at hv
    cases hv
  reply := fun m hm reply hp => absurd hp (h.noReply m hm reply)
  started := fun id read hread hk => absurd hk (h.noRead id read hread)
  outcome := fun t id ht hti => absurd hti (Nat.not_lt.mpr ht)

/-- A `get` of the key is not cancelled. -/
theorem Serving.not_cancelled (h : run.Serving node peer key i₀ i) :
    ((run.state i).nodes node).reads.get? id ≠ some { key := key, future := .cancelled } := by
  intro hread
  obtain ⟨t, ht, hti, hmiss⟩ := h.started id _ hread rfl
  cases h.outcome t id ht hti hmiss with
  | waiting _ hread' =>
    rw [hread] at hread'
    cases hread'
  | answered _ hread' =>
    rw [hread] at hread'
    cases hread'
  | returned _ _ _ _ _ _ _ hgone =>
    rw [hread] at hgone
    cases hgone

theorem Serving.held_result (h : run.Serving node peer key i₀ i) {reply : Reply Value}
    (hread : ((run.state i).nodes node).reads.get? id =
      some { key := key, future := .result reply }) : run.Held node key i₀ i reply.value := by
  obtain ⟨t, ht, hti, hmiss⟩ := h.started id _ hread rfl
  cases h.outcome t id ht hti hmiss with
  | waiting _ hread' =>
    rw [hread] at hread'
    cases hread'
  | answered _ hread' hheld =>
    rw [hread] at hread'
    cases hread'
    exact hheld
  | returned _ _ _ _ _ _ _ hgone =>
    rw [hread] at hgone
    cases hgone

section Step

variable {a : NodeId} {inp : Input NodeId (Call Key Value × ℕ) Unit (Payload Key Value × ℕ)}
  {inbox₀ : NodeId → List (Message NodeId (Payload Key Value × ℕ))}

theorem Serving.line_succ (h : run.Serving node peer key i₀ i)
    (hu : run.Undisturbed node peer key i₀) (h0 : i₀ ≤ i) (hi : i < run.length)
    (htakes : run.Takes i a inp inbox₀) {v : Value}
    (hv : ((run.state (i + 1)).nodes node).value? key = some v) :
    run.Held node key i₀ (i + 1) v := by
  by_cases hna : node = a
  · subst hna
    rw [htakes.self] at hv
    rcases CacheNode.value?_cases hv with hput | ⟨id, reply, hinp, hread, rfl⟩ | hold
    · have hinput := htakes.input
      rw [hput] at hinput
      exact absurd (Network.input?_call hinput) (hu.noPut i h0 hi v)
    · exact (h.held_result hread).mono (Nat.le_succ i)
    · exact (h.line v hold).mono (Nat.le_succ i)
  · rw [htakes.other hna] at hv
    exact (h.line v hv).mono (Nat.le_succ i)

theorem Serving.reply_succ (h : run.Serving node peer key i₀ i) (h0 : i₀ ≤ i)
    (hi : i < run.length) (htakes : run.Takes i a inp inbox₀)
    {m : Message NodeId (Payload Key Value)} (hm : m ∈ (run.state (i + 1)).inbox node)
    {reply : Reply Value} (hp : m.payload = .cacheResponse key reply) :
    run.Held node key i₀ (i + 1) reply.value := by
  rcases htakes.mem_inbox hi hm with hold | ⟨hsent, -⟩
  · exact (h.reply m hold reply hp).mono (Nat.le_succ i)
  · have hv := CacheNode.value?_of_sent hsent hp
    by_cases han : a = node
    · subst han
      exact (h.line _ hv).mono (Nat.le_succ i)
    · exact ⟨a, i, han, h0, Nat.le_succ i, hv⟩

theorem Serving.started_succ (h : run.Serving node peer key i₀ i) (h0 : i₀ ≤ i)
    (htakes : run.Takes i a inp inbox₀) {read : Read Key Value}
    (hread : ((run.state (i + 1)).nodes node).reads.get? id = some read) (hk : read.key = key) :
    ∃ t, i₀ ≤ t ∧ t < i + 1 ∧ run.Misses node key t id := by
  have hold (read' : Read Key Value)
      (hread' : ((run.state i).nodes node).reads.get? id = some read') (hk' : read'.key = key) :
      ∃ t, i₀ ≤ t ∧ t < i + 1 ∧ run.Misses node key t id := by
    obtain ⟨t, ht, hti, hmiss⟩ := h.started id read' hread' hk'
    exact ⟨t, ht, Nat.lt_succ_of_lt hti, hmiss⟩
  by_cases hna : node = a
  · subst hna
    rw [htakes.self] at hread
    cases CacheNode.read_act hread with
    | asked key' hinp hid hnext =>
      subst hk
      have hinput := htakes.input
      rw [hinp] at hinput hnext
      exact ⟨i, h0, Nat.lt_succ_self i, Network.input?_call hinput,
        CacheNode.miss_of_nextRead hnext, hid⟩
    | answered env m key' key'' reply hinp hm hpending hread' => exact hold _ hread' hk
    | cancelled read' hinp hread' => exact hold read' hread' hk
    | kept _ hread' => exact hold read hread' hk
  · rw [htakes.other hna] at hread
    exact hold read hread hk

/-- What is in flight stays there, or the peer answers, until `node` takes the answer. -/
theorem Coming.succ (h : run.Coming node peer key t i) (hi : i < run.length)
    (hholds : ((run.state i).nodes peer).value? key ≠ none) (htakes : run.Takes i a inp inbox₀)
    (hinp : a = node → ∀ env m reply, inp.plain = .receive env m →
      m.payload ≠ .cacheResponse key reply) : run.Coming node peer key t (i + 1) := by
  rcases h with ⟨m, hm, hsender, hp⟩ | ⟨m, hm, reply, hp⟩
  · by_cases htaken : ∃ env, inp = .receive env m ∧ peer = a
    · -- the peer has the key, so it answers
      obtain ⟨env, rfl, rfl⟩ := htaken
      have hplain : (m.map Prod.fst).payload = .cacheFetch key := congrArg Prod.fst hp
      obtain ⟨reply, hsent⟩ := CacheNode.answer_fetch (ms.config peer) hholds env hplain
      have hin := htakes.sent hi hsent
      rw [show (Message.map Prod.fst m).senderId = node from hsender] at hin
      have hcause : m.payload.2 = t := congrArg Prod.snd hp
      exact Or.inr ⟨_, hin, reply, congrArg (Prod.mk (Payload.cacheResponse key reply)) hcause⟩
    · refine Or.inl ⟨m, htakes.moves.kept hm ?_, hsender, hp⟩
      rintro env x hx hpa rfl
      exact htaken ⟨env, hx, hpa⟩
  · refine Or.inr ⟨m, htakes.moves.kept hm ?_, reply, hp⟩
    rintro env x rfl hna rfl
    exact hinp hna.symm env (m.map Prod.fst) reply rfl (congrArg Prod.fst hp)

/-- A `get` that has just missed waits for the fetch that it has sent. -/
theorem Misses.outcome (h : run.Misses node key i id) (hne : peer ≠ node) (hi : i < run.length)
    (htakes : run.Takes i a inp inbox₀) : run.Outcome node peer key i₀ i id (i + 1) := by
  have hinput := htakes.input
  rw [h.event] at hinput
  obtain ⟨hna, hplain⟩ := Prod.mk.inj (Option.some.inj hinput)
  subst hna
  have hact : ms.act node inp.plain ((run.state i).nodes node) =
      ((run.state i).nodes node).busRead (ms.config node) key := by
    rw [← hplain]
    exact CacheNode.act_get_of_miss h.uncached
  have hcause : inp.cause = i := by
    cases inp with
    | call c => exact htakes.cause c rfl
    | receive env m => cases hplain
  have hsent : ({ senderId := node, receiverId := peer, payload := .cacheFetch key } :
      Message NodeId (Payload Key Value)) ∈
        (ms.act node inp.plain ((run.state i).nodes node)).2 := by
    rw [hact]
    exact Network.mem_broadcast.mpr ⟨rfl, rfl, (ms.mem_peers node peer).mpr hne⟩
  refine .waiting ?_ ?_ (Or.inl ⟨_, htakes.sent hi hsent, rfl, ?_⟩)
  · rw [htakes.self, hact, h.id]
    exact Dict.get?_set_self _ _ _
  · rw [htakes.self, hact, h.id]
    exact Dict.get?_set_self _ _ _
  · exact congrArg (Prod.mk (Payload.cacheFetch key)) hcause

theorem Serving.waiting_succ (h : run.Serving node peer key i₀ i)
    (hu : run.Undisturbed node peer key i₀) (hone : run.OneAtATime node key i₀) (h0 : i₀ ≤ i)
    (hi : i < run.length) (htakes : run.Takes i a inp inbox₀) (ht : i₀ ≤ t) (hti : t < i)
    (hmiss : run.Misses node key t id)
    (hpending : ((run.state i).nodes node).pendingReads.get? key = some id)
    (hread : ((run.state i).nodes node).reads.get? id = some { key := key, future := .pending })
    (hcoming : run.Coming node peer key t i) : run.Outcome node peer key i₀ t id (i + 1) := by
  have hholds := hu.holds i h0 (Nat.le_of_lt hi)
  by_cases hna : node = a
  · subst hna
    have hself := htakes.self
    cases CacheNode.waiting_act (ms.config node) ((run.sound i (Nat.le_of_lt hi)).1 node) inp.plain
      hpending hread with
    | waits hpending' hread' hinp =>
      exact .waiting (hself ▸ hpending') (hself ▸ hread')
        (hcoming.succ hi hholds htakes fun _ => hinp)
    | answered env m reply hinp hm hread' =>
      have hinput := htakes.input
      rw [hinp] at hinput
      obtain ⟨k, -, hin⟩ := Network.input?_receive hinput
      exact .answered reply (hself ▸ hread')
        ((h.reply m (List.mem_of_getElem? hin) reply hm).mono (Nat.le_succ i))
    | timedOut hinp =>
      -- its message would have been delivered before
      have hinput := htakes.input
      rw [hinp] at hinput
      have hsettled := (hu.punctual t id i ht hti hi hmiss (Network.input?_call hinput)).2
      exact absurd hsettled hcoming.not_settled
    | replaced hinp huncached =>
      -- two would wait at a time
      have hinput := htakes.input
      rw [hinp] at hinput
      exact absurd hread
        (hone i _ h0 hi ⟨Network.input?_call hinput, huncached, rfl⟩ id)
    | removed id' hinp hread' => exact absurd hread' h.not_cancelled
  · have hother := htakes.other hna
    exact .waiting (hother ▸ hpending) (hother ▸ hread)
      (hcoming.succ hi hholds htakes fun han => absurd han.symm hna)

theorem Serving.answered_succ (hu : run.Undisturbed node peer key i₀) (hi : i < run.length)
    (htakes : run.Takes i a inp inbox₀) (ht : i₀ ≤ t) (hti : t < i)
    (hmiss : run.Misses node key t id) {reply : Reply Value}
    (hread : ((run.state i).nodes node).reads.get? id =
      some { key := key, future := .result reply })
    (hheld : run.Held node key i₀ i reply.value) : run.Outcome node peer key i₀ t id (i + 1) := by
  by_cases hna : node = a
  · subst hna
    have hself := htakes.self
    rcases CacheNode.result_act (ms.config node) ((run.sound i (Nat.le_of_lt hi)).1 node) inp.plain
      hread with hread' | hinp | ⟨hinp, hvalue, hgone⟩
    · exact .answered reply (hself ▸ hread') (hheld.mono (Nat.le_succ i))
    · -- the timer does not run out for a future that is done
      have hinput := htakes.input
      rw [hinp] at hinput
      have hpending := (hu.punctual t id i ht hti hi hmiss (Network.input?_call hinput)).1
      rw [hread] at hpending
      cases hpending
    · have hinput := htakes.input
      rw [hinp] at hinput
      exact .returned i reply.value hti (Nat.lt_succ_self i) (Network.input?_call hinput) hvalue
        hheld (hself ▸ hgone)
  · have hother := htakes.other hna
    exact .answered reply (hother ▸ hread) (hheld.mono (Nat.le_succ i))

/-- A `get` that has returned does not come back. -/
theorem Misses.gone_succ (hmiss : run.Misses node key t id) (hti : t < i) (hi : i < run.length)
    (htakes : run.Takes i a inp inbox₀)
    (hgone : ((run.state i).nodes node).reads.get? id = none) :
    ((run.state (i + 1)).nodes node).reads.get? id = none := by
  by_cases hna : node = a
  · subst hna
    rw [htakes.self, Option.eq_none_iff_forall_not_mem]
    intro read hread
    cases CacheNode.read_act hread with
    | asked key' hinp hid hnext =>
      have hlt := hmiss.lt_nextRead hti (Nat.le_of_lt hi)
      exact absurd hid (Nat.ne_of_lt hlt)
    | answered _ _ _ _ _ _ _ _ hread' =>
      rw [hgone] at hread'
      cases hread'
    | cancelled _ _ hread' =>
      rw [hgone] at hread'
      cases hread'
    | kept _ hread' =>
      rw [hgone] at hread'
      cases hread'
  · rw [htakes.other hna]
    exact hgone

/-- **A step that disturbs nothing** serves the reads, when none replaces the future of another. -/
theorem Serving.succ (h : run.Serving node peer key i₀ i)
    (hu : run.Undisturbed node peer key i₀) (hone : run.OneAtATime node key i₀) (h0 : i₀ ≤ i)
    (hi : i < run.length) : run.Serving node peer key i₀ (i + 1) := by
  rcases run.caused_cases hi with ⟨a, k, hdrop⟩ | ⟨a, inp, inbox₀, htakes⟩
  · exact absurd hdrop (hu.noDrop i h0 hi a k)
  · refine ⟨fun v => h.line_succ hu h0 hi htakes, fun m hm reply => h.reply_succ h0 hi htakes hm,
      fun id read => h.started_succ h0 htakes, fun t id ht hti hmiss => ?_⟩
    rcases Nat.lt_succ_iff_lt_or_eq.mp hti with hlt | rfl
    · cases h.outcome t id ht hlt hmiss with
      | waiting hpending hread hcoming =>
        exact h.waiting_succ hu hone h0 hi htakes ht hlt hmiss hpending hread hcoming
      | answered reply hread hheld =>
        exact Serving.answered_succ hu hi htakes ht hlt hmiss hread hheld
      | returned j v htj hji hevent hvalue hheld hgone =>
        exact .returned j v htj (Nat.lt_succ_of_lt hji) hevent hvalue hheld
          (hmiss.gone_succ hlt hi htakes hgone)
    · exact hmiss.outcome hu.ne hi htakes

end Step

end Reads

/-! ## Every run -/

section Runs

variable {run} {node peer : NodeId} {key : Key} {i₀ i : ℕ}

theorem Undisturbed.serving_of_le (hu : run.Undisturbed node peer key i₀)
    (hone : run.OneAtATime node key i₀) (h0 : i₀ ≤ i) :
    i ≤ run.length → run.Serving node peer key i₀ i := by
  induction i, h0 using Nat.le_induction with
  | base => exact fun _ => hu.serving
  | succ i h0 ih => exact fun hi => (ih (Nat.le_of_lt hi)).succ hu hone h0 hi

/-- When no `get` is ever lost, the reads are served. -/
theorem Undisturbed.serving_of_outcome (hu : run.Undisturbed node peer key i₀)
    (houtcome : ∀ i, i₀ ≤ i → i ≤ run.length → ∀ t id, i₀ ≤ t → t < i →
      run.Misses node key t id → run.Outcome node peer key i₀ t id i) (h0 : i₀ ≤ i) :
    i ≤ run.length → run.Serving node peer key i₀ i := by
  induction i, h0 using Nat.le_induction with
  | base => exact fun _ => hu.serving
  | succ i h0 ih =>
    intro hi
    have h := ih (Nat.le_of_lt hi)
    rcases run.caused_cases hi with ⟨a, k, hdrop⟩ | ⟨a, inp, inbox₀, htakes⟩
    · exact absurd hdrop (hu.noDrop i h0 hi a k)
    · exact ⟨fun v => h.line_succ hu h0 hi htakes, fun m hm reply => h.reply_succ h0 hi htakes hm,
        fun id read => h.started_succ h0 htakes,
        houtcome (i + 1) (Nat.le_succ_of_le h0) hi⟩

/-- **A `get` whose future is replaced never returns a value**: another one that misses has taken
its place. -/
theorem Misses.replaced_returns_nothing {t id id' : ℕ} (h : run.Misses node key t id)
    (hread : ((run.state t).nodes node).reads.get? id' =
      some { key := key, future := .pending }) (hti : t < i) :
    i ≤ run.length → (((run.state i).nodes node).resume (ms.config node) id').1 = none := by
  have hlost : i ≤ run.length → ((run.state i).nodes node).Lost id' := by
    induction i, Nat.succ_le_of_lt hti using Nat.le_induction with
    | base =>
      intro hi
      rw [h.state_succ hi]
      exact CacheNode.lost_of_get (ms.config node) ((run.sound t (Nat.le_of_lt hi)).1 node)
        h.uncached hread
    | succ i hi' ih =>
      intro hi
      have ih := ih hi' (Nat.le_of_lt hi)
      rw [Network.nodes_step (run.state_succ i hi) (Finset.notMem_empty node)]
      split
      · exact ih.act
      · exact ih
  exact fun hi => (hlost hi).resume (ms.config node)

end Runs

/-- **Concurrent reads succeed exactly when no read replaces the future of another.** A `get` of the
key that hits returns a value that a peer has had; a `get` that misses waits for a message that is
in flight, has such a value, or has returned it. -/
theorem every_get_returns_iff {node peer : NodeId} {key : Key} {i₀ : ℕ}
    (hu : run.Undisturbed node peer key i₀) :
    (∀ i, i₀ ≤ i → i ≤ run.length →
      (∀ v, (((run.state i).nodes node).get (ms.config node) key).1 = some v →
        run.Held node key i₀ i v) ∧
      ∀ t id, i₀ ≤ t → t < i → run.Misses node key t id →
        run.Outcome node peer key i₀ t id i) ↔ run.OneAtATime node key i₀ := by
  constructor
  · intro h t id h0 ht hmiss id' hread
    -- the `get` of `id'` waits at `t`, and its future is not that of the key afterwards
    have hsound := (run.sound t (Nat.le_of_lt ht)).1 node
    have hserving := hu.serving_of_outcome (fun i h0 hi => (h i h0 hi).2) h0 (Nat.le_of_lt ht)
    obtain ⟨t', ht', hlt, hmiss'⟩ := hserving.started id' _ hread rfl
    have hread' := CacheNode.reads_get_of_miss (ms.config node) hsound hmiss.uncached hread
    have hlost := CacheNode.lost_of_get (ms.config node) hsound hmiss.uncached hread
    rw [← hmiss.state_succ ht] at hread' hlost
    cases (h (t + 1) (Nat.le_succ_of_le h0) ht).2 t' id' ht' (Nat.lt_succ_of_lt hlt) hmiss' with
    | waiting hpending => exact hlost.pendingReads key hpending
    | answered reply hresult => exact hlost.reads key reply hresult
    | returned _ _ _ _ _ _ _ hgone =>
      rw [hgone] at hread'
      cases hread'
  · intro hone i h0 hi
    have hserving := hu.serving_of_le hone h0 hi
    refine ⟨fun v hv => hserving.line v ?_, hserving.outcome⟩
    rwa [CacheNode.get_eq_value?] at hv

end ClusterRun

/-! ## Two reads at once, and two in turn -/

/-- The event puts nothing and loses nothing. -/
def quiet : Event (Fin 2) String ℕ → Bool
  | .call _ (.put _ _) | .drop _ _ => false
  | _ => true

/-- The future whose timer runs out. -/
def timer? : Event (Fin 2) String ℕ → Option ℕ
  | .call _ (.timeout id) => some id
  | _ => none

theorem undisturbed_of_quiet {run : ClusterRun pair ∅ String ℕ} {i₀ : ℕ}
    (huncached : ((run.state i₀).nodes 1).value? "k" = none)
    (hreads : ((run.state i₀).nodes 1).reads.keys = []) (hinbox : (run.state i₀).inbox 1 = [])
    (hholds : ∀ i < run.length + 1, i₀ ≤ i → ((run.state i).nodes 0).value? "k" ≠ none)
    (hquiet : ∀ i < run.length, i₀ ≤ i → quiet (run.event i) = true)
    (htimer : ∀ i < run.length, ∀ id ∈ timer? (run.event i),
      ((run.state i).nodes 1).reads.get? id = some { key := "k", future := .pending } ∧
        ∀ a, (run.state i).inbox a = []) : run.Undisturbed 1 0 "k" i₀ where
  ne := by decide
  uncached := huncached
  noRead := by
    intro id read hread
    have hmem := Dict.mem_keys_of_get? hread
    rw [hreads] at hmem
    cases hmem
  noReply := by
    intro m hm
    rw [hinbox] at hm
    cases hm
  holds := fun i h0 hi => hholds i (Nat.lt_succ_of_le hi) h0
  noPut := by
    intro i h0 hi v he
    have hq := hquiet i hi h0
    rw [he] at hq
    cases hq
  noDrop := by
    intro i h0 hi a k he
    have hq := hquiet i hi h0
    rw [he] at hq
    cases hq
  punctual := by
    intro t id i _ _ hi _ he
    obtain ⟨hread, hempty⟩ := htimer i hi id (by rw [he]; rfl)
    refine ⟨hread, fun a m hm => ?_⟩
    have hplain := run.mem_inbox_of_caused (Nat.le_of_lt hi) hm
    rw [hempty a] at hplain
    cases hplain

/-- The second `get` misses while the first one waits. -/
def atOnceRun : ClusterRun pair ∅ String ℕ :=
  Run.ofEvents _ _ [.call 0 (.put "k" 1), .deliver 1 0 (), .call 1 (.get "k"), .call 1 (.get "k"),
    .deliver 0 0 (), .deliver 0 0 (), .deliver 1 0 (), .deliver 1 0 (), .call 1 (.resume 1),
    .call 1 (.timeout 0), .call 1 (.resume 0)] (.call 0 (.get "k")) (by decide +kernel)

/-- All messages have been delivered when the first of two reads runs out of time, and it returns
nothing. -/
theorem first_read_lost : atOnceRun.Undisturbed 1 0 "k" 2 ∧ atOnceRun.Misses 1 "k" 2 0 ∧
    (((atOnceRun.state 8).nodes 1).resume (pair.config 1) 1).1 = some 1 ∧
    ((atOnceRun.state 10).nodes 1).reads.get? 0 = some { key := "k", future := .cancelled } ∧
    atOnceRun.event 10 = .call 1 (.resume 0) ∧
    (((atOnceRun.state 10).nodes 1).resume (pair.config 1) 0).1 = none :=
  ⟨undisturbed_of_quiet (by decide +kernel) (by decide +kernel) (by decide +kernel)
    (by decide +kernel) (by decide +kernel) (by decide +kernel),
    ⟨by decide +kernel, by decide +kernel, by decide +kernel⟩, by decide +kernel,
    by decide +kernel, by decide +kernel, by decide +kernel⟩

/-- The second `get` misses when the first one has its reply. -/
def inTurnReads : ClusterRun pair ∅ String ℕ :=
  Run.ofEvents _ _ [.call 0 (.put "k" 1), .deliver 1 0 (), .call 1 (.get "k"), .deliver 0 0 (),
    .deliver 1 0 (), .call 1 (.get "k"), .call 1 (.resume 0), .deliver 0 0 (), .deliver 1 0 (),
    .call 1 (.resume 1)] (.call 0 (.get "k")) (by decide +kernel)

theorem every_get_returns_in_turn : inTurnReads.OneAtATime 1 "k" 2 ∧
    inTurnReads.Outcome 1 0 "k" 2 2 0 10 ∧ inTurnReads.Outcome 1 0 "k" 2 5 1 10 := by
  have hu : inTurnReads.Undisturbed 1 0 "k" 2 := undisturbed_of_quiet (by decide +kernel)
    (by decide +kernel) (by decide +kernel) (by decide +kernel) (by decide +kernel)
    (by decide +kernel)
  have hvalues : ∀ t < inTurnReads.length, inTurnReads.event t = .call 1 (.get "k") →
      ∀ read ∈ ((inTurnReads.state t).nodes 1).reads.values, read.future ≠ .pending := by
    decide +kernel
  have hone : inTurnReads.OneAtATime 1 "k" 2 := fun t id _ ht hmiss id' hread =>
    hvalues t ht hmiss.event _ (Dict.mem_values_of_get? hread) rfl
  have h := (inTurnReads.every_get_returns_iff hu).mpr hone 10 (by decide) (by decide +kernel)
  exact ⟨hone, h.2 2 0 (by decide) (by decide)
      ⟨by decide +kernel, by decide +kernel, by decide +kernel⟩,
    h.2 5 1 (by decide) (by decide) ⟨by decide +kernel, by decide +kernel, by decide +kernel⟩⟩

end Cache
