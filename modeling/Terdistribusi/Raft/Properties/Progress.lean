import Terdistribusi.Raft.Properties.CatchUp
import Terdistribusi.Raft.Properties.Election
import Terdistribusi.Raft.Properties.Calls

/-!
# A cluster is never stuck

From every state of every run a new `submit` can still return with the result of its own command
(`progress_iff`): whatever is in flight, whoever leads, and also after a commit rule went wrong.

The continuation loses what is in flight, lets the node with the best log be elected
(`exists_elected`), and then

* `exists_driving` — the leader takes the command in, behind everything that it has committed
* `Driving.verify` — rounds of `_send_append_entries` bring one follower up to that entry
* `Driving.resolve` — with all followers there, `_update_commit_index` commits it and the call is
  resolved
-/

namespace Raft

open Infra RaftNode

variable {NodeId Command Result : Type}

variable [DecidableEq NodeId] {ms : Members NodeId Command Result}

/-! ## What holds of every state that is reached -/

section

variable {s s' : Cluster NodeId Command Result}

theorem exists_run_of_reaches (h : Reaches (step ms) Cluster.initial s) :
    ∃ (r : ClusterRun ms) (i : ℕ), i ≤ r.length ∧ r.state i = s := by
  have : Nonempty (Event NodeId Command) := ⟨.drop 0⟩
  obtain ⟨r, hr⟩ := h.exists_run
  exact ⟨r, r.length, Nat.le_refl _, hr⟩

theorem reached_nodeOk (h : Reaches (step ms) Cluster.initial s) (a : NodeId) :
    NodeOk (s.nodes a) := by
  obtain ⟨r, i, hi, rfl⟩ := exists_run_of_reaches h
  exact (wellFormed r i hi).nodes a

theorem reached_matching [Fintype NodeId] (h : Reaches (step ms) Cluster.initial s)
    (a b : NodeId) : Matching LogEntry.term (s.nodes a).log (s.nodes b).log := by
  obtain ⟨r, i, hi, rfl⟩ := exists_run_of_reaches h
  exact ((history r).matched hi a).matching hi hi ((history r).matched hi b)

theorem reached_one_leader [Fintype NodeId] (h : Reaches (step ms) Cluster.initial s)
    {a b : NodeId} (ha : (s.nodes a).state = .leader) (hb : (s.nodes b).state = .leader)
    (ht : (s.nodes a).currentTerm = (s.nodes b).currentTerm) : a = b := by
  obtain ⟨r, i, hi, rfl⟩ := exists_run_of_reaches h
  exact (history r).leader_unique hi hi ha hb ht

theorem reached_callsIndexed (h : Reaches (step ms) Cluster.initial s) (a : NodeId) :
    CallsIndexed (s.nodes a) := by
  obtain ⟨r, i, hi, rfl⟩ := exists_run_of_reaches h
  exact callsIndexed r i hi a

theorem reached_length_calls (h : Reaches (step ms) s s') (a : NodeId) :
    (s.nodes a).calls.length ≤ (s'.nodes a).calls.length := by
  refine h.invariant (P := fun t => (s.nodes a).calls.length ≤ (t.nodes a).calls.length)
    (fun t e t' ht hstep => ?_) (Nat.le_refl _)
  rcases step_cases hstep with ⟨hn, -⟩ | ⟨b, inp, hn, -, -⟩ <;> rw [hn]
  · exact ht
  · by_cases hab : a = b
    · subst hab
      rw [Function.update_self]
      exact ht.trans (length_calls_acts (acts_act : Acts (ms.config a) (t.nodes a) inp _ _))
    · rw [Function.update_of_ne hab]
      exact ht

end

/-! ## One exchange in the cluster -/

section

variable {lc fc : Config NodeId Command Result} {L : List (LogEntry Command)} {k : ℕ}
  {p : Pair NodeId Command Result}

/-- The reply of the follower, and what the leader makes of it. -/
theorem Replicating.reply (h : Replicating fc L k p) (lc : Config NodeId Command Result) :
    ∃ m, p.follower.dispatch fc (sendAppendEntries lc p.leader fc.nodeId) =
        ((exchange lc fc p).follower, [m]) ∧ m.receiverId = lc.nodeId ∧
      (p.leader.dispatch lc m).1 = (exchange lc fc p).leader := by
  by_cases hp : L.take k <+: p.follower.log
  · have hd : p.follower.dispatch fc (sendAppendEntries lc p.leader fc.nodeId) = _ :=
      h.dispatch_accept hp
    exact ⟨_, by rw [hd, exchange, hd], rfl, by rw [exchange, hd]; rfl⟩
  · have hd : p.follower.dispatch fc (sendAppendEntries lc p.leader fc.nodeId) = _ :=
      h.dispatch_reject hp
    exact ⟨_, by rw [hd, exchange, hd], rfl, by rw [exchange, hd]; rfl⟩

/-- A refused batch changes only `next_index` of the follower. -/
theorem Replicating.leader_reject (h : Replicating fc L k p)
    (lc : Config NodeId Command Result) (hno : ¬ L.take k <+: p.follower.log) :
    ∃ v, (exchange lc fc p).leader =
      { p.leader with nextIndex := p.leader.nextIndex.set fc.nodeId v } := by
  have hterm : (p.follower.followLeader p.leader.currentTerm lc.nodeId).currentTerm =
      p.leader.currentTerm :=
    (followLeader_currentTerm _ _ _).trans (max_eq_left h.term)
  refine ⟨max 0 ((p.leader.nextIndex.get? fc.nodeId).getD 0 - 1), ?_⟩
  rw [exchange, h.dispatch_reject hno]
  simp [dispatch, appendResponse, handleAppendResponse, h.leads, hterm]

/-- An accepted batch is recorded, and `_update_commit_index` looks at what it makes possible. -/
theorem Replicating.leader_accept (h : Replicating fc L k p) (lc : Config NodeId Command Result)
    (hp : L.take k <+: p.follower.log) : ∃ v w, (exchange lc fc p).leader = updateCommitIndex lc
      { p.leader with
        matchIndex := p.leader.matchIndex.set fc.nodeId v
        nextIndex := p.leader.nextIndex.set fc.nodeId w } := by
  refine ⟨((min (k + 50) L.length : ℕ) : ℤ) - 1, ((min (k + 50) L.length : ℕ) : ℤ) - 1 + 1, ?_⟩
  rw [exchange, h.dispatch_accept hp]
  simp [dispatch, appendResponse, handleAppendResponse, h.leads, h.currentTerm_accept]

/-- What an exchange keeps at the leader. -/
structure Kept (lc : Config NodeId Command Result) (b : NodeId)
    (n n' : RaftNode NodeId Command Result) : Prop where
  currentTerm : n'.currentTerm = n.currentTerm
  next : ∀ c ≠ b, n'.nextIndex.get? c = n.nextIndex.get? c
  matched : ∀ c ≠ b, n'.matchIndex.get? c = n.matchIndex.get? c
  waiting : ∀ i fut e, n.log.length = i + 1 → Waiting lc i fut e n → Waiting lc i fut e n'

theorem Replicating.kept (h : Replicating fc L k p) (lc : Config NodeId Command Result) :
    Kept lc fc.nodeId p.leader (exchange lc fc p).leader := by
  by_cases hp : L.take k <+: p.follower.log
  · obtain ⟨v, w, he⟩ := h.leader_accept lc hp
    rw [he]
    refine ⟨by simp, fun c hc => ?_, fun c hc => ?_, fun i fut e hlen hw => ?_⟩
    · rw [updateCommitIndex_nextIndex, Dict.get?_set_ne _ _ hc.symm]
    · rw [updateCommitIndex_matchIndex, Dict.get?_set_ne _ _ hc.symm]
    · refine Waiting.updateCommitIndex ?_ hlen
      exact hw.imp (fun ⟨hc, hp⟩ => ⟨hc, hp.future, hp.call, hp.entry, hp.pos, hp.ahead,
        hp.indexed, hp.log⟩) id
  · obtain ⟨v, he⟩ := h.leader_reject lc hp
    rw [he]
    refine ⟨rfl, fun c hc => Dict.get?_set_ne _ _ hc.symm, fun _ _ => rfl,
      fun i fut e _ hw => ?_⟩
    exact hw.imp (fun ⟨hc, hp⟩ => ⟨hc, hp.future, hp.call, hp.entry, hp.pos, hp.ahead,
      hp.indexed, hp.log⟩) id

/-- After an exchange the leader goes on from another place of the same log. -/
theorem Replicating.next_place (h : Replicating fc L k p) (lc : Config NodeId Command Result) :
    ∃ k', Replicating fc L k' (exchange lc fc p) := by
  by_cases hp : L.take k <+: p.follower.log
  · exact ⟨_, (h.accept lc hp).1⟩
  · obtain ⟨k', -, h'⟩ := h.reject lc hp
    exact ⟨k', h'⟩

end

/-! ## The leader and its followers -/

/-- The leader `a` has the call number `fut` with the entry `e` at the end `k` of its log. -/
structure Driving (ms : Members NodeId Command Result) (a : NodeId) (k fut : ℕ)
    (e : LogEntry Command) (f : NodeId → RaftNode NodeId Command Result) : Prop
    extends Leading ms a f where
  length : (f a).log.length = k + 1
  entry : (f a).log[k]? = some e
  term : e.term = (f a).currentTerm
  waiting : Waiting (ms.config a) k fut e (f a)

/-- The cluster after `a` and `b` have exchanged a batch and its reply. -/
def exchanged (ms : Members NodeId Command Result) (a b : NodeId)
    (f : NodeId → RaftNode NodeId Command Result) : NodeId → RaftNode NodeId Command Result :=
  Function.update
    (Function.update f b (exchange (ms.config a) (ms.config b) ⟨f a, f b⟩).follower) a
    (exchange (ms.config a) (ms.config b) ⟨f a, f b⟩).leader

section

variable {f : NodeId → RaftNode NodeId Command Result} {a b : NodeId} {k j fut : ℕ}
  {e : LogEntry Command}

theorem exchanged_leader : exchanged ms a b f a =
    (exchange (ms.config a) (ms.config b) ⟨f a, f b⟩).leader :=
  Function.update_self ..

theorem exchanged_follower (hab : b ≠ a) : exchanged ms a b f b =
    (exchange (ms.config a) (ms.config b) ⟨f a, f b⟩).follower := by
  rw [exchanged, Function.update_of_ne hab, Function.update_self]

theorem exchanged_pair (hab : b ≠ a) : (⟨exchanged ms a b f a, exchanged ms a b f b⟩ : Pair _ _ _) =
    exchange (ms.config a) (ms.config b) ⟨f a, f b⟩ := by
  rw [exchanged_leader, exchanged_follower hab]

/-- The leader goes on from `f` to `f'`, and nothing changes for the followers other than `b`. -/
structure Onward (ms : Members NodeId Command Result) (a b : NodeId) (k fut : ℕ)
    (e : LogEntry Command) (f f' : NodeId → RaftNode NodeId Command Result) : Prop where
  reaches : Reaches (step ms) (quiet f) (quiet f')
  driving : Driving ms a k fut e f'
  matched : ∀ c ≠ b, (f' a).matchIndex.get? c = (f a).matchIndex.get? c

theorem Onward.trans {f' f'' : NodeId → RaftNode NodeId Command Result}
    (h : Onward ms a b k fut e f f') (h' : Onward ms a b k fut e f' f'') :
    Onward ms a b k fut e f f'' :=
  ⟨h.reaches.trans h'.reaches, h'.driving, fun c hc => (h'.matched c hc).trans (h.matched c hc)⟩

/-- An exchange with a follower, as steps of the cluster. -/
theorem Driving.exchanged (h : Driving ms a k fut e f) (hab : b ≠ a)
    (hr : Replicating (ms.config b) (f a).log j ⟨f a, f b⟩) :
    Onward ms a b k fut e f (exchanged ms a b f) := by
  obtain ⟨m, hreply, hto, hleader⟩ := hr.reply (ms.config a)
  have hact : (f a).act (ms.config a) (.tick false) =
      (f a, broadcastHeartbeat (ms.config a) (f a)) := by
    simp [act, mainLoop, h.leads]
  have hmem : sendAppendEntries (ms.config a) (f a) b ∈ broadcastHeartbeat (ms.config a) (f a) :=
    List.mem_map.mpr ⟨b, (ms.mem_peers a b).mpr hab, rfl⟩
  -- one heartbeat to `b`, and its reply
  have hround := reaches_roundTrip ms f (.tick false) (by simp) hab.symm
    (by rw [hact]) (by rw [hact]; exact hmem) rfl hto hreply hleader
  have hkept := hr.kept (ms.config a)
  obtain ⟨j', hr'⟩ := hr.next_place (ms.config a)
  have hlog : (Raft.exchanged ms a b f a).log = (f a).log := by
    rw [exchanged_leader]
    exact hr'.log
  have hterm : (Raft.exchanged ms a b f a).currentTerm = (f a).currentTerm := by
    rw [exchanged_leader]
    exact hkept.currentTerm
  refine ⟨hround, ⟨⟨?_, fun c => ?_, fun c hc => ?_⟩, ?_, ?_, ?_, ?_⟩, fun c hc => ?_⟩
  · rw [exchanged_leader]
    exact hr'.leads
  · by_cases hcb : c = b
    · rw [hcb, exchanged_leader, exchanged_follower hab]
      exact hr'.term
    · rw [hterm, Raft.exchanged, Function.update_apply, Function.update_of_ne hcb]
      split
      · exact hkept.currentTerm.le
      · exact h.ahead c
  · rw [hlog, exchanged_leader]
    by_cases hcb : c = b
    · rw [hcb]
      exact ⟨j', hr'.next, hr'.le_length⟩
    · rw [hkept.next c hcb]
      exact h.next c hc
  · rw [hlog]
    exact h.length
  · rw [hlog]
    exact h.entry
  · rw [hterm]
    exact h.term
  · rw [exchanged_leader]
    exact hkept.waiting k fut e h.length h.waiting
  · rw [exchanged_leader]
    exact hkept.matched c hc

/-- Refused batches lead to a place up to which the follower has the log of the leader. -/
theorem Driving.walkBack (hab : b ≠ a) {L : List (LogEntry Command)} : ∀ {j : ℕ}
    {f : NodeId → RaftNode NodeId Command Result}, Driving ms a k fut e f →
      Replicating (ms.config b) L j ⟨f a, f b⟩ → ∃ f' j', Onward ms a b k fut e f f' ∧
        Replicating (ms.config b) L j' ⟨f' a, f' b⟩ ∧ L.take j' <+: (f' b).log := by
  intro j
  induction j with
  | zero =>
    intro f h hr
    exact ⟨f, 0, ⟨.refl _ _, h, fun _ _ => rfl⟩, hr, List.nil_prefix⟩
  | succ j ih =>
    intro f h hr
    by_cases hp : L.take (j + 1) <+: (f b).log
    · exact ⟨f, j + 1, ⟨.refl _ _, h, fun _ _ => rfl⟩, hr, hp⟩
    · obtain rfl : (f a).log = L := hr.log
      have hon := h.exchanged hab hr
      obtain ⟨j₁, hj₁, hr₁⟩ := hr.reject (ms.config a) hp
      obtain rfl : j = j₁ := Nat.succ.inj hj₁
      rw [← exchanged_pair hab] at hr₁
      obtain ⟨f', j', hon', hr', hp'⟩ := ih hon.driving hr₁
      exact ⟨f', j', hon.trans hon', hr', hp'⟩

/-- `_update_commit_index` starts at the end of the log: what it can commit there, it commits. -/
theorem lastLogIndex_le_commitIndex {cfg : Config NodeId Command Result}
    {n : RaftNode NodeId Command Result} (h : canCommit cfg n n.lastLogIndex = true) :
    n.lastLogIndex ≤ (updateCommitIndex cfg n).commitIndex := by
  rcases Int.lt_or_le n.commitIndex n.lastLogIndex with hlt | hle
  · obtain ⟨d, hd⟩ : ∃ d, (n.lastLogIndex - n.commitIndex).toNat = d + 1 :=
      ⟨(n.lastLogIndex - n.commitIndex).toNat - 1, by omega⟩
    have hfind : (rangeDown n.lastLogIndex n.commitIndex).find? (canCommit cfg n) =
        some n.lastLogIndex := by
      rw [rangeDown, hd, List.range_succ_eq_map, List.map_cons, Int.natCast_zero, Int.sub_zero]
      exact List.find?_cons_of_pos h
    rw [updateCommitIndex, hfind]
    simp
  · rcases updateCommitIndex_cases cfg n with he | ⟨c, hlt, -, -, he⟩ <;> rw [he]
    · exact hle
    · rw [applyCommitted_commitIndex]
      exact hle.trans hlt.le

theorem canCommit_updateCommitIndex (cfg : Config NodeId Command Result)
    (n : RaftNode NodeId Command Result) (i : ℤ) :
    canCommit cfg (updateCommitIndex cfg n) i = canCommit cfg n i := by
  simp [canCommit]

/-- The follower `b` has the whole log, the leader knows it, and the commit rule has looked at the
end of the log. -/
structure Verified (ms : Members NodeId Command Result) (a b : NodeId) (k : ℕ)
    (f : NodeId → RaftNode NodeId Command Result) : Prop where
  matched : (f a).matchIndex.get? b = some (k : ℤ)
  looked : canCommit (ms.config a) (f a) k = true → k ≤ (f a).commitIndex

/-- The exchange with the last batch. -/
theorem Driving.last (h : Driving ms a k fut e f)
    (hr : Replicating (ms.config b) (f a).log j ⟨f a, f b⟩) (hp : (f a).log.take j <+: (f b).log)
    (hend : (f a).log.length ≤ j + 50) : Verified ms a b k (Raft.exchanged ms a b f) := by
  obtain ⟨n, hleader, hlog⟩ : ∃ n, (exchange (ms.config a) (ms.config b) ⟨f a, f b⟩).leader =
      updateCommitIndex (ms.config a) n ∧ n.log = (f a).log := by
    obtain ⟨v, w, he⟩ := hr.leader_accept (ms.config a) hp
    exact ⟨_, he, rfl⟩
  obtain ⟨-, -, hm⟩ := hr.accept (ms.config a) hp
  have hk : ((k + 1 : ℕ) : ℤ) - 1 = k := by omega
  rw [min_eq_right hend, h.length, hk] at hm
  have hlast : n.lastLogIndex = k := by
    rw [lastLogIndex, hlog, h.length, hk]
  refine ⟨?_, fun hcan => ?_⟩
  · rw [exchanged_leader]
    exact hm
  · rw [exchanged_leader, hleader] at hcan ⊢
    rw [canCommit_updateCommitIndex, ← hlast] at hcan
    rw [← hlast]
    exact lastLogIndex_le_commitIndex hcan

/-- Accepted batches lead to the end of the log. -/
theorem Driving.forward (hab : b ≠ a) {L : List (LogEntry Command)} : ∀ (d : ℕ) {j : ℕ}
    {f : NodeId → RaftNode NodeId Command Result}, L.length ≤ j + d → Driving ms a k fut e f →
      Replicating (ms.config b) L j ⟨f a, f b⟩ → L.take j <+: (f b).log →
      ∃ f', Onward ms a b k fut e f f' ∧ Verified ms a b k f' := by
  intro d
  induction d with
  | zero =>
    intro j f hd h hr hp
    obtain rfl : (f a).log = L := hr.log
    exact ⟨_, h.exchanged hab hr, h.last hr hp (by omega)⟩
  | succ d ih =>
    intro j f hd h hr hp
    obtain rfl : (f a).log = L := hr.log
    have hon := h.exchanged hab hr
    by_cases hend : (f a).log.length ≤ j + 50
    · exact ⟨_, hon, h.last hr hp hend⟩
    · obtain ⟨hr', hp', -⟩ := hr.accept (ms.config a) hp
      rw [min_eq_left (by omega)] at hr' hp'
      rw [← exchanged_pair hab] at hr'
      rw [← exchanged_follower hab] at hp'
      obtain ⟨f', hon', hv⟩ := ih (by omega) hon.driving hr' hp'
      exact ⟨f', hon.trans hon', hv⟩

/-- Every follower can be brought up to the end of the log. -/
theorem Driving.verify [Fintype NodeId] (hreach : Reaches (step ms) Cluster.initial (quiet f))
    (h : Driving ms a k fut e f) (hb : b ∈ ms.peers a) :
    ∃ f', Onward ms a b k fut e f f' ∧ Verified ms a b k f' := by
  have hab := (ms.mem_peers a b).mp hb
  obtain ⟨j, hnext, hj⟩ := h.next b hb
  have hr : Replicating (ms.config b) (f a).log j ⟨f a, f b⟩ :=
    ⟨⟨rfl, hnext, hj, reached_matching hreach a b, h.ahead b⟩, h.leads⟩
  obtain ⟨f₁, j₁, hback, hr₁, hp₁⟩ := h.walkBack hab hr
  obtain ⟨f₂, hforth, hv⟩ := hback.driving.forward hab _ (Nat.le_add_left _ j₁) hr₁ hp₁
  exact ⟨f₂, hback.trans hforth, hv⟩

/-- All followers together. -/
theorem Driving.verifyAll [Fintype NodeId] : ∀ {l : List NodeId}
    {f : NodeId → RaftNode NodeId Command Result}, (∀ b ∈ l, b ∈ ms.peers a) →
    Reaches (step ms) Cluster.initial (quiet f) → Driving ms a k fut e f →
      ∃ f', Reaches (step ms) (quiet f) (quiet f') ∧ Driving ms a k fut e f' ∧
        ∀ b ∈ l, (f' a).matchIndex.get? b = some (k : ℤ) := by
  intro l
  induction l with
  | nil => exact fun _ _ h => ⟨_, .refl _ _, h, by simp⟩
  | cons b l ih =>
    intro f hl hreach h
    obtain ⟨f₁, hr₁, h₁, hm₁⟩ := ih (fun c hc => hl c (List.mem_cons_of_mem b hc)) hreach h
    obtain ⟨f₂, hon, hv⟩ := h₁.verify (hreach.trans hr₁) (hl b List.mem_cons_self)
    refine ⟨f₂, hr₁.trans hon.reaches, hon.driving, fun c hc => ?_⟩
    by_cases hcb : c = b
    · rw [hcb]
      exact hv.matched
    · rw [hon.matched c hcb]
      exact hm₁ c ((List.mem_cons.mp hc).resolve_left hcb)

/-- The call at the end of the log of a leader can be resolved. -/
theorem Driving.resolve [Fintype NodeId] (hcard : 2 ≤ Fintype.card NodeId)
    (hreach : Reaches (step ms) Cluster.initial (quiet f)) (h : Driving ms a k fut e f) :
    ∃ f', Reaches (step ms) (quiet f) (quiet f') ∧ Resolved (ms.config a) k fut e (f' a) := by
  have hlen := length_peers ms a
  obtain ⟨b, hb⟩ := List.exists_mem_of_length_pos (l := ms.peers a) (by omega)
  obtain ⟨f₁, hr₁, h₁, hm₁⟩ := h.verifyAll (l := ms.peers a) (fun _ hc => hc) hreach
  obtain ⟨f₂, hon, hv⟩ := h₁.verify (hreach.trans hr₁) hb
  refine ⟨f₂, hr₁.trans hon.reaches, ?_⟩
  have hall : ∀ c ∈ ms.peers a, (f₂ a).matchIndex.get? c = some (k : ℤ) := by
    intro c hc
    by_cases hcb : c = b
    · rw [hcb]
      exact hv.matched
    · rw [hon.matched c hcb]
      exact hm₁ c hc
  have hcan : canCommit (ms.config a) (f₂ a) k = true := by
    have hfilter : (ms.peers a).filter
        (fun peer => (k : ℤ) ≤ ((f₂ a).matchIndex.get? peer).getD (-1)) = ms.peers a :=
      List.filter_eq_self.mpr fun c hc => by simp [hall c hc]
    have hterm : termAt (f₂ a).log k = (f₂ a).currentTerm :=
      (termAt_of_getElem? hon.driving.entry).trans hon.driving.term
    have hlast := hon.driving.length
    unfold canCommit
    rw [if_neg (by omega), if_neg (by simpa using hterm)]
    simp only [Members.config, majority, hfilter, decide_eq_true_eq]
    omega
  rcases hon.driving.waiting with ⟨hlt, -⟩ | ⟨-, hres⟩
  · exact absurd (hv.looked hcan) (by omega)
  · exact hres

end

/-! ## Commands -/

section

variable {f : NodeId → RaftNode NodeId Command Result} {a : NodeId}

/-- A leader takes a command in and still leads. -/
theorem Leading.submit (h : Leading ms a f) (c : Command) :
    Reaches (step ms) (quiet f) (quiet (Function.update f a ((f a).appendCommand c))) ∧
      Leading ms a (Function.update f a ((f a).appendCommand c)) := by
  constructor
  · have hact := reaches_act ms f a (.submit c) (by simp)
    have hnode : ((f a).act (ms.config a) (.submit c)).1 = (f a).appendCommand c := by
      simp [act, RaftNode.submit, h.leads]
    rw [hnode] at hact
    exact hact.trans (reaches_lose (List.nil_sublist _))
  · refine ⟨?_, fun b => ?_, fun b hb => ?_⟩
    all_goals rw [Function.update_self]
    · exact h.leads
    · rw [Function.update_apply]
      split
      · exact Nat.le_refl _
      · exact h.ahead b
    · obtain ⟨j, hj, hle⟩ := h.next b hb
      refine ⟨j, hj, ?_⟩
      simp only [appendCommand, List.length_append, List.length_singleton]
      omega

/-- The log of a leader can be made as long as one likes without anything being committed. -/
theorem Leading.exists_longer (h : Leading ms a f) (c : Command) (d : ℕ) :
    ∃ f', Reaches (step ms) (quiet f) (quiet f') ∧ Leading ms a f' ∧ d ≤ (f' a).log.length ∧
      (f' a).commitIndex = (f a).commitIndex ∧ (f' a).lastApplied = (f a).lastApplied := by
  induction d with
  | zero => exact ⟨f, .refl _ _, h, Nat.zero_le _, rfl, rfl⟩
  | succ d ih =>
    obtain ⟨f₁, hr, h₁, hlen, hc, ha⟩ := ih
    obtain ⟨hr', h'⟩ := h₁.submit c
    refine ⟨_, hr.trans hr', h', ?_, ?_, ?_⟩ <;> rw [Function.update_self]
    · simp only [appendCommand, List.length_append, List.length_singleton]
      omega
    · exact hc
    · exact ha

/-- A leader takes a command in behind everything that it has committed or applied. -/
theorem Leading.exists_driving (hreach : Reaches (step ms) Cluster.initial (quiet f))
    (h : Leading ms a f) (c : Command) : ∃ f' k fut e, Reaches (step ms) (quiet f) (quiet f') ∧
      Driving ms a k fut e f' ∧ e.command = c ∧ (f a).calls.length ≤ fut := by
  obtain ⟨f₁, hr₁, h₁, hlen, hcommit, happlied⟩ :=
    h.exists_longer c ((max (f a).commitIndex (f a).lastApplied).toNat + 1)
  obtain ⟨hr₂, h₂⟩ := h₁.submit c
  have hreach₂ := (hreach.trans hr₁).trans hr₂
  have hlog := (reached_nodeOk hreach₂ a).log
  have hidx := reached_callsIndexed hreach₂ a
  rw [quiet_nodes, Function.update_self] at hlog hidx
  refine ⟨_, (f₁ a).log.length, (f₁ a).calls.length, (f₁ a).newEntry c, hr₁.trans hr₂,
    ⟨h₂, ?_, ?_, ?_, Or.inl ⟨?_, ?_⟩⟩, rfl, reached_length_calls hr₁ a⟩
  all_goals rw [Function.update_self]
  · simp [appendCommand]
  · exact List.getElem?_concat_length
  · rfl
  · show (f₁ a).commitIndex < (f₁ a).log.length
    omega
  · refine ⟨?_, List.getElem?_concat_length, List.getElem?_concat_length, by omega, ?_, hidx, hlog⟩
    · simp [appendCommand]
    · show (f₁ a).lastApplied < (f₁ a).log.length
      omega

end

/-! ## Progress -/

/-- Between the states `s` and `s'` a node took in a call of `submit` with the command `c`, and the
call has returned: its own entry is the last one that the node has applied, and the result is what
the callback gave for it. -/
def Served (ms : Members NodeId Command Result) (c : Command)
    (s s' : Cluster NodeId Command Result) : Prop :=
  ∃ a fut call pre, (s.nodes a).calls.length ≤ fut ∧ (s'.nodes a).calls[fut]? = some call ∧
    call.entry.command = c ∧ (s'.nodes a).applied = pre ++ [((call.index : ℤ), call.entry)] ∧
    call.fut = .done call.entry (ms.applyCallback a (pre.map fun x => x.2.command) c)

section

variable [Fintype NodeId] {s : Cluster NodeId Command Result}

theorem exists_served (hcard : 2 ≤ Fintype.card NodeId)
    (hreach : Reaches (step ms) Cluster.initial s) (c : Command) :
    ∃ s', Reaches (step ms) s s' ∧ Served ms c s s' := by
  have : Nonempty NodeId := Fintype.card_pos_iff.mp (by omega)
  obtain ⟨f, net⟩ := s
  have hquiet : Reaches (step ms) ⟨f, net⟩ (quiet f) := reaches_lose (List.nil_sublist net)
  have hreach₀ := hreach.trans hquiet
  obtain ⟨a, hbest⟩ := exists_best_log f
  have hone : ∀ b, a ≠ b → (f a).state = .leader → (f b).state = .leader →
      (f b).currentTerm ≠ (f a).currentTerm :=
    fun b hab ha hb ht => hab (reached_one_leader hreach₀ ha hb ht.symm)
  obtain ⟨f₁, hr₁, hlead⟩ := exists_elected ms hcard hone hbest
  obtain ⟨f₂, k, fut, e, hr₂, hdrive, hc, hfut⟩ := hlead.exists_driving (hreach₀.trans hr₁) c
  obtain ⟨f₃, hr₃, pre, happlied, hcall⟩ :=
    hdrive.resolve hcard ((hreach₀.trans hr₁).trans hr₂)
  refine ⟨quiet f₃, ((hquiet.trans hr₁).trans hr₂).trans hr₃, a, fut, _, pre,
    (reached_length_calls hr₁ a).trans hfut, hcall, hc, happlied, ?_⟩
  rw [← hc]
  rfl

/-- Without a second member nobody answers a candidate, so nothing is ever taken in. -/
theorem calls_eq_nil_of_card_le_one (hcard : Fintype.card NodeId ≤ 1)
    (hreach : Reaches (step ms) Cluster.initial s) (a : NodeId) : (s.nodes a).calls = [] := by
  obtain ⟨r, i, hi, rfl⟩ := exists_run_of_reaches hreach
  have hall : ∀ j ≤ r.length, Everywhere (fun _ n => n.state ≠ .leader ∧ n.calls = [])
      (fun _ => False) (r.state j) := by
    refine local_invariant (fun _ => ⟨by simp, rfl⟩) (fun b n inp n' out hacts hn hq => ?_) r
    have hpeers : (ms.config b).peers = [] := by
      have := length_peers ms b
      exact List.eq_nil_of_length_eq_zero (by show (ms.peers b).length = 0; omega)
    cases hacts with
    | idle => exact ⟨hn, by simp⟩
    | timeout => exact ⟨⟨by simp [becomeCandidate], hn.2⟩, by simp [startElection, hpeers]⟩
    | heartbeat _ hl => exact absurd hl hn.1
    | submit _ hl => exact absurd hl hn.1
    | submitTimeout k => simp [RaftNode.submitTimeout, hn]
    | stepDown m | deny m | grant m | gather m | elected m | rejectOld m | reject m | accept m
    | ack m | backOff m => exact (hq m rfl).elim
  exact ((hall i hi).nodes a).2

/-- **A cluster is never stuck**: from every state of every run a new call of `submit` can still
return with the result of its own command, exactly when the cluster has a second member. -/
theorem progress_iff (ms : Members NodeId Command Result) (c : Command) :
    (∀ (r : ClusterRun ms), ∀ i ≤ r.length, ∃ es s', exec (step ms) (r.state i) es = some s' ∧
      Served ms c (r.state i) s') ↔ 2 ≤ Fintype.card NodeId := by
  constructor
  · intro h
    by_contra hcard
    let r : ClusterRun ms := Run.ofEvents _ _ [] (.drop 0) rfl
    obtain ⟨es, s', hes, a, fut, call, pre, -, hcall, -⟩ := h r 0 (Nat.zero_le _)
    rw [r.state_zero] at hes
    rw [calls_eq_nil_of_card_le_one (by omega) ⟨es, hes⟩ a] at hcall
    cases hcall
  · intro hcard r i hi
    obtain ⟨s', ⟨es, hes⟩, hserved⟩ := exists_served hcard (Reaches.of_run r i hi) c
    exact ⟨es, s', hes, hserved⟩

end

end Raft
