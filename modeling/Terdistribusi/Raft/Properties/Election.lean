import Terdistribusi.Raft.Properties.Safety
import Mathlib.Data.Finset.Max
import Mathlib.Data.Finset.Lattice.Fold
import Mathlib.Data.Fintype.EquivFin
import Mathlib.Data.Prod.Lex

/-!
# A leader can be elected

Which events lead where, from a state with the nodes `f` and nothing in flight:

* `reaches_lose`, `reaches_act`, `reaches_ask` — messages are lost, a node acts, a node answers a
  message and its answer arrives
* `exists_stepDown` — a leader can be made to step down, and no log changes
* `exists_elected` — the node with the best log can be elected, in a term that no other node exceeds

A cluster with one member has no one to ask, and a candidate counts its votes only when an answer
arrives (`exists_elected` needs a second member).
-/

namespace Raft

open Infra RaftNode

variable {NodeId Command Result : Type} [DecidableEq NodeId] {ms : Members NodeId Command Result}
  {f : NodeId → RaftNode NodeId Command Result}

/-! ## Moves of the cluster -/

/-- Nothing is in flight. -/
def quiet (f : NodeId → RaftNode NodeId Command Result) : Cluster NodeId Command Result :=
  { nodes := f, net := [] }

omit [DecidableEq NodeId] in
@[simp] theorem quiet_nodes : (quiet f).nodes = f := rfl

/-- Any messages in flight can be lost. -/
theorem reaches_lose {l net : List (Message NodeId Command)} (h : l.Sublist net) :
    Reaches (step ms) ⟨f, net⟩ ⟨f, l⟩ := by
  have key : ∀ pre, Reaches (step ms) ⟨f, pre ++ net⟩ ⟨f, pre ++ l⟩ := by
    induction h with
    | slnil => exact fun pre => .refl _ _
    | @cons l net m _ ih =>
      intro pre
      have hdrop : step ms ⟨f, pre ++ m :: net⟩ (.drop pre.length) = some ⟨f, pre ++ net⟩ := by
        simp [step, List.eraseIdx_append_of_length_le]
      exact (Reaches.single hdrop).trans (ih pre)
    | @cons_cons l net m _ ih =>
      intro pre
      simpa using ih (pre ++ [m])
  exact key []

variable (ms f) in
/-- A node acts on an input of its own. -/
theorem reaches_act (a : NodeId) (inp : Input NodeId Command) (hinp : ∀ m, inp ≠ .receive m) :
    Reaches (step ms) (quiet f)
      ⟨Function.update f a ((f a).act (ms.config a) inp).1, ((f a).act (ms.config a) inp).2⟩ := by
  cases inp with
  | tick expired => exact .single (e := .tick a expired) rfl
  | submit c => exact .single (e := .submit a c) rfl
  | submitTimeout k => exact .single (e := .submitTimeout a k) rfl
  | receive m => exact absurd rfl (hinp m)

/-- The receiver `b` of the first message becomes `nb` and answers, and the receiver `a` of the
answer becomes `na`. -/
theorem reaches_ask {m m' : Message NodeId Command} (rest : List (Message NodeId Command))
    {a b : NodeId} {na nb : RaftNode NodeId Command Result} (hab : a ≠ b)
    (hm : m.receiverId = b) (hm' : m'.receiverId = a)
    (hb : (f b).dispatch (ms.config b) m = (nb, [m']))
    (ha : ((f a).dispatch (ms.config a) m').1 = na) :
    Reaches (step ms) ⟨f, m :: rest⟩ ⟨Function.update (Function.update f b nb) a na, rest⟩ := by
  subst hm hm'
  have hask : step ms ⟨f, m :: rest⟩ (.deliver 0) =
      some ⟨Function.update f m.receiverId nb, rest ++ [m']⟩ := by
    simp [step, Cluster.act, act, hb]
  refine (Reaches.single hask).trans ?_
  have hanswer : step ms ⟨Function.update f m.receiverId nb, rest ++ [m']⟩ (.deliver rest.length) =
      some ⟨Function.update (Function.update f m.receiverId nb) m'.receiverId na,
        rest ++ ((f m'.receiverId).dispatch (ms.config m'.receiverId) m').2⟩ := by
    simp [step, Cluster.act, act, Function.update_of_ne hab, ha,
      List.eraseIdx_append_of_length_le]
  exact (Reaches.single hanswer).trans (reaches_lose (List.sublist_append_left _ _))

variable (ms f) in
/-- The same for a message that a node `a` sends when it acts as `na`. -/
theorem reaches_roundTrip {m m' : Message NodeId Command} {a b : NodeId}
    (inp : Input NodeId Command) {na na' nb : RaftNode NodeId Command Result}
    (hinp : ∀ m, inp ≠ .receive m) (hab : a ≠ b) (hact : ((f a).act (ms.config a) inp).1 = na)
    (hm : m ∈ ((f a).act (ms.config a) inp).2) (hmb : m.receiverId = b) (hma : m'.receiverId = a)
    (hb : (f b).dispatch (ms.config b) m = (nb, [m']))
    (ha : (na.dispatch (ms.config a) m').1 = na') :
    Reaches (step ms) (quiet f) (quiet (Function.update (Function.update f b nb) a na')) := by
  have hsent := reaches_act ms f a inp hinp
  rw [hact] at hsent
  refine (hsent.trans (reaches_lose (List.singleton_sublist.mpr hm))).trans ?_
  have ha' : ((Function.update f a na a).dispatch (ms.config a) m').1 = na' := by
    rw [Function.update_self]
    exact ha
  have hask := reaches_ask [] hab hmb hma
    (by rw [Function.update_of_ne hab.symm]; exact hb) ha'
  rw [Function.update_comm hab, Function.update_idem] at hask
  exact hask

/-! ## Stepping down -/

variable (ms f) in
/-- A node of a higher term turns a leader's batch down, and the leader steps down. -/
theorem reaches_stepDown {a b : NodeId} (hab : a ≠ b) (hl : (f a).state = .leader)
    (hlt : (f a).currentTerm < (f b).currentTerm) :
    Reaches (step ms) (quiet f)
      (quiet (Function.update f a ((f a).becomeFollower (f b).currentTerm))) := by
  have hact : (f a).act (ms.config a) (.tick false) =
      (f a, broadcastHeartbeat (ms.config a) (f a)) := by
    simp [act, mainLoop, hl]
  have hmem : sendAppendEntries (ms.config a) (f a) b ∈ broadcastHeartbeat (ms.config a) (f a) :=
    List.mem_map.mpr ⟨b, (ms.mem_peers a b).mpr hab.symm, rfl⟩
  have hb : (f b).dispatch (ms.config b) (sendAppendEntries (ms.config a) (f a) b) =
      (f b, [appendResponse (ms.config b) (f b) a false (-1)]) := by
    simp [dispatch, sendAppendEntries, handleAppendEntries, hlt, Members.config]
  have ha : ((f a).dispatch (ms.config a)
      (appendResponse (ms.config b) (f b) a false (-1))).1 =
        (f a).becomeFollower (f b).currentTerm := by
    simp [dispatch, appendResponse, handleAppendResponse, hl, hlt]
  have hround := reaches_roundTrip ms f (.tick false) (by simp) hab
    (by rw [hact]) (by rw [hact]; exact hmem) rfl rfl hb ha
  rwa [Function.update_eq_self] at hround

variable (ms f) in
/-- A node that does not lead can time out as often as it takes to get to any term. -/
theorem exists_outgrow (b : NodeId) (hb : (f b).state ≠ .leader) (k : ℕ) :
    ∃ n, Reaches (step ms) (quiet f) (quiet (Function.update f b n)) ∧ n.state ≠ .leader ∧
      n.currentTerm = (f b).currentTerm + k ∧ n.log = (f b).log := by
  induction k with
  | zero =>
    refine ⟨f b, ?_, hb, rfl, rfl⟩
    rw [Function.update_eq_self]
    exact .refl _ _
  | succ k ih =>
    obtain ⟨n, hreach, hn, ht, hlog⟩ := ih
    refine ⟨n.becomeCandidate (ms.config b), hreach.trans ?_, by simp [becomeCandidate],
      by simp [becomeCandidate, ht, Nat.add_assoc], hlog⟩
    have hact := reaches_act ms (Function.update f b n) b (.tick true) (by simp)
    have hnode : (n.act (ms.config b) (.tick true)).1 = n.becomeCandidate (ms.config b) := by
      cases hs : n.state <;> simp_all [act, mainLoop]
    rw [Function.update_self, hnode, Function.update_idem] at hact
    exact hact.trans (reaches_lose (List.nil_sublist _))

variable (ms) in
/-- A node that does not lead the term of `a` can get to a higher term than `a`. -/
theorem exists_ahead {a b : NodeId} (hab : a ≠ b)
    (hb : (f b).state = .leader → (f b).currentTerm ≠ (f a).currentTerm) :
    ∃ n, Reaches (step ms) (quiet f) (quiet (Function.update f b n)) ∧
      (f a).currentTerm < n.currentTerm ∧ n.log = (f b).log := by
  by_cases hl : (f b).state = .leader
  · rcases Nat.lt_or_gt_of_ne (hb hl) with hlt | hgt
    · -- the leader `b` is behind `a`: it steps down first
      have hdown := reaches_stepDown ms f hab.symm hl hlt
      obtain ⟨n, hreach, -, ht, hlog⟩ := exists_outgrow ms
        (Function.update f b ((f b).becomeFollower (f a).currentTerm)) b (by simp)
        ((f a).currentTerm + 1)
      rw [Function.update_idem] at hreach
      rw [Function.update_self] at ht hlog
      exact ⟨n, hdown.trans hreach, by omega, hlog.trans (becomeFollower_log _ _)⟩
    · refine ⟨f b, ?_, hgt, rfl⟩
      rw [Function.update_eq_self]
      exact .refl _ _
  · obtain ⟨n, hreach, -, ht, hlog⟩ := exists_outgrow ms f b hl ((f a).currentTerm + 1)
    exact ⟨n, hreach, by omega, hlog⟩

theorem log_update {b : NodeId} {n : RaftNode NodeId Command Result}
    (h : n.log = (f b).log) (c : NodeId) : (Function.update f b n c).log = (f c).log := by
  by_cases hc : c = b
  · subst hc
    rw [Function.update_self, h]
  · rw [Function.update_of_ne hc]

variable (ms) in
/-- Any node can be made to step down, and no log changes. -/
theorem exists_stepDown {a b : NodeId} (hab : a ≠ b)
    (hone : (f a).state = .leader → (f b).state = .leader →
      (f b).currentTerm ≠ (f a).currentTerm) :
    ∃ f', Reaches (step ms) (quiet f) (quiet f') ∧ (f' a).state ≠ .leader ∧
      ∀ c, (f' c).log = (f c).log := by
  by_cases hl : (f a).state = .leader
  · obtain ⟨n, hreach, hlt, hlog⟩ := exists_ahead ms hab (hone hl)
    have hdown := reaches_stepDown ms (Function.update f b n) hab
      (by rw [Function.update_of_ne hab]; exact hl)
      (by rw [Function.update_of_ne hab, Function.update_self]; exact hlt)
    refine ⟨_, hreach.trans hdown, by simp, fun c => ?_⟩
    exact (log_update (becomeFollower_log _ _) c).trans (log_update hlog c)
  · exact ⟨f, .refl _ _, hl, fun _ => rfl⟩

/-! ## The campaign -/

def voteRequest (cfg : Config NodeId Command Result) (n : RaftNode NodeId Command Result)
    (peer : NodeId) : Message NodeId Command :=
  { senderId := cfg.nodeId
    receiverId := peer
    payload := .requestVote cfg.nodeId n.lastLogIndex n.lastLogTerm
    term := n.currentTerm }

/-- The candidate `a` has asked the nodes `l`, which have not answered yet; everyone else has voted
for it. -/
structure Campaign (ms : Members NodeId Command Result) (a : NodeId) (l : List NodeId)
    (s : Cluster NodeId Command Result) : Prop where
  net : s.net = l.map (voteRequest (ms.config a) (s.nodes a))
  candidate : (s.nodes a).state = .candidate
  nodup : l.Nodup
  ahead : ∀ b, (s.nodes b).currentTerm ≤ (s.nodes a).currentTerm
  asked : ∀ b ∈ l, b ≠ a ∧ (s.nodes b).currentTerm < (s.nodes a).currentTerm ∧
    (s.nodes b).voteLogOk (s.nodes a).lastLogIndex (s.nodes a).lastLogTerm = true
  voted : ∀ b, b ∈ (s.nodes a).votesReceived ∨ b ∈ l
  short : (s.nodes a).votesReceived.card < majority (ms.config a)

/-- Nothing is in flight, `a` leads with no node ahead of it, and will send what follows its log. -/
structure Leading (ms : Members NodeId Command Result) (a : NodeId)
    (f : NodeId → RaftNode NodeId Command Result) : Prop where
  leads : (f a).state = .leader
  ahead : ∀ b, (f b).currentTerm ≤ (f a).currentTerm
  next : ∀ b ∈ ms.peers a, ∃ k : ℕ, ((f a).nextIndex.get? b).getD 0 = k ∧ k ≤ (f a).log.length

/-- A node of a lower term with a log that is not ahead grants its vote. -/
theorem dispatch_voteRequest (cfg cfg' : Config NodeId Command Result)
    {n n' : RaftNode NodeId Command Result} (hlt : n'.currentTerm < n.currentTerm)
    (hok : n'.voteLogOk n.lastLogIndex n.lastLogTerm = true) :
    n'.dispatch cfg' (voteRequest cfg n cfg'.nodeId) =
      ({ n' with currentTerm := n.currentTerm, votedFor := some cfg.nodeId, state := .follower },
        [{ senderId := cfg'.nodeId, receiverId := cfg.nodeId,
           payload := .requestVoteResponse true cfg'.nodeId, term := n.currentTerm }]) := by
  have hcatch : n'.catchUp n.currentTerm =
      { n' with currentTerm := n.currentTerm, votedFor := none, state := .follower } := by
    rcases catchUp_cases n.currentTerm n' with ⟨hle, -⟩ | ⟨-, he⟩
    · omega
    · exact he
  have hgrant : ((n'.catchUp n.currentTerm).voteLogOk n.lastLogIndex n.lastLogTerm &&
      !(n'.catchUp n.currentTerm).alreadyVoted cfg.nodeId) = true := by
    rw [hcatch, Bool.and_eq_true]
    exact ⟨hok, rfl⟩
  show n'.handleRequestVote cfg' n.currentTerm cfg.nodeId n.lastLogIndex n.lastLogTerm = _
  unfold handleRequestVote
  rw [if_neg (Nat.not_lt.mpr hlt.le)]
  dsimp only
  rw [if_pos hgrant, hcatch]
  rfl

/-- A candidate that gets a vote counts it, and leads when the votes are a majority. -/
theorem dispatch_vote {cfg : Config NodeId Command Result} {n : RaftNode NodeId Command Result}
    (hc : n.state = .candidate) (a v : NodeId) :
    (n.dispatch cfg { senderId := v, receiverId := a, payload := .requestVoteResponse true v,
                      term := n.currentTerm }).1 =
      if majority cfg ≤ (insert v n.votesReceived).card then
        becomeLeader cfg { n with votesReceived := insert v n.votesReceived }
      else { n with votesReceived := insert v n.votesReceived } := by
  simp only [dispatch, handleVoteResponse, hc]
  simp only [ne_eq, not_true_eq_false, if_false, gt_iff_lt, lt_irrefl, if_true]
  split <;> rfl

/-- The next node that is asked votes for the candidate, which is then elected or goes on. -/
theorem Campaign.ask {a b : NodeId} {l : List NodeId} {s : Cluster NodeId Command Result}
    (h : Campaign ms a (b :: l) s) : ∃ s', Reaches (step ms) s s' ∧
      (Campaign ms a l s' ∨ ∃ f', s' = quiet f' ∧ Leading ms a f') := by
  obtain ⟨nodes, net⟩ := s
  obtain ⟨hba, hlt, hok⟩ := h.asked b List.mem_cons_self
  have hnet := h.net
  dsimp only at hba hlt hok hnet
  rw [List.map_cons] at hnet
  subst hnet
  have hcand : (nodes a).state = .candidate := h.candidate
  have hb := dispatch_voteRequest (ms.config a) (ms.config b) hlt hok
  have hask := reaches_ask (l.map (voteRequest (ms.config a) (nodes a))) hba.symm rfl rfl hb
    (dispatch_vote hcand a b)
  -- the voter has caught up with the term of the candidate
  have hahead : ∀ na : RaftNode NodeId Command Result, na.currentTerm = (nodes a).currentTerm →
      ∀ c, (Function.update (Function.update nodes b { nodes b with
        currentTerm := (nodes a).currentTerm, votedFor := some a, state := .follower }) a na
          c).currentTerm ≤ na.currentTerm := by
    intro na hna c
    rw [Function.update_apply, Function.update_apply]
    split
    · exact Nat.le_refl _
    · split
      · exact hna.ge
      · exact hna ▸ h.ahead c
  by_cases hmaj : majority (ms.config a) ≤ (insert b (nodes a).votesReceived).card
  · -- elected
    rw [if_pos hmaj] at hask
    refine ⟨_, hask.trans (reaches_lose (List.nil_sublist _)), Or.inr ⟨_, rfl, ?_, ?_, ?_⟩⟩
    · rw [Function.update_self]
      rfl
    · rw [Function.update_self]
      exact hahead _ rfl
    · intro c hc
      rw [Function.update_self]
      refine ⟨(nodes a).log.length, ?_, Nat.le_refl _⟩
      have hc' : c ∈ (ms.config a).peers := hc
      simp [becomeLeader, Dict.get?_setAll, hc', lastLogIndex]
  · rw [if_neg hmaj] at hask
    -- the vote is counted, and the others are still to be asked
    refine ⟨_, hask, Or.inl ⟨?_, ?_, (List.nodup_cons.mp h.nodup).2, ?_, ?_, ?_, ?_⟩⟩
    all_goals dsimp only
    · rw [Function.update_self]
      rfl
    · rw [Function.update_self]
      exact hcand
    · rw [Function.update_self]
      exact hahead _ rfl
    · intro c hc
      have hcb : c ≠ b := fun he => (List.nodup_cons.mp h.nodup).1 (he ▸ hc)
      obtain ⟨hca, hlt', hok'⟩ := h.asked c (List.mem_cons_of_mem b hc)
      rw [Function.update_self, Function.update_of_ne hca, Function.update_of_ne hcb]
      exact ⟨hca, hlt', hok'⟩
    · intro c
      rw [Function.update_self, Finset.mem_insert]
      rcases h.voted c with hv | hv
      · exact Or.inl (Or.inr hv)
      · exact (List.mem_cons.mp hv).imp_left Or.inl
    · rw [Function.update_self]
      exact Nat.lt_of_not_le hmaj

section

variable [Fintype NodeId]

/-- A campaign that everyone hears of is won. -/
theorem Campaign.win (hcard : 2 ≤ Fintype.card NodeId) {a : NodeId} : ∀ {l : List NodeId}
    {s : Cluster NodeId Command Result}, Campaign ms a l s →
      ∃ f', Reaches (step ms) s (quiet f') ∧ Leading ms a f' := by
  intro l
  induction l with
  | nil =>
    intro s h
    have hall : (s.nodes a).votesReceived = Finset.univ :=
      Finset.eq_univ_of_forall fun b => (h.voted b).resolve_right (by simp)
    have hshort := h.short
    have hlen := length_peers ms a
    rw [hall, Finset.card_univ] at hshort
    simp only [majority, Members.config] at hshort
    omega
  | cons b l ih =>
    intro s h
    obtain ⟨s', hreach, hs' | ⟨f', rfl, hf'⟩⟩ := h.ask
    · obtain ⟨f', hreach', hf'⟩ := ih hs'
      exact ⟨f', hreach.trans hreach', hf'⟩
    · exact ⟨f', hreach, hf'⟩

omit [DecidableEq NodeId] [Fintype NodeId] in
theorem voteLogOk_congr {n n' c c' : RaftNode NodeId Command Result} (h : n.log = n'.log)
    (hc : c.log = c'.log) : n.voteLogOk c.lastLogIndex c.lastLogTerm =
      n'.voteLogOk c'.lastLogIndex c'.lastLogTerm := by
  have hterm : n.lastLogTerm = n'.lastLogTerm := by unfold lastLogTerm; rw [h]
  have hterm' : c.lastLogTerm = c'.lastLogTerm := by unfold lastLogTerm; rw [hc]
  unfold voteLogOk lastLogIndex
  rw [hterm, hterm', h, hc]

omit [DecidableEq NodeId] in
/-- Some node has a log that every node would vote for. -/
theorem exists_best_log [Nonempty NodeId] (f : NodeId → RaftNode NodeId Command Result) :
    ∃ a, ∀ b, (f b).voteLogOk (f a).lastLogIndex (f a).lastLogTerm = true := by
  obtain ⟨a, -, ha⟩ := Finset.exists_max_image Finset.univ
    (fun b => toLex ((f b).lastLogTerm, (f b).log.length)) Finset.univ_nonempty
  refine ⟨a, fun b => ?_⟩
  simp only [voteLogOk, Bool.or_eq_true, Bool.and_eq_true, decide_eq_true_eq]
  rcases Prod.Lex.toLex_le_toLex.mp (ha b (Finset.mem_univ b)) with hlt | ⟨heq, hle⟩
  · exact Or.inl hlt
  · refine Or.inr ⟨heq.symm, ?_⟩
    show ((f b).log.length : ℤ) - 1 ≤ (f a).log.length - 1
    exact Int.sub_le_sub_right (Int.ofNat_le.mpr hle) 1

variable (ms) in
/-- **The node with the best log can be elected**, whoever leads at present. -/
theorem exists_elected (hcard : 2 ≤ Fintype.card NodeId) {a : NodeId}
    (hone : ∀ b, a ≠ b → (f a).state = .leader → (f b).state = .leader →
      (f b).currentTerm ≠ (f a).currentTerm)
    (hbest : ∀ b, (f b).voteLogOk (f a).lastLogIndex (f a).lastLogTerm = true) :
    ∃ f', Reaches (step ms) (quiet f) (quiet f') ∧ Leading ms a f' := by
  obtain ⟨b, hab⟩ : ∃ b, a ≠ b := by
    have := Fintype.one_lt_card_iff_nontrivial.mp (Nat.lt_of_succ_le hcard)
    exact (exists_ne a).imp fun b hb => hb.symm
  obtain ⟨f₁, hdown, hst, hlog⟩ := exists_stepDown ms hab (hone b hab)
  obtain ⟨n, hgrow, hn, hterm, hnlog⟩ := exists_outgrow ms f₁ a hst
    (Finset.univ.sup fun c => (f₁ c).currentTerm)
  have htop : ∀ c, (f₁ c).currentTerm ≤ n.currentTerm := by
    intro c
    have := Finset.le_sup (f := fun c => (f₁ c).currentTerm) (Finset.mem_univ c)
    omega
  -- one more timeout, and the requests of this one are kept
  have hact := reaches_act ms (Function.update f₁ a n) a (.tick true) (by simp)
  have hnode : n.act (ms.config a) (.tick true) =
      (n.becomeCandidate (ms.config a), startElection (ms.config a)
        (n.becomeCandidate (ms.config a))) := by
    cases hs : n.state <;> simp_all [act, mainLoop]
  rw [Function.update_self, hnode, Function.update_idem] at hact
  have hcamp : Campaign ms a (ms.peers a) ⟨Function.update f₁ a (n.becomeCandidate (ms.config a)),
      startElection (ms.config a) (n.becomeCandidate (ms.config a))⟩ := by
    refine ⟨?_, ?_, ms.nodup_peers a, ?_, ?_, ?_, ?_⟩
    all_goals dsimp only
    · rw [Function.update_self]
      rfl
    · rw [Function.update_self]
      rfl
    · intro c
      rw [Function.update_self, Function.update_apply]
      split
      · exact Nat.le_refl _
      · exact Nat.le_succ_of_le (htop c)
    · intro c hc
      have hca := (ms.mem_peers a c).mp hc
      rw [Function.update_self, Function.update_of_ne hca]
      refine ⟨hca, Nat.lt_succ_of_le (htop c), ?_⟩
      exact (voteLogOk_congr (hlog c) (hnlog.trans (hlog a))).trans (hbest c)
    · intro c
      rw [Function.update_self]
      by_cases hca : c = a
      · exact Or.inl (Finset.mem_singleton.mpr hca)
      · exact Or.inr ((ms.mem_peers a c).mpr hca)
    · have hlen := length_peers ms a
      rw [Function.update_self]
      simp only [becomeCandidate, majority, Members.config, Finset.card_singleton]
      omega
  obtain ⟨f', hwin, hf'⟩ := hcamp.win hcard
  exact ⟨f', ((hdown.trans hgrow).trans hact).trans hwin, hf'⟩

end

end Raft
