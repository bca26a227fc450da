import Terdistribusi.Infra.LogHistory
import Terdistribusi.Raft.Properties.WellFormed

/-!
# What the messages in flight say about the past

A message tells what its sender was when it sent it, however late it arrives. Each kind of message
that matters for safety is tied to an earlier state of the run:

* `RequestOk` — a vote request describes the log its sender still has while it is that candidate
* `GrantOk` — a granted vote was recorded by its sender in the term of the message
* `BatchOk` — a batch of entries was built by a node that was leader then

`VotesOk` then says where the votes come from that a candidate has counted.
-/

namespace Raft

open Infra RaftNode

variable {NodeId Command Result : Type}

/-- Node `a` at time `i` of the run. -/
abbrev nodeAt [DecidableEq NodeId] {ms : Members NodeId Command Result} (r : ClusterRun ms) (i : ℕ)
    (a : NodeId) : RaftNode NodeId Command Result :=
  (r.state i).nodes a

variable [DecidableEq NodeId] {ms : Members NodeId Command Result} (r : ClusterRun ms)

/-! ## Single steps of a run -/

/-- Every node takes one of the branches of `Acts` in every step; a node that does not act is
idle. -/
theorem node_step {i : ℕ} (hi : i < r.length) (a : NodeId) :
    ∃ inp out, Acts (ms.config a) (nodeAt r i a) inp (nodeAt r (i + 1) a) out ∧
      ∀ m, inp = .receive m → Delivered (r.state i) (r.event i) a m := by
  rcases step_cases (r.state_succ i hi) with ⟨hn, -⟩ | ⟨b, inp, hn, -, hr⟩
  · refine ⟨.tick false, [], ?_, by simp⟩
    rw [nodeAt, nodeAt, hn]
    exact .idle _
  · by_cases hab : a = b
    · subst hab
      refine ⟨inp, ((nodeAt r i a).act (ms.config a) inp).2, ?_, hr⟩
      rw [nodeAt, nodeAt, hn, Function.update_self]
      exact acts_act
    · refine ⟨.tick false, [], ?_, by simp⟩
      rw [nodeAt, nodeAt, hn, Function.update_of_ne hab]
      exact .idle _

/-- A message in flight was in flight before or is sent in this step. -/
theorem net_step {i : ℕ} (hi : i < r.length) {x : Message NodeId Command}
    (hx : x ∈ (r.state (i + 1)).net) : x ∈ (r.state i).net ∨
      ∃ a inp out, Acts (ms.config a) (nodeAt r i a) inp (nodeAt r (i + 1) a) out ∧ x ∈ out ∧
        ∀ m, inp = .receive m → Delivered (r.state i) (r.event i) a m := by
  rcases step_cases (r.state_succ i hi) with ⟨-, hm⟩ | ⟨b, inp, hn, hm, hr⟩
  · exact Or.inl (hm x hx)
  · refine (hm x hx).imp_right fun ho => ⟨b, inp, _, ?_, ho, hr⟩
    rw [nodeAt, nodeAt, hn, Function.update_self]
    exact acts_act

theorem term_step {i : ℕ} (hi : i < r.length) (a : NodeId) :
    (nodeAt r i a).currentTerm ≤ (nodeAt r (i + 1) a).currentTerm := by
  obtain ⟨inp, out, h, -⟩ := node_step r hi a
  exact h.ballot.1

theorem term_mono {i j : ℕ} (hij : i ≤ j) (hj : j ≤ r.length) (a : NodeId) :
    (nodeAt r i a).currentTerm ≤ (nodeAt r j a).currentTerm :=
  r.rel (R := fun s s' => (s.nodes a).currentTerm ≤ (s'.nodes a).currentTerm)
    (fun _ => Nat.le_refl _) (fun _ _ _ => Nat.le_trans) (fun _ hi => term_step r hi a) hij hj

/-- A candidate whose term is not new was a candidate with the same log before. -/
theorem candidate_back {i : ℕ} (hi : i < r.length) {c : NodeId} {T : ℕ}
    (hT : T ≤ (nodeAt r i c).currentTerm) (hc : (nodeAt r (i + 1) c).state = .candidate)
    (ht : (nodeAt r (i + 1) c).currentTerm = T) :
    (nodeAt r i c).state = .candidate ∧ (nodeAt r i c).currentTerm = T ∧
      (nodeAt r (i + 1) c).log = (nodeAt r i c).log := by
  obtain ⟨inp, out, h, -⟩ := node_step r hi c
  obtain ⟨hlog, hcase⟩ := h.candidate hc
  rcases hcase with ⟨hst, hte, -⟩ | ⟨hte, -, -⟩
  · exact ⟨hst, by omega, hlog⟩
  · omega

/-! ## Votes -/

omit [DecidableEq NodeId] in
theorem lastLogTerm_eq_lastTerm (n : RaftNode NodeId Command Result) :
    n.lastLogTerm = lastTerm LogEntry.term n.log := by
  unfold lastLogTerm lastTerm
  cases n.log.getLast? <;> rfl

omit [DecidableEq NodeId] in
/-- The voter's check compares the two logs as `UpToDate` does. -/
theorem upToDate_of_voteLogOk {n c : RaftNode NodeId Command Result}
    (h : n.voteLogOk c.lastLogIndex c.lastLogTerm = true) :
    UpToDate LogEntry.term c.log n.log := by
  simp only [voteLogOk, Bool.or_eq_true, Bool.and_eq_true, decide_eq_true_eq] at h
  rw [lastLogTerm_eq_lastTerm, lastLogTerm_eq_lastTerm] at h
  unfold lastLogIndex at h
  rcases h with h | ⟨ht, hl⟩
  · exact Or.inl h
  · exact Or.inr ⟨ht.symm, by omega⟩

/-- A vote request describes the log of its sender as long as that is a candidate of its term. -/
def RequestOk (i : ℕ) (m : Message NodeId Command) : Prop :=
  ∀ c li lt, m.payload = .requestVote c li lt → m.term ≤ (nodeAt r i c).currentTerm ∧
    ((nodeAt r i c).state = .candidate → (nodeAt r i c).currentTerm = m.term →
      li = (nodeAt r i c).lastLogIndex ∧ lt = (nodeAt r i c).lastLogTerm)

/-- Up to time `i` node `v` voted for `c` in term `T`, with a log not ahead of `log`. -/
def Voted (i : ℕ) (v c : NodeId) (T : ℕ) (log : List (LogEntry Command)) : Prop :=
  ∃ j ≤ i, (nodeAt r j v).currentTerm = T ∧ (nodeAt r j v).votedFor = some c ∧
    UpToDate LogEntry.term log (nodeAt r j v).log

/-- A granted vote in flight was recorded by the voter, and counts for the candidate's log. -/
def GrantOk (i : ℕ) (m : Message NodeId Command) : Prop :=
  ∀ v, m.payload = .requestVoteResponse true v →
    m.term ≤ (nodeAt r i m.receiverId).currentTerm ∧
    ((nodeAt r i m.receiverId).state = .candidate →
      (nodeAt r i m.receiverId).currentTerm = m.term →
      Voted r i v m.receiverId m.term (nodeAt r i m.receiverId).log)

theorem Voted.mono {r : ClusterRun ms} {i j : ℕ} {v c : NodeId} {T : ℕ}
    {log : List (LogEntry Command)} (h : Voted r i v c T log) (hij : i ≤ j) :
    Voted r j v c T log := by
  obtain ⟨k, hk, rest⟩ := h
  exact ⟨k, hk.trans hij, rest⟩

theorem requestOk_step {i : ℕ} (hi : i < r.length)
    (ih : ∀ m ∈ (r.state i).net, RequestOk r i m) :
    ∀ m ∈ (r.state (i + 1)).net, RequestOk r (i + 1) m := by
  intro m hm c li lt hp
  rcases net_step r hi hm with hold | ⟨a, inp, out, h, hout, -⟩
  · obtain ⟨hle, hlog⟩ := ih m hold c li lt hp
    refine ⟨hle.trans (term_step r hi c), fun hc ht => ?_⟩
    obtain ⟨hc', ht', heq⟩ := candidate_back r hi hle hc ht
    obtain ⟨h1, h2⟩ := hlog hc' ht'
    simp only [lastLogIndex, lastLogTerm, heq] at h1 h2 ⊢
    exact ⟨h1, h2⟩
  · obtain ⟨hca, hterm, hli, hlt⟩ := h.out_requestVote hout hp
    obtain rfl : c = a := hca
    exact ⟨hterm.le, fun _ _ => ⟨hli, hlt⟩⟩

theorem grantOk_step {i : ℕ} (hi : i < r.length)
    (hreq : ∀ m ∈ (r.state i).net, RequestOk r i m)
    (ih : ∀ m ∈ (r.state i).net, GrantOk r i m) :
    ∀ m ∈ (r.state (i + 1)).net, GrantOk r (i + 1) m := by
  intro x hx v hp
  rcases net_step r hi hx with hold | ⟨a, inp, out, h, hout, hr⟩
  · obtain ⟨hle, hv⟩ := ih x hold v hp
    refine ⟨hle.trans (term_step r hi _), fun hc ht => ?_⟩
    obtain ⟨hc', ht', heq⟩ := candidate_back r hi hle hc ht
    rw [heq]
    exact (hv hc' ht').mono (Nat.le_succ i)
  · obtain ⟨hva, hterm, hvote, -, m, li, lt, hinp, hmp, hmt, hok⟩ := h.out_granted hout hp
    obtain rfl : v = a := hva
    -- the request that is answered was in flight
    obtain ⟨hle, hdesc⟩ := hreq m (hr m hinp).mem_net _ li lt hmp
    rw [hmt] at hle hdesc
    refine ⟨hle.trans (term_step r hi _), fun hc ht => ?_⟩
    obtain ⟨hc', ht', heq⟩ := candidate_back r hi hle hc ht
    obtain ⟨rfl, rfl⟩ := hdesc hc' ht'
    rw [heq]
    exact ⟨i + 1, Nat.le_refl _, hterm.symm, hvote, upToDate_of_voteLogOk hok⟩

/-- The requests and the granted votes in flight are faithful at all times. -/
theorem ballots_inFlight {i : ℕ} (hi : i ≤ r.length) :
    ∀ m ∈ (r.state i).net, RequestOk r i m ∧ GrantOk r i m := by
  refine r.induction (P := fun i => ∀ m ∈ (r.state i).net, RequestOk r i m ∧ GrantOk r i m)
    ?_ (fun i hi ih m hm => ?_) i hi
  · intro m hm
    rw [r.state_zero] at hm
    cases hm
  · have hreq := fun m hm => (ih m hm).1
    exact ⟨requestOk_step r hi hreq m hm, grantOk_step r hi hreq (fun m hm => (ih m hm).2) m hm⟩

/-- **The votes that a candidate has counted were given to it in its term.** -/
theorem votes_received {i : ℕ} (hi : i ≤ r.length) {c : NodeId}
    (hc : (nodeAt r i c).state = .candidate) : ∀ v ∈ (nodeAt r i c).votesReceived,
      Voted r i v c (nodeAt r i c).currentTerm (nodeAt r i c).log := by
  refine r.induction (P := fun i => (nodeAt r i c).state = .candidate →
    ∀ v ∈ (nodeAt r i c).votesReceived,
      Voted r i v c (nodeAt r i c).currentTerm (nodeAt r i c).log)
    ?_ (fun i hi ih hc v hv => ?_) i hi hc
  · intro hc
    rw [nodeAt, r.state_zero] at hc
    cases hc
  · obtain ⟨inp, out, h, hr⟩ := node_step r hi c
    obtain ⟨hlog, hcase⟩ := h.candidate hc
    rw [hlog]
    rcases hcase with ⟨hst, hte, hvotes⟩ | ⟨-, hvotes, hself⟩
    · rw [hte]
      rcases hvotes v hv with hold | ⟨m, hinp, hmp, hmt⟩
      · exact (ih hst v hold).mono (Nat.le_succ i)
      · have hg := ((ballots_inFlight r hi.le m (hr m hinp).mem_net).2 v hmp).2
        rw [(hr m hinp).1, hmt] at hg
        exact (hg hst rfl).mono (Nat.le_succ i)
    · -- a new candidate has only its own vote
      rw [hvotes] at hv
      obtain rfl : v = c := Finset.mem_singleton.mp hv
      exact ⟨i + 1, Nat.le_refl _, rfl, hself, by rw [hlog]; exact UpToDate.refl _ _⟩

/-- A candidate has not led in its term. -/
theorem candidate_fresh {i : ℕ} (hi : i ≤ r.length) {c : NodeId}
    (hc : (nodeAt r i c).state = .candidate) : ∀ j ≤ i, (nodeAt r j c).state = .leader →
      (nodeAt r j c).currentTerm < (nodeAt r i c).currentTerm := by
  refine r.induction (P := fun i => (nodeAt r i c).state = .candidate →
    ∀ j ≤ i, (nodeAt r j c).state = .leader →
      (nodeAt r j c).currentTerm < (nodeAt r i c).currentTerm)
    ?_ (fun i hi ih hc j hj hl => ?_) i hi hc
  · intro hc
    rw [nodeAt, r.state_zero] at hc
    cases hc
  · have hji : j ≤ i := by
      rcases Nat.lt_or_ge i j with hlt | hge
      · obtain rfl : j = i + 1 := by omega
        rw [hl] at hc
        cases hc
      · exact hge
    obtain ⟨inp, out, h, -⟩ := node_step r hi c
    rcases (h.candidate hc).2 with ⟨hst, hte, -⟩ | ⟨hte, -, -⟩
    · rw [hte]; exact ih hst j hji hl
    · rw [hte]; exact Nat.lt_succ_of_le (term_mono r hji hi.le c)

/-! ## Batches of entries -/

/-- A batch in flight was built by a leader at an earlier time of the run. -/
def BatchOk (i : ℕ) (m : Message NodeId Command) : Prop :=
  ∀ a pi pt es lc, m.payload = .appendEntries a pi pt es lc → ∃ j ≤ i, ∃ peer,
    (nodeAt r j a).state = .leader ∧ m = sendAppendEntries (ms.config a) (nodeAt r j a) peer

theorem batch_inFlight {i : ℕ} (hi : i ≤ r.length) : ∀ m ∈ (r.state i).net, BatchOk r i m := by
  refine r.induction (P := fun i => ∀ m ∈ (r.state i).net, BatchOk r i m)
    ?_ (fun i hi ih x hx a pi pt es lc hp => ?_) i hi
  · intro m hm
    rw [r.state_zero] at hm
    cases hm
  · rcases net_step r hi hx with hold | ⟨b, inp, out, h, hout, -⟩
    · obtain ⟨j, hj, rest⟩ := ih x hold a pi pt es lc hp
      exact ⟨j, hj.trans (Nat.le_succ i), rest⟩
    · obtain ⟨hl, peer, rfl⟩ := h.out_appendEntries hout hp
      cases hp
      exact ⟨i + 1, Nat.le_refl _, peer, hl, rfl⟩

end Raft
