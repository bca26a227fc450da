import Terdistribusi.Raft.Properties.InFlight

/-!
# A run of the cluster is a history of elected leaders

`history` turns a run into a `LogHistory`: the source's counting of votes gives the elections, its
append loop is the library's `splice`, and a batch that passes the check of `prev_log_index` is a
part of the log that the leader had when it sent the batch.

Everything in `Terdistribusi/Infra/LogHistory.lean` then holds of the cluster, for any order,
delay, duplication and loss of messages.
-/

namespace Raft

open Infra RaftNode

variable {NodeId Command Result : Type} [DecidableEq NodeId]

/-! ## Majorities -/

theorem length_peers [Fintype NodeId] (ms : Members NodeId Command Result) (a : NodeId) :
    (ms.peers a).length + 1 = Fintype.card NodeId := by
  have hpeers : (ms.peers a).toFinset = Finset.univ.erase a := by
    ext b
    simp [ms.mem_peers]
  have hpos : 0 < Fintype.card NodeId := Fintype.card_pos_iff.mpr ⟨a⟩
  rw [← List.toFinset_card_of_nodup (ms.nodup_peers a), hpeers,
    Finset.card_erase_of_mem (Finset.mem_univ a), Finset.card_univ]
  omega

/-- `(len(self.peers) + 1) // 2 + 1` members are more than half of the cluster. -/
theorem isMajority_of_majority_le [Fintype NodeId] (ms : Members NodeId Command Result)
    (a : NodeId) {Q : Finset NodeId} (h : majority (ms.config a) ≤ Q.card) : IsMajority Q := by
  have hlen := length_peers ms a
  simp only [majority, Members.config] at h
  unfold IsMajority
  omega

/-! ## The append loop -/

omit [DecidableEq NodeId] in
theorem insertEntry_eq_put (log : List (LogEntry Command)) (pos : ℕ) (e : LogEntry Command) :
    insertEntry log pos e = put LogEntry.term log pos e := by
  unfold insertEntry put
  cases log[pos]? <;> rfl

theorem insertEntries_eq_splice : ∀ (es log : List (LogEntry Command)) (pos : ℕ),
    insertEntries log pos es = splice LogEntry.term log pos es
  | [], _, _ => rfl
  | e :: es, log, pos => by
    rw [insertEntries, splice, insertEntry_eq_put]
    exact insertEntries_eq_splice es _ _

theorem termAt_of_getElem? {log : List (LogEntry Command)} {p : ℕ} {e : LogEntry Command}
    (h : log[p]? = some e) : termAt log p = e.term := by
  have hlt : p < log.length := (List.getElem?_eq_some_iff.mp h).1
  rw [termAt, if_pos (by omega), Int.toNat_natCast, h]
  rfl

theorem exists_getElem?_of_termAt_pos {log : List (LogEntry Command)} {i : ℤ}
    (h : 0 < termAt log i) : ∃ e, log[i.toNat]? = some e ∧ e.term = termAt log i := by
  unfold termAt at h ⊢
  split at h
  · next hi =>
    have hlt : i.toNat < log.length := by omega
    refine ⟨log[i.toNat], List.getElem?_eq_getElem hlt, ?_⟩
    rw [if_pos hi, List.getElem?_eq_getElem hlt]
    rfl
  · omega

/-- The position from which an accepted batch is written, and why it fits: the entries are those
of the leader's log from there on, and the entries before have one term. -/
theorem accepted_slice {l L : List (LogEntry Command)} {nx : ℤ} (hl : Indexed 0 l) (hnx : 0 ≤ nx)
    (hok : appendLogOk l (nx - 1) (termAt L (nx - 1)) = true) :
    nx.toNat ≤ (L.take (nx.toNat + 50)).length ∧
      batch L nx = (L.take (nx.toNat + 50)).drop nx.toNat ∧
      ∀ p, nx.toNat = p + 1 → ∃ e e', l[p]? = some e ∧ (L.take (nx.toNat + 50))[p]? = some e' ∧
        e.term = e'.term := by
  have hbatch : batch L nx = (L.take (nx.toNat + 50)).drop nx.toNat := by
    rw [List.drop_take, Nat.add_sub_cancel_left]
    unfold batch
    split
    · rfl
    · rw [List.drop_eq_nil_of_le (by omega), List.take_nil]
  simp only [appendLogOk, Bool.or_eq_true, Bool.and_eq_true, decide_eq_true_eq] at hok
  rcases hok with h0 | ⟨hlt, hterm⟩
  · have hnx0 : nx.toNat = 0 := by omega
    exact ⟨by omega, hbatch, fun p hp => by omega⟩
  · obtain ⟨e, he, het⟩ := Option.map_eq_some_iff.mp hterm
    -- the term that was compared is positive, so the leader's log reaches that far
    obtain ⟨e', he', het'⟩ := exists_getElem?_of_termAt_pos (i := nx - 1)
      (by rw [← het]; exact (hl _ e he).2)
    have hlen : (nx - 1).toNat < L.length := (List.getElem?_eq_some_iff.mp he').1
    refine ⟨by rw [List.length_take]; omega, hbatch, fun p hp => ?_⟩
    have hpn : (nx - 1).toNat = p := by omega
    rw [hpn] at he he'
    exact ⟨e, e', he, by rw [List.getElem?_take_of_lt (by omega)]; exact he', by omega⟩

/-! ## Accepted batches -/

variable {ms : Members NodeId Command Result} (r : ClusterRun ms)

/-- What a batch in flight is that a node accepts at time `i`: a part of the log that the leader of
its term had, together with the leader's `commit_index` at that time. -/
structure Accepted (i : ℕ) (v a : NodeId) (T : ℕ) (pi : ℤ) (es : List (LogEntry Command)) (lc : ℤ)
    (j : ℕ) (part : List (LogEntry Command)) : Prop where
  time : j ≤ i
  leads : (nodeAt r j a).state = .leader
  term : (nodeAt r j a).currentTerm = T
  commit : lc = (nodeAt r j a).commitIndex
  isPart : part <+: (nodeAt r j a).log
  le_length : (pi + 1).toNat ≤ part.length
  entries : es = part.drop (pi + 1).toNat
  prev : ∀ p, (pi + 1).toNat = p + 1 → ∃ e e', (nodeAt r i v).log[p]? = some e ∧
    part[p]? = some e' ∧ e.term = e'.term

theorem exists_accepted {i : ℕ} (hi : i ≤ r.length) {v : NodeId} {m : Message NodeId Command}
    (hm : m ∈ (r.state i).net) {a : NodeId} {pi : ℤ} {pt : ℕ} {es : List (LogEntry Command)}
    {lc : ℤ} (hp : m.payload = .appendEntries a pi pt es lc)
    (hok : appendLogOk (nodeAt r i v).log pi pt = true) :
    -1 ≤ pi ∧ ∃ j part, Accepted r i v a m.term pi es lc j part := by
  obtain ⟨j, hj, peer, hl, rfl⟩ := batch_inFlight r hi m hm a pi pt es lc hp
  have hnx : MessageOk (sendAppendEntries (ms.config a) (nodeAt r j a) peer) :=
    messageOk_sendAppendEntries ((wellFormed r j (hj.trans hi)).nodes a) peer
  replace hnx : -1 ≤ ((nodeAt r j a).nextIndex.get? peer).getD 0 - 1 := hnx.1
  have hlog := ((wellFormed r i hi).nodes v).log
  cases hp
  generalize hnxe : ((nodeAt r j a).nextIndex.get? peer).getD 0 = nx at *
  obtain ⟨hle, hb, hprev⟩ := accepted_slice hlog (by omega) hok
  refine ⟨hnx, j, (nodeAt r j a).log.take (nx.toNat + 50), ?_⟩
  have htake : (nodeAt r j a).log.take (nx.toNat + 50) <+: (nodeAt r j a).log :=
    List.take_prefix _ _
  refine ⟨hj, hl, rfl, rfl, htake, ?_, ?_, ?_⟩ <;>
    rw [show nx - 1 + 1 = nx by omega] <;> assumption

/-! ## The history -/

/-- The terms, votes, logs and leaders of a run. -/
def timeline : Timeline NodeId (LogEntry Command) where
  length := r.length
  term := fun i a => (nodeAt r i a).currentTerm
  vote := fun i a => (nodeAt r i a).votedFor
  log := fun i a => (nodeAt r i a).log
  leads := fun i a => (nodeAt r i a).state = .leader

theorem timeline_logStep {i : ℕ} (hi : i < r.length) (v : NodeId) :
    (timeline r).LogStep LogEntry.term i v := by
  obtain ⟨inp, out, h, hr⟩ := node_step r hi v
  rcases h.log with heq | ⟨c, hl, ht, heq⟩ | ⟨m, a, pi, pt, es, lc, hinp, hp, hst, ht, hok, heq⟩
  · exact .same heq
  · exact .append _ hl ht rfl heq
  · obtain ⟨-, j, part, hacc⟩ := exists_accepted r hi.le (hr m hinp).mem_net hp hok
    refine .adopt j a part (pi + 1).toNat ?_ hacc.time hacc.leads (hacc.term.trans ht.symm)
      hacc.isPart hacc.le_length hacc.prev ?_
    · intro hl
      rw [show (nodeAt r (i + 1) v).state = .leader from hl] at hst
      cases hst
    · rw [← hacc.entries]
      exact heq.trans (insertEntries_eq_splice es _ _)

theorem timeline_elected [Fintype NodeId] {i : ℕ} (hi : i < r.length) {a : NodeId}
    (hl : (nodeAt r (i + 1) a).state = .leader) :
    ((nodeAt r i a).state = .leader ∧
        (nodeAt r (i + 1) a).currentTerm = (nodeAt r i a).currentTerm) ∨
      (timeline r).ElectedAt LogEntry.term i a := by
  obtain ⟨inp, out, h, hr⟩ := node_step r hi a
  refine (h.leader hl).imp_right ?_
  rintro ⟨hc, ht, hlog, m, v, hinp, hp, hmt, hmaj⟩
  refine ⟨hlog, fun j hj hlj => ?_, insert v (nodeAt r i a).votesReceived,
    isMajority_of_majority_le ms a hmaj, fun w hw => ?_⟩
  · have := candidate_fresh r hi.le hc j hj hlj
    exact fun he => absurd (he.trans ht) (Nat.ne_of_lt this)
  · have hvoted : Voted r i w a (nodeAt r i a).currentTerm (nodeAt r i a).log := by
      rcases Finset.mem_insert.mp hw with rfl | hold
      · have hg := ((ballots_inFlight r hi.le m (hr m hinp).mem_net).2 w hp).2
        rw [(hr m hinp).1, hmt] at hg
        exact hg hc rfl
      · exact votes_received r hi.le hc w hold
    obtain ⟨j, hj, htj, hvj, hup⟩ := hvoted
    refine ⟨j, by omega, htj.trans ht.symm, hvj, ?_⟩
    rw [show (timeline r).log (i + 1) a = (nodeAt r i a).log from hlog]
    exact hup

/-- **A run of the cluster obeys the laws of a history of elected leaders.** -/
def history [Fintype NodeId] : LogHistory NodeId (@LogEntry.term Command) where
  toTimeline := timeline r
  log_zero := fun v => by
    show (nodeAt r 0 v).log = []
    rw [nodeAt, r.state_zero]; rfl
  leads_zero := fun v => by
    show (nodeAt r 0 v).state ≠ .leader
    rw [nodeAt, r.state_zero]; simp [Cluster.initial]
  term_step := fun _ hi v => Raft.term_step r hi v
  vote_step := fun i hi v c ht hc => by
    obtain ⟨inp, out, h, -⟩ := node_step r hi v
    exact h.ballot.2 ht c hc
  leads_step := fun _ hi _ hl => timeline_elected r hi hl
  log_step := fun _ hi v => timeline_logStep r hi v

end Raft
