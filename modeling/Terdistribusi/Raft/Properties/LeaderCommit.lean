import Terdistribusi.Raft.Properties.Applying
import Terdistribusi.Raft.Properties.Safety

/-!
# The leader's commit rule

`match_index[f]` is meant to say how far the log of `f` agrees with the log of the leader. It takes
over whatever a success reply says, also a reply to a batch of an earlier term. As long as no such
late reply raises it (`staleAck`), it is right (`MatchOk`), and what the leader commits is held by a
majority (`commit_quorum`).

`staleCommit` is a run in which a late reply makes a leader commit an entry that two of five nodes
hold.
-/

namespace Raft

open Infra RaftNode

section

variable {NodeId Command Result : Type} [DecidableEq NodeId]

/-- A success reply of an earlier term that raises `match_index` of its sender. -/
def staleAck (n : RaftNode NodeId Command Result) (m : Message NodeId Command) : Bool :=
  match m.payload with
  | .appendEntriesResponse true k f =>
    n.state = .leader && m.term < n.currentTerm && (n.matchIndex.get? f).getD (-1) < k
  | _ => false

variable {ms : Members NodeId Command Result} (r : ClusterRun ms)

/-! ## What a success reply says -/

/-- Up to time `i` node `v` had, while in term `T`, a log that starts with `p`. -/
def Held (i : ℕ) (v : NodeId) (T : ℕ) (p : List (LogEntry Command)) : Prop :=
  ∃ j ≤ i, (nodeAt r j v).currentTerm = T ∧ p <+: (nodeAt r j v).log

/-- The front part `p` of a log that the leader `a` of term `T` wrote and `v` held. -/
structure Acked (i : ℕ) (v a : NodeId) (T : ℕ) (p : List (LogEntry Command)) : Prop where
  held : Held r i v T p
  wrote : ∃ j ≤ i, (nodeAt r j a).state = .leader ∧ (nodeAt r j a).currentTerm = T ∧
    p <+: (nodeAt r j a).log

/-- A success reply in flight counts entries that its sender held and its receiver wrote, both in
the term of the message. -/
def AckOk (i : ℕ) (m : Message NodeId Command) : Prop :=
  ∀ k f, m.payload = .appendEntriesResponse true k f →
    ∃ p, p.length = (k + 1).toNat ∧ Acked r i f m.receiverId m.term p

variable {r}

theorem Held.mono {i j : ℕ} {v : NodeId} {T : ℕ} {p : List (LogEntry Command)}
    (h : Held r i v T p) (hij : i ≤ j) : Held r j v T p := by
  obtain ⟨k, hk, rest⟩ := h
  exact ⟨k, hk.trans hij, rest⟩

theorem Held.of_isPrefix {i : ℕ} {v : NodeId} {T : ℕ} {p q : List (LogEntry Command)}
    (h : Held r i v T q) (hpq : p <+: q) : Held r i v T p := by
  obtain ⟨k, hk, ht, hq⟩ := h
  exact ⟨k, hk, ht, hpq.trans hq⟩

theorem Acked.mono {i j : ℕ} {v a : NodeId} {T : ℕ} {p : List (LogEntry Command)}
    (h : Acked r i v a T p) (hij : i ≤ j) : Acked r j v a T p := by
  obtain ⟨k, hk, rest⟩ := h.wrote
  exact ⟨h.held.mono hij, k, hk.trans hij, rest⟩

variable [Fintype NodeId]

/-- An accepted batch leaves a log that starts with the part of the leader's log it came from. -/
theorem Accepted.isPrefix_log {i : ℕ} (hi : i < r.length) {v a : NodeId} {T : ℕ} {pi : ℤ}
    {es : List (LogEntry Command)} {lc : ℤ} {j : ℕ} {part : List (LogEntry Command)}
    (h : Accepted r i v a T pi es lc j part)
    (hlog : (nodeAt r (i + 1) v).log = insertEntries (nodeAt r i v).log (pi + 1).toNat es) :
    part <+: (nodeAt r (i + 1) v).log := by
  rw [hlog, insertEntries_eq_splice, h.entries]
  rcases (history r).adopt_cases (v := v) hi.le h.time h.isPart h.le_length h.prev with
    ⟨hp, hs⟩ | ⟨-, hs⟩
  · exact hs.symm ▸ hp
  · exact hs.symm ▸ List.prefix_rfl

variable (r)

/-- **The success replies in flight are true.** -/
theorem acks_inFlight {i : ℕ} (hi : i ≤ r.length) : ∀ m ∈ (r.state i).net, AckOk r i m := by
  refine r.induction (P := fun i => ∀ m ∈ (r.state i).net, AckOk r i m)
    ?_ (fun i hi ih x hx k f hp => ?_) i hi
  · intro m hm
    rw [r.state_zero] at hm
    cases hm
  · rcases net_step r hi hx with hold | ⟨v, inp, out, h, hout, hr⟩
    · obtain ⟨p, hlen, hack⟩ := ih x hold k f hp
      exact ⟨p, hlen, hack.mono (Nat.le_succ i)⟩
    · obtain ⟨hf, hterm, m, pi, pt, es, lc, hinp, hmp, hmt, hok, hlog, hk⟩ := h.out_success hout hp
      obtain rfl : f = v := hf
      obtain ⟨hpi, j, part, hacc⟩ := exists_accepted r hi.le (hr m hinp).mem_net hmp hok
      have hlen : part.length = (k + 1).toNat := by
        have hle := hacc.le_length
        have hes : es.length = part.length - (pi + 1).toNat := by
          rw [hacc.entries, List.length_drop]
        omega
      refine ⟨part, hlen, ⟨i + 1, Nat.le_refl _, hterm.symm, hacc.isPrefix_log hi hlog⟩, ?_⟩
      exact ⟨j, hacc.time.trans (Nat.le_succ i), hacc.leads, hacc.term.trans hmt, hacc.isPart⟩

/-! ## `match_index` -/

/-- `match_index` of the leader `a` is right: up to there its peers held what it has. -/
def MatchOk (i : ℕ) (a : NodeId) : Prop :=
  (nodeAt r i a).state = .leader → ∀ f k, f ∈ ms.peers a →
    (nodeAt r i a).matchIndex.get? f = some k → 0 ≤ k → ∃ p, p.length = (k + 1).toNat ∧
      Held r i f (nodeAt r i a).currentTerm p ∧ p <+: (nodeAt r i a).log

/-- The log of a leader that stays one in a step is kept. -/
theorem leader_log_step {i : ℕ} (hi : i < r.length) {a : NodeId}
    (hl : (nodeAt r i a).state = .leader) (hl' : (nodeAt r (i + 1) a).state = .leader)
    (ht : (nodeAt r (i + 1) a).currentTerm = (nodeAt r i a).currentTerm) :
    (nodeAt r i a).log <+: (nodeAt r (i + 1) a).log :=
  (history r).leader_log_mono (Nat.le_succ i) hi hl hl' ht.symm

theorem matchOk_step {i : ℕ} (hi : i < r.length)
    (hs : atDelivery staleAck (r.state i) (r.event i) = false) {a : NodeId}
    (ih : MatchOk r i a) : MatchOk r (i + 1) a := by
  intro hl' f k hf hk h0
  obtain ⟨inp, out, h, hr⟩ := node_step r hi a
  have ht : (nodeAt r (i + 1) a).currentTerm = (nodeAt r i a).currentTerm := by
    rcases h.leader hl' with ⟨-, ht⟩ | ⟨-, ht, -⟩ <;> exact ht
  -- what was right before the step is right after it
  have keep : (nodeAt r i a).state = .leader → ∀ x, (nodeAt r i a).matchIndex.get? f = some x →
      k ≤ x → ∃ p, p.length = (k + 1).toNat ∧
        Held r (i + 1) f (nodeAt r (i + 1) a).currentTerm p ∧ p <+: (nodeAt r (i + 1) a).log := by
    intro hl x hx hkx
    obtain ⟨p, hlen, hheld, hp⟩ := ih hl f x hf hx (by omega)
    have htake : p.take (k + 1).toNat <+: p := List.take_prefix _ p
    refine ⟨p.take (k + 1).toNat, by rw [List.length_take]; omega, ?_, ?_⟩
    · rw [ht]
      exact (hheld.mono (Nat.le_succ i)).of_isPrefix htake
    · exact htake.trans (hp.trans (leader_log_step r hi hl hl' ht))
  rcases h.matchIndex hl' with ⟨hl, heq⟩ | heq | ⟨m, k', f', hinp, hmp, hl, hmt, heq⟩
  · exact keep hl k (heq ▸ hk) (Int.le_refl k)
  · -- a new leader knows nothing yet
    rw [heq, Dict.get?_setAll, if_pos (show f ∈ (ms.config a).peers from hf)] at hk
    cases hk
    omega
  · rw [heq, Dict.get?_set] at hk
    split at hk
    · next hff =>
      obtain rfl := Option.some.inj hk
      subst hff
      have hnot := (hr m hinp).eq_false hs
      simp only [staleAck, hmp, hl, decide_true, Bool.true_and, Bool.and_eq_false_iff,
        decide_eq_false_iff_not, not_lt] at hnot
      rcases hnot with hle | hle
      · -- a reply of the leader's own term
        have hterm : m.term = (nodeAt r i a).currentTerm := Nat.le_antisymm hmt hle
        obtain ⟨p, hlen, hack⟩ := acks_inFlight r hi.le m (hr m hinp).mem_net k' f' hmp
        obtain ⟨j, hj, hlj, htj, hpj⟩ := hack.wrote
        rw [(hr m hinp).1] at hlj htj hpj
        refine ⟨p, hlen, ?_, hpj.trans ?_⟩
        · rw [ht, ← hterm]
          exact hack.held.mono (Nat.le_succ i)
        · exact (history r).leader_log_mono (show j ≤ i + 1 by omega) hi hlj hl' (by
            show (nodeAt r j a).currentTerm = (nodeAt r (i + 1) a).currentTerm
            omega)
      · -- a late reply that says no more than is known
        cases hx : (nodeAt r i a).matchIndex.get? f' with
        | none =>
          rw [hx, Option.getD_none] at hle
          omega
        | some x =>
          rw [hx, Option.getD_some] at hle
          exact keep hl x hx hle
    · exact keep hl k hk (Int.le_refl k)

theorem matchOk (hs : ∀ i < r.length, atDelivery staleAck (r.state i) (r.event i) = false)
    {i : ℕ} (hi : i ≤ r.length) (a : NodeId) : MatchOk r i a := by
  refine r.induction (P := fun i => MatchOk r i a) ?_
    (fun i hi ih => matchOk_step r hi (hs i hi) ih) i hi
  intro hl
  rw [nodeAt, r.state_zero] at hl
  cases hl

/-! ## The quorum -/

omit [Fintype NodeId] in
theorem canCommit_eq_true {cfg : Config NodeId Command Result} {n : RaftNode NodeId Command Result}
    {k : ℤ} (h : canCommit cfg n k = true) :
    0 ≤ k ∧ k < n.log.length ∧ termAt n.log k = n.currentTerm ∧ majority cfg ≤
      1 + (cfg.peers.filter fun peer => k ≤ (n.matchIndex.get? peer).getD (-1)).length := by
  unfold canCommit at h
  split at h
  · cases h
  · next hk =>
    split at h
    · cases h
    · next ht =>
      refine ⟨by omega, by omega, by omega, ?_⟩
      simpa using h

/-- A majority with `a` in it has, up to time `i` and while in the term of `a`, held the log of `a`
up to its `commit_index`. -/
def HeldByQuorum (i : ℕ) (a : NodeId) : Prop :=
  ∃ Q : Finset NodeId, IsMajority Q ∧ a ∈ Q ∧
    ∀ v ∈ Q, Held r i v (nodeAt r i a).currentTerm
      ((nodeAt r i a).log.take ((nodeAt r i a).commitIndex + 1).toNat)

/-- **A leader commits on a real quorum**: where no late reply raises `match_index`, a leader that
raises `commit_index` does so to a position in its log, and a majority has held all up to there. -/
theorem commit_quorum (hs : ∀ i < r.length, atDelivery staleAck (r.state i) (r.event i) = false)
    {i : ℕ} (hi : i < r.length) {a : NodeId} (hl : (nodeAt r i a).state = .leader)
    (hl' : (nodeAt r (i + 1) a).state = .leader)
    (hup : (nodeAt r i a).commitIndex < (nodeAt r (i + 1) a).commitIndex) :
    (nodeAt r (i + 1) a).commitIndex < (nodeAt r (i + 1) a).log.length ∧
      HeldByQuorum r (i + 1) a := by
  obtain ⟨inp, out, h, -⟩ := node_step r hi a
  obtain ⟨h0, hlt, -, hmaj⟩ := canCommit_eq_true (h.leader_commit hl' hup)
  unfold HeldByQuorum
  generalize (nodeAt r (i + 1) a).commitIndex = c at *
  refine ⟨hlt, insert a ((ms.peers a).filter fun peer =>
    c ≤ ((nodeAt r (i + 1) a).matchIndex.get? peer).getD (-1)).toFinset, ?_,
    Finset.mem_insert_self _ _, fun v hv => ?_⟩
  · have hself : a ∉ ((ms.peers a).filter fun peer =>
        c ≤ ((nodeAt r (i + 1) a).matchIndex.get? peer).getD (-1)).toFinset := by
      simp [ms.mem_peers]
    refine isMajority_of_majority_le ms a ?_
    rw [Finset.card_insert_of_notMem hself,
      List.toFinset_card_of_nodup ((ms.nodup_peers a).filter _), Nat.add_comm]
    exact hmaj
  · rcases Finset.mem_insert.mp hv with rfl | hv
    · refine ⟨i + 1, Nat.le_refl _, rfl, ?_⟩
      exact List.take_prefix _ _
    · obtain ⟨hv, hle⟩ := List.mem_filter.mp (List.mem_toFinset.mp hv)
      rw [decide_eq_true_eq] at hle
      cases hx : (nodeAt r (i + 1) a).matchIndex.get? v with
      | none => rw [hx, Option.getD_none] at hle; omega
      | some x =>
        rw [hx, Option.getD_some] at hle
        obtain ⟨p, hlen, hheld, hp⟩ := matchOk r hs hi a hl' v x hv hx (by omega)
        have htake := List.take_prefix (c + 1).toNat (nodeAt r (i + 1) a).log
        refine hheld.of_isPrefix (List.prefix_of_prefix_length_le htake hp ?_)
        rw [List.length_take]
        omega

end

theorem commit_quorum_replication : HeldByQuorum replication 6 0 :=
  (commit_quorum replication (i := 5) (a := 0) (by decide +kernel) (by decide) (by decide +kernel)
    (by decide +kernel) (by decide +kernel)).2

/-! ## A late reply -/

/-- Node 0 leads term 1 and copies two entries to node 1, whose reply stays in flight. Node 2 leads
term 2 and replaces both entries by one. Node 0 leads term 3, appends an entry at position 1, copies
it to node 2, and only then receives the reply of node 1 from term 1. -/
def staleCommitEvents : List (Event (Fin 5) ℕ) :=
  [.tick 0 true, .deliver 0, .deliver 1, .deliver 2, .deliver 2, .submit 0 10, .submit 0 11,
    .deliver 10,
    .tick 2 true, .tick 2 true, .deliver 20, .deliver 20, .deliver 20, .deliver 20, .submit 2 20,
    .deliver 24, .deliver 24, .deliver 24, .deliver 24,
    .tick 0 true, .deliver 28, .deliver 28, .deliver 30, .deliver 30, .submit 0 31, .deliver 35,
    .deliver 37, .deliver 13]

def staleCommit : ClusterRun (inProcessCluster 5 fun _ _ (c : ℕ) => some c) :=
  Run.ofEvents _ _ staleCommitEvents (.tick 0 false) (by decide +kernel)

/-- In the last step node 0 commits position 1, which only nodes 0 and 2 hold. -/
theorem staleCommit_not_heldByQuorum :
    (nodeAt staleCommit 27 0).state = .leader ∧ (nodeAt staleCommit 28 0).state = .leader ∧
      (nodeAt staleCommit 27 0).commitIndex < (nodeAt staleCommit 28 0).commitIndex ∧
      ¬ HeldByQuorum staleCommit 28 0 := by
  refine ⟨by decide +kernel, by decide +kernel, by decide +kernel, ?_⟩
  rintro ⟨Q, hQ, -, hv⟩
  have hnot : ∀ v : Fin 5, v ≠ 0 → v ≠ 2 → ∀ j < 29,
      ¬ (nodeAt staleCommit 28 0).log.take ((nodeAt staleCommit 28 0).commitIndex + 1).toNat <+:
        (nodeAt staleCommit j v).log := by
    decide +kernel
  have hsub : Q ⊆ {0, 2} := by
    intro v hvQ
    obtain ⟨j, hj, -, hp⟩ := hv v hvQ
    by_contra hne
    simp only [Finset.mem_insert, Finset.mem_singleton, not_or] at hne
    exact hnot v hne.1 hne.2 j (by omega) hp
  have hcard : Q.card ≤ 2 := Finset.card_le_card hsub
  unfold IsMajority at hQ
  rw [Fintype.card_fin] at hQ
  omega

end Raft
