import Terdistribusi.Raft.Properties.LeaderCommit

/-!
# State machine safety

No two nodes apply different entries at one index (`state_machine_safety`), as long as two branches
of the source are not taken:

* a late success reply that raises `match_index` (`staleAck`)
* a follower that commits entries behind the batch it was sent (`unverifiedCommit`): its rule is
  `min(leader_commit, last_log_index)`, and the end of its own log may lie behind what the batch
  was compared with

What carries the proof is `CommitOk`: everything up to `commit_index` is part of a log that a
majority held in the term of its last entry.
-/

namespace Raft

open Infra RaftNode

section

variable {NodeId Command Result : Type} [DecidableEq NodeId]

/-- An accepted batch after which the follower commits a position behind the batch. -/
def unverifiedCommit (n : RaftNode NodeId Command Result) (m : Message NodeId Command) : Bool :=
  match m.payload with
  | .appendEntries _ pi pt es lc =>
    n.currentTerm ≤ m.term && appendLogOk n.log pi pt &&
      firstConflict LogEntry.term n.log (pi + 1).toNat es = none &&
      max n.commitIndex (pi + es.length) < min lc n.lastLogIndex
  | _ => false

variable [Fintype NodeId] {ms : Members NodeId Command Result} (r : ClusterRun ms)

/-! ## Settled logs -/

/-- The log `c` is part of a log that was committed in a term up to `U`. -/
def Settled (U : ℕ) (c : List (LogEntry Command)) : Prop :=
  c = [] ∨ ∃ T ≤ U, ∃ p, (history r).Committed T p ∧ c <+: p

variable {r}

theorem Settled.mono {U V : ℕ} {c : List (LogEntry Command)} (h : Settled r U c) (hUV : U ≤ V) :
    Settled r V c :=
  h.imp_right fun ⟨T, hT, rest⟩ => ⟨T, hT.trans hUV, rest⟩

theorem Settled.of_isPrefix {U : ℕ} {c d : List (LogEntry Command)} (h : Settled r U d)
    (hcd : c <+: d) : Settled r U c := by
  rcases h with rfl | ⟨T, hT, p, hp, hd⟩
  · exact Or.inl (List.prefix_nil.mp hcd)
  · exact Or.inr ⟨T, hT, p, hp, hcd.trans hd⟩

/-- What is settled in the term of a node stays in the node's log. -/
theorem Settled.keep {i : ℕ} (hi : i < r.length) {v : NodeId} {c : List (LogEntry Command)}
    (h : Settled r (nodeAt r i v).currentTerm c) (hc : c <+: (nodeAt r i v).log) :
    c <+: (nodeAt r (i + 1) v).log := by
  rcases h with rfl | ⟨T, hT, p, hp, hcp⟩
  · exact List.nil_prefix
  · exact LogHistory.Committed.keep hp hcp (h := history r) hi hT hc

theorem Settled.exists_committed {U : ℕ} {l : List (LogEntry Command)} (h : Settled r U l) {k : ℕ}
    {e : LogEntry Command} (he : l[k]? = some e) :
    ∃ T p, (history r).Committed T p ∧ p[k]? = some e := by
  rcases h with rfl | ⟨T, -, p, hp, hcp⟩
  · simp at he
  · exact ⟨T, p, hp, getElem?_of_isPrefix hcp he⟩

/-! ## What is committed is settled -/

variable (r)

/-- The committed part of a log is settled, and every applied entry belongs to a committed log. -/
structure CommitOk (i : ℕ) (v : NodeId) : Prop where
  lt_length : (nodeAt r i v).commitIndex < (nodeAt r i v).log.length
  settled : Settled r (nodeAt r i v).currentTerm
    ((nodeAt r i v).log.take ((nodeAt r i v).commitIndex + 1).toNat)
  neg_one_le : -1 ≤ (nodeAt r i v).lastApplied
  applied : ∀ x ∈ (nodeAt r i v).applied,
    0 ≤ x.1 ∧ ∃ T p, (history r).Committed T p ∧ p[x.1.toNat]? = some x.2

variable {r}

/-- A leader that raises `commit_index` on a majority settles its log up to there. -/
theorem settled_of_heldByQuorum {i : ℕ} (hi : i ≤ r.length) {a : NodeId}
    (h : HeldByQuorum r i a)
    (hcan : canCommit (ms.config a) (nodeAt r i a) (nodeAt r i a).commitIndex = true) :
    Settled r (nodeAt r i a).currentTerm
      ((nodeAt r i a).log.take ((nodeAt r i a).commitIndex + 1).toNat) := by
  obtain ⟨h0, hlt, hterm, -⟩ := canCommit_eq_true hcan
  obtain ⟨Q, hQ, -, hv⟩ := h
  refine Or.inr ⟨_, Nat.le_refl _, _, ⟨?_, Q, hQ, fun v hvQ => ?_⟩, List.prefix_rfl⟩
  · obtain ⟨e, hget⟩ : ∃ e, (nodeAt r i a).log[(nodeAt r i a).commitIndex.toNat]? = some e :=
      ⟨_, List.getElem?_eq_getElem (by omega)⟩
    refine ⟨e, ?_, ?_⟩
    · rw [List.getLast?_eq_getElem?, List.length_take,
        Nat.min_eq_left (by omega : ((nodeAt r i a).commitIndex + 1).toNat ≤ _),
        List.getElem?_take_of_lt (by omega),
        show ((nodeAt r i a).commitIndex + 1).toNat - 1 = (nodeAt r i a).commitIndex.toNat by omega]
      exact hget
    · have hnat : (nodeAt r i a).commitIndex = ((nodeAt r i a).commitIndex.toNat : ℤ) := by omega
      rw [← hterm, hnat]
      exact (termAt_of_getElem? hget).symm
  · obtain ⟨j, hj, rest⟩ := hv v hvQ
    exact ⟨j, hj.trans hi, rest⟩

/-- What a follower commits after a batch is settled: it is inside the batch or was committed
before. -/
theorem settled_of_accepted {i : ℕ} (hi : i < r.length) {v a : NodeId} {T : ℕ} {pi : ℤ}
    {es : List (LogEntry Command)} {lc : ℤ} {j : ℕ} {part : List (LogEntry Command)}
    (hacc : Accepted r i v a T pi es lc j part) (hpi : -1 ≤ pi)
    (hlog : (nodeAt r (i + 1) v).log = insertEntries (nodeAt r i v).log (pi + 1).toNat es)
    (hT : (nodeAt r (i + 1) v).currentTerm = T) (hja : CommitOk r j a) (hiv : CommitOk r i v)
    {c : ℤ} (hc : c = min lc (nodeAt r (i + 1) v).lastLogIndex)
    (hno : firstConflict LogEntry.term (nodeAt r i v).log (pi + 1).toNat es = none →
      min lc (nodeAt r i v).lastLogIndex ≤ max (nodeAt r i v).commitIndex (pi + es.length)) :
    Settled r (nodeAt r (i + 1) v).currentTerm
      ((nodeAt r (i + 1) v).log.take (c + 1).toNat) := by
  have hpart : part <+: (nodeAt r (i + 1) v).log := hacc.isPrefix_log hi hlog
  have hlen : part.length = (pi + 1).toNat + es.length := by
    have hle := hacc.le_length
    rw [hacc.entries, List.length_drop]
    omega
  -- inside the batch the log is the leader's, up to where the leader had committed
  have hbatch : c < part.length → Settled r (nodeAt r (i + 1) v).currentTerm
      ((nodeAt r (i + 1) v).log.take (c + 1).toNat) := by
    intro hlt
    have hle : (c + 1).toNat ≤ part.length := by omega
    have htake : (nodeAt r (i + 1) v).log.take (c + 1).toNat <+:
        (nodeAt r j a).log.take ((nodeAt r j a).commitIndex + 1).toNat := by
      rw [List.prefix_take_iff]
      have htake := List.take_prefix (c + 1).toNat (nodeAt r (i + 1) v).log
      refine ⟨(List.prefix_of_prefix_length_le htake hpart ?_).trans hacc.isPart, ?_⟩
      · rw [List.length_take]
        omega
      · have hlc := hacc.commit
        rw [List.length_take]
        omega
    refine (hja.settled.of_isPrefix htake).mono ?_
    rw [hacc.term, hT]
  rcases (history r).adopt_cases (v := v) hi.le hacc.time hacc.isPart hacc.le_length hacc.prev with
    ⟨hp, hs⟩ | ⟨-, hs⟩
  · -- the log already has the batch, so nothing in it conflicts
    rw [← hacc.entries, ← insertEntries_eq_splice] at hs
    have hsame : (nodeAt r (i + 1) v).log = (nodeAt r i v).log := hlog.trans hs
    have hbound := hno (firstConflict_eq_none es _ fun q e he => by
      rw [hacc.entries, List.getElem?_drop] at he
      exact getElem?_of_isPrefix hp he)
    unfold lastLogIndex at hc hbound
    rw [hsame] at hc
    rcases le_max_iff.mp hbound with hold | hin
    · -- nothing new is committed
      refine (hiv.settled.mono (term_step r hi v)).of_isPrefix ?_
      rw [hsame]
      exact List.take_prefix_take_left (by omega)
    · exact hbatch (by omega)
  · -- the log has become exactly the leader's part
    rw [← hacc.entries, ← insertEntries_eq_splice] at hs
    have hsame : (nodeAt r (i + 1) v).log = part := hlog.trans hs
    unfold lastLogIndex at hc
    rw [hsame] at hc
    exact hbatch (by omega)

theorem commitOk_step {i : ℕ} (hi : i < r.length)
    (hs : ∀ i < r.length, atDelivery staleAck (r.state i) (r.event i) = false)
    (hu : atDelivery unverifiedCommit (r.state i) (r.event i) = false)
    (ih : ∀ j ≤ i, ∀ a, CommitOk r j a) (v : NodeId) : CommitOk r (i + 1) v := by
  have hiv := ih i (Nat.le_refl i) v
  obtain ⟨inp, out, h, hr⟩ := node_step r hi v
  rcases h.commit with hsame | hc
  · -- the committed part of the log is kept
    have hcommitted := List.take_prefix ((nodeAt r i v).commitIndex + 1).toNat (nodeAt r i v).log
    have hkeep := hiv.settled.keep hi hcommitted
    have hlt := hiv.lt_length
    have hlen : (((nodeAt r i v).log.take ((nodeAt r i v).commitIndex + 1).toNat)).length =
        ((nodeAt r i v).commitIndex + 1).toNat := by
      rw [List.length_take]
      omega
    have htake := List.prefix_iff_eq_take.mp hkeep
    rw [hlen] at htake
    refine ⟨?_, ?_, ?_, ?_⟩
    · have := hkeep.length_le
      rw [hsame.commitIndex]
      omega
    · rw [hsame.commitIndex, ← htake]
      exact hiv.settled.mono (term_step r hi v)
    · rw [hsame.lastApplied]
      exact hiv.neg_one_le
    · rw [hsame.applied]
      exact hiv.applied
  · obtain ⟨hlast, happ⟩ := hc.applied
    obtain ⟨hlt, hset⟩ : (nodeAt r (i + 1) v).commitIndex < (nodeAt r (i + 1) v).log.length ∧
        Settled r (nodeAt r (i + 1) v).currentTerm
          ((nodeAt r (i + 1) v).log.take ((nodeAt r (i + 1) v).commitIndex + 1).toNat) := by
      rcases hc.rule with ⟨hl, hl', hup, hcan⟩ |
        ⟨m, a, pi, pt, es, lc, hinp, hmp, -, hmt, ht, hok, hlog, hci⟩
      · -- a leader has counted a quorum that holds the entry
        obtain ⟨hlt, hq⟩ := commit_quorum r hs hi hl hl' hup
        exact ⟨hlt, settled_of_heldByQuorum hi hq hcan⟩
      · -- a follower commits what its leader had committed when it sent the batch
        obtain ⟨hpi, j, part, hacc⟩ := exists_accepted r hi.le (hr m hinp).mem_net hmp hok
        refine ⟨?_, settled_of_accepted hi hacc hpi hlog ht (ih j hacc.time a) hiv hci ?_⟩
        · unfold lastLogIndex at hci
          omega
        · intro hnone
          have hnot := (hr m hinp).eq_false hu
          simpa only [unverifiedCommit, hmp, hmt, hok, hnone, decide_true, Bool.true_and,
            decide_eq_false_iff_not, not_lt] using hnot
    refine ⟨hlt, hset, hiv.neg_one_le.trans hlast, fun x hx => ?_⟩
    rcases happ x hx with hold | ⟨h1, h2, h3⟩
    · exact hiv.applied x hold
    · have hneg := hiv.neg_one_le
      have hlt' : x.1.toNat < ((nodeAt r (i + 1) v).commitIndex + 1).toNat := by omega
      exact ⟨by omega, hset.exists_committed (by rw [List.getElem?_take_of_lt hlt']; exact h3)⟩

theorem commitOk (hs : ∀ i < r.length, atDelivery staleAck (r.state i) (r.event i) = false)
    (hu : ∀ i < r.length, atDelivery unverifiedCommit (r.state i) (r.event i) = false)
    {i : ℕ} (hi : i ≤ r.length) (v : NodeId) : CommitOk r i v := by
  refine r.induction (P := fun i => ∀ j ≤ i, ∀ a, CommitOk r j a) ?_
    (fun i hi ih j hj a => ?_) i hi i (Nat.le_refl i) v
  · intro j hj a
    obtain rfl : j = 0 := by omega
    have h0 : nodeAt r 0 a = {} := by rw [nodeAt, r.state_zero]; rfl
    exact ⟨by simp [h0], by rw [h0]; exact Or.inl rfl, by rw [h0], by simp [h0]⟩
  · rcases Nat.lt_or_ge i j with hij | hij
    · obtain rfl : j = i + 1 := by omega
      exact commitOk_step hi hs (hu i hi) ih a
    · exact ih j hij a

/-! ## Applied entries -/

/-- **State machine safety**: where neither of the two branches is taken, whatever two nodes apply
at one index, at any two times of a run, is the same entry. -/
theorem state_machine_safety (r : ClusterRun ms)
    (hs : ∀ i < r.length, atDelivery staleAck (r.state i) (r.event i) = false)
    (hu : ∀ i < r.length, atDelivery unverifiedCommit (r.state i) (r.event i) = false)
    {i j : ℕ} (hi : i ≤ r.length) (hj : j ≤ r.length) {a b : NodeId} {k : ℤ}
    {e f : LogEntry Command} (he : (k, e) ∈ (nodeAt r i a).applied)
    (hf : (k, f) ∈ (nodeAt r j b).applied) : e = f := by
  obtain ⟨-, T, p, hp, hpe⟩ := (commitOk hs hu hi a).applied (k, e) he
  obtain ⟨-, U, q, hq, hqf⟩ := (commitOk hs hu hj b).applied (k, f) hf
  rcases LogHistory.committed_comparable hp hq with hpq | hqp
  · exact Option.some.inj ((getElem?_of_isPrefix hpq hpe).symm.trans hqf)
  · exact Option.some.inj (hpe.symm.trans (getElem?_of_isPrefix hqp hqf))

end

theorem state_machine_safety_replication : (0, ⟨1, 0, 7⟩) ∈ (nodeAt replication 6 0).applied ∧
    (0, ⟨1, 0, 7⟩) ∈ (nodeAt replication 8 1).applied ∧
    (⟨1, 0, 7⟩ : LogEntry ℕ) = ⟨1, 0, 7⟩ :=
  ⟨by decide +kernel, by decide +kernel, state_machine_safety replication (i := 6) (j := 8)
    (a := 0) (b := 1) (k := 0) (by decide +kernel) (by decide +kernel) (by decide) (by decide)
    (by decide +kernel) (by decide +kernel)⟩

/-! ## Two nodes that apply different commands -/

/-- After `staleCommitEvents` node 1, whose log ends in term 1, is elected in term 4 by the three
nodes without the entry that node 0 has committed, and commits another one in its place. -/
def divergenceEvents : List (Event (Fin 5) ℕ) :=
  staleCommitEvents ++ [.tick 1 true, .deliver 38, .deliver 38, .deliver 38, .deliver 38,
    .submit 1 41, .deliver 44, .deliver 44, .deliver 44, .deliver 44]

def divergence : ClusterRun (inProcessCluster 5 fun _ _ (c : ℕ) => some c) :=
  Run.ofEvents _ _ divergenceEvents (.tick 0 false) (by decide +kernel)

theorem divergence_applies_two : (1, ⟨3, 1, 31⟩) ∈ (nodeAt divergence 38 0).applied ∧
    (1, ⟨4, 1, 41⟩) ∈ (nodeAt divergence 38 1).applied ∧ (31 : ℕ) ≠ 41 := by
  decide +kernel

/-- Node 2 leads term 1 with an empty log, and the reply of node 1 stays in flight. Node 0 leads
term 2 and copies 50 entries to all. Node 1 leads term 3 and appends an entry that nobody else gets;
in term 4 node 0 commits another one in its place, which node 2 copies. Node 2 leads term 5, and the
reply of term 1 takes its `next_index` for node 1 back to 0, so that the next batch ends right
before the two entries. -/
def overrunEvents : List (Event (Fin 3) ℕ) :=
  [.tick 2 true, .deliver 0, .deliver 1, .deliver 2, .tick 0 true, .deliver 4, .deliver 4] ++
    (List.range 50).map (Event.submit 0) ++
    [.deliver 104, .deliver 104, .tick 1 true, .deliver 106, .deliver 107, .submit 1 100,
      .tick 0 true, .deliver 112, .deliver 112, .submit 0 200, .deliver 115, .deliver 115,
      .tick 0 false, .deliver 116, .tick 2 true, .deliver 117, .deliver 118, .deliver 2,
      .tick 2 false, .deliver 120]

def overrun : ClusterRun (inProcessCluster 3 fun _ _ (c : ℕ) => some c) :=
  Run.ofEvents _ _ overrunEvents (.tick 0 false) (by decide +kernel)

-- The late reply raises nothing, but node 1 commits its own entry behind the batch.
example : (∀ i < overrun.length,
      atDelivery staleAck (overrun.state i) (overrun.event i) = false) ∧
    (50, ⟨4, 50, 200⟩) ∈ (nodeAt overrun 77 0).applied ∧
    (50, ⟨3, 50, 100⟩) ∈ (nodeAt overrun 77 1).applied := by
  decide +kernel

end Raft
