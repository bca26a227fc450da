import Terdistribusi.Raft.Properties.History

/-!
# A follower catches up

One leader and one follower that take turns: `_send_append_entries`, the follower's handler, and the
leader's handler for the reply.

A batch is accepted exactly when the follower's log starts with what the leader has before
`next_index` (`appendLogOk_iff`). Until then `next_index` walks back by one, from then on the
verified part grows by 50 entries a round, and once it is the whole log nothing changes any more
(`catch_up_converges`).

What the follower commits on the way is right inside the verified part only
(`follower_commit_agreement`).
-/

namespace Raft

open Infra RaftNode

variable {NodeId Command Result : Type}

/-! ## The batches of a log that matches -/

/-- A batch before which `k` entries are left out is accepted exactly when the follower starts with
these entries. -/
theorem appendLogOk_iff {L F : List (LogEntry Command)} (h : Matching LogEntry.term L F) {k : ℕ}
    (hk : k ≤ L.length) :
    appendLogOk F ((k : ℤ) - 1) (termAt L ((k : ℤ) - 1)) = true ↔ L.take k <+: F := by
  cases k with
  | zero => simp [appendLogOk]
  | succ k =>
    have hprev : ((k + 1 : ℕ) : ℤ) - 1 = (k : ℤ) := by omega
    have hL : L[k]? = some L[k] := List.getElem?_eq_getElem hk
    rw [hprev, termAt_of_getElem? hL]
    unfold appendLogOk
    constructor
    · intro hok
      have hF : (F[k]?).map LogEntry.term = some L[k].term := by
        simp only [Bool.or_eq_true, decide_eq_true_eq, Bool.and_eq_true, Int.toNat_natCast] at hok
        rcases hok with hneg | ⟨-, hterm⟩
        · omega
        · exact hterm
      obtain ⟨b, hb, hterm⟩ := Option.map_eq_some_iff.mp hF
      rw [h k L[k] b hL hb hterm.symm]
      exact List.take_prefix _ _
    · intro hp
      have hF : F[k]? = some L[k] := by
        refine getElem?_of_isPrefix hp ?_
        rw [List.getElem?_take_of_lt (by omega), hL]
      have hlt : k < F.length := (List.getElem?_eq_some_iff.mp hF).1
      simp only [Int.toNat_natCast, hF, Option.map_some]
      simp [hlt]

theorem batch_eq (L : List (LogEntry Command)) (k : ℕ) :
    batch L (k : ℤ) = (L.take (k + 50)).drop k := by
  unfold batch
  split
  · rw [Int.toNat_natCast, List.drop_take, Nat.add_sub_cancel_left]
  · next h =>
    rw [List.drop_eq_nil_of_le]
    rw [List.length_take]
    omega

theorem length_batch {L : List (LogEntry Command)} {k : ℕ} (hk : k ≤ L.length) :
    ((k : ℤ) - 1) + (batch L (k : ℤ)).length = ((min (k + 50) L.length : ℕ) : ℤ) - 1 := by
  rw [batch_eq, List.length_drop, List.length_take]
  omega

/-- **The log after an accepted batch**: what it was if it goes on behind the batch, and otherwise
the leader's log up to the end of the batch. -/
theorem insertEntries_batch {L F : List (LogEntry Command)} (h : Matching LogEntry.term L F) {k : ℕ}
    (hk : k ≤ L.length) (hp : L.take k <+: F) :
    (L.take (k + 50) <+: F ∧ insertEntries F k (batch L k) = F) ∨
      (¬ L.take (k + 50) <+: F ∧ insertEntries F k (batch L k) = L.take (k + 50)) := by
  have hlen : (L.take (k + 50)).length = min (k + 50) L.length := List.length_take
  have htake : F.take k = (L.take (k + 50)).take k := by
    have hF := List.prefix_iff_eq_take.mp hp
    rw [List.length_take, min_eq_left hk] at hF
    rw [List.take_take, min_eq_left (by omega), hF]
  rw [insertEntries_eq_splice, batch_eq]
  exact splice_eq (h.take (k + 50)) _ k rfl (by omega) htake

theorem log_acceptEntries (cfg : Config NodeId Command Result) (term : ℕ) (a : NodeId) (k : ℕ)
    (es : List (LogEntry Command)) (lc : ℤ) (n : RaftNode NodeId Command Result) :
    (acceptEntries cfg term a ((k : ℤ) - 1) es lc n).log = insertEntries n.log k es := by
  have hk : ((k : ℤ) - 1 + 1).toNat = k := by omega
  rw [acceptEntries, followCommit_log, hk]

/-! ## One exchange -/

variable [DecidableEq NodeId]

/-- A leader and one of its followers. -/
structure Pair (NodeId Command Result : Type) where
  leader : RaftNode NodeId Command Result
  follower : RaftNode NodeId Command Result

/-- The leader sends, the follower handles the message, and the leader the replies. -/
def exchange (lc fc : Config NodeId Command Result) (s : Pair NodeId Command Result) :
    Pair NodeId Command Result :=
  let r := s.follower.dispatch fc (sendAppendEntries lc s.leader fc.nodeId)
  { leader := r.2.foldl (fun n m => (n.dispatch lc m).1) s.leader
    follower := r.1 }

/-- The sender has the log `L` and `next_index` `k`, and the follower's log matches. -/
structure Aligned (fc : Config NodeId Command Result) (L : List (LogEntry Command)) (k : ℕ)
    (s : Pair NodeId Command Result) : Prop where
  log : s.leader.log = L
  next : (s.leader.nextIndex.get? fc.nodeId).getD 0 = k
  le_length : k ≤ L.length
  matching : Matching LogEntry.term L s.follower.log
  term : s.follower.currentTerm ≤ s.leader.currentTerm

/-- The sender leads, too, and so takes the replies in. -/
structure Replicating (fc : Config NodeId Command Result) (L : List (LogEntry Command)) (k : ℕ)
    (s : Pair NodeId Command Result) : Prop extends Aligned fc L k s where
  leads : s.leader.state = .leader

namespace Aligned

variable {lc fc : Config NodeId Command Result} {L : List (LogEntry Command)} {k : ℕ}
  {s : Pair NodeId Command Result}

/-- The follower turns the batch down. -/
theorem dispatch_reject (h : Aligned fc L k s) (hno : ¬ L.take k <+: s.follower.log) :
    s.follower.dispatch fc (sendAppendEntries lc s.leader fc.nodeId) =
      (s.follower.followLeader s.leader.currentTerm lc.nodeId,
        [appendResponse fc (s.follower.followLeader s.leader.currentTerm lc.nodeId) lc.nodeId
          false (-1)]) := by
  have hok := mt (appendLogOk_iff h.matching h.le_length).mp hno
  unfold dispatch sendAppendEntries handleAppendEntries
  rw [h.next, h.log]
  simp only [followLeader_log]
  rw [if_neg (Nat.not_lt.mpr h.term), if_neg hok]

/-- The follower takes the batch over. -/
theorem dispatch_accept (h : Aligned fc L k s) (hp : L.take k <+: s.follower.log) :
    s.follower.dispatch fc (sendAppendEntries lc s.leader fc.nodeId) =
      (acceptEntries fc s.leader.currentTerm lc.nodeId ((k : ℤ) - 1) (batch L k)
          s.leader.commitIndex s.follower,
        [appendResponse fc (acceptEntries fc s.leader.currentTerm lc.nodeId ((k : ℤ) - 1)
          (batch L k) s.leader.commitIndex s.follower) lc.nodeId true
          (((min (k + 50) L.length : ℕ) : ℤ) - 1)]) := by
  have hok := (appendLogOk_iff h.matching h.le_length).mpr hp
  unfold dispatch sendAppendEntries handleAppendEntries
  rw [h.next, h.log]
  simp only [followLeader_log]
  rw [if_neg (Nat.not_lt.mpr h.term), if_pos hok, length_batch h.le_length]
  rfl

theorem currentTerm_accept (h : Aligned fc L k s) {lc : ℤ} {a : NodeId} :
    (acceptEntries fc s.leader.currentTerm a ((k : ℤ) - 1) (batch L k) lc
      s.follower).currentTerm = s.leader.currentTerm := by
  rw [acceptEntries, followCommit_currentTerm]
  exact (followLeader_currentTerm _ _ a).trans (max_eq_left h.term)

end Aligned

namespace Replicating

variable {fc : Config NodeId Command Result} {L : List (LogEntry Command)} {k : ℕ}
  {s : Pair NodeId Command Result} (lc : Config NodeId Command Result)

/-- A refused batch takes `next_index` back by one. -/
theorem reject (h : Replicating fc L k s) (hno : ¬ L.take k <+: s.follower.log) :
    ∃ k', k = k' + 1 ∧ Replicating fc L k' (exchange lc fc s) := by
  obtain ⟨k', rfl⟩ : ∃ k', k = k' + 1 := by
    cases k with
    | zero => exact absurd (List.nil_prefix) hno
    | succ k' => exact ⟨k', rfl⟩
  have hterm : (s.follower.followLeader s.leader.currentTerm lc.nodeId).currentTerm =
      s.leader.currentTerm :=
    (followLeader_currentTerm _ _ _).trans (max_eq_left h.term)
  have hleader : (exchange lc fc s).leader =
      { s.leader with nextIndex := s.leader.nextIndex.set fc.nodeId (k' : ℤ) } := by
    have hback : max 0 ((s.leader.nextIndex.get? fc.nodeId).getD 0 - 1) = (k' : ℤ) := by
      rw [h.next]
      omega
    unfold exchange
    rw [h.dispatch_reject hno, ← hback]
    simp [dispatch, appendResponse, handleAppendResponse, h.leads, hterm]
  have hfollower : (exchange lc fc s).follower =
      s.follower.followLeader s.leader.currentTerm lc.nodeId := by
    unfold exchange
    rw [h.dispatch_reject hno]
  refine ⟨k', rfl, ⟨⟨?_, ?_, ?_, ?_, ?_⟩, ?_⟩⟩
  · rw [hleader]
    exact h.log
  · rw [hleader]
    simp
  · exact Nat.le_of_succ_le h.le_length
  · rw [hfollower, followLeader_log]
    exact h.matching
  · rw [hleader, hfollower, hterm]
  · rw [hleader]
    exact h.leads

/-- An accepted batch takes the verified part on by 50 entries, or to the end of the log. -/
theorem accept (h : Replicating fc L k s) (hp : L.take k <+: s.follower.log) :
    Replicating fc L (min (k + 50) L.length) (exchange lc fc s) ∧
      L.take (min (k + 50) L.length) <+: (exchange lc fc s).follower.log ∧
      (exchange lc fc s).leader.matchIndex.get? fc.nodeId =
        some (((min (k + 50) L.length : ℕ) : ℤ) - 1) := by
  have hleader : (exchange lc fc s).leader = updateCommitIndex lc
      { s.leader with
        matchIndex := s.leader.matchIndex.set fc.nodeId (((min (k + 50) L.length : ℕ) : ℤ) - 1)
        nextIndex := s.leader.nextIndex.set fc.nodeId
          (((min (k + 50) L.length : ℕ) : ℤ) - 1 + 1) } := by
    unfold exchange
    rw [h.dispatch_accept hp]
    simp [dispatch, appendResponse, handleAppendResponse, h.leads, h.currentTerm_accept]
  have hlog : (exchange lc fc s).follower.log = insertEntries s.follower.log k (batch L k) := by
    unfold exchange
    rw [h.dispatch_accept hp]
    exact log_acceptEntries _ _ _ _ _ _ _
  have hterm : (exchange lc fc s).follower.currentTerm = s.leader.currentTerm := by
    unfold exchange
    rw [h.dispatch_accept hp]
    exact h.currentTerm_accept
  have htake : L.take (min (k + 50) L.length) = L.take (k + 50) := by
    rw [← List.take_take, List.take_length]
  refine ⟨⟨⟨?_, ?_, ?_, ?_, ?_⟩, ?_⟩, ?_, ?_⟩
  · rw [hleader, updateCommitIndex_log]
    exact h.log
  · rw [hleader, updateCommitIndex_nextIndex]
    simp
  · exact min_le_right _ _
  · rw [hlog]
    -- the follower keeps its log, or has the leader's up to the end of the batch
    rcases insertEntries_batch h.matching h.le_length hp with ⟨-, hs⟩ | ⟨-, hs⟩
    · rw [hs]
      exact h.matching
    · rw [hs]
      exact matching_take L (k + 50)
  · rw [hterm, hleader, updateCommitIndex_currentTerm]
  · rw [hleader, updateCommitIndex_state]
    exact h.leads
  · rw [hlog, htake]
    rcases insertEntries_batch h.matching h.le_length hp with ⟨hb, hs⟩ | ⟨-, hs⟩
    · rw [hs]
      exact hb
    · rw [hs]
  · rw [hleader, updateCommitIndex_matchIndex]
    simp

/-! ## Walking back and going forward -/

/-- At most `k` rounds take `next_index` back to a place where the logs agree. -/
theorem walkBack : ∀ {k : ℕ} {s : Pair NodeId Command Result}, Replicating fc L k s →
    ∃ r ≤ k, ∃ k', Replicating fc L k' ((exchange lc fc)^[r] s) ∧
      L.take k' <+: ((exchange lc fc)^[r] s).follower.log := by
  intro k
  induction k with
  | zero => exact fun h => ⟨0, Nat.le_refl 0, 0, h, List.nil_prefix⟩
  | succ k ih =>
    intro s h
    by_cases hp : L.take (k + 1) <+: s.follower.log
    · exact ⟨0, Nat.zero_le _, k + 1, h, hp⟩
    · obtain ⟨k₁, hk₁, h₁⟩ := h.reject lc hp
      obtain rfl : k = k₁ := Nat.succ.inj hk₁
      obtain ⟨r, hr, k', h', hp'⟩ := ih h₁
      exact ⟨r + 1, Nat.succ_le_succ hr, k', h', hp'⟩

/-- From there on every round verifies 50 entries more. -/
theorem forward (h : Replicating fc L k s) (hp : L.take k <+: s.follower.log) : ∀ n,
    Replicating fc L (min (k + 50 * n) L.length) ((exchange lc fc)^[n] s) ∧
      L.take (min (k + 50 * n) L.length) <+: ((exchange lc fc)^[n] s).follower.log ∧
      (n ≠ 0 → ((exchange lc fc)^[n] s).leader.matchIndex.get? fc.nodeId =
        some (((min (k + 50 * n) L.length : ℕ) : ℤ) - 1)) := by
  intro n
  induction n with
  | zero =>
    rw [Nat.mul_zero, Nat.add_zero, Nat.min_eq_left h.le_length]
    exact ⟨h, hp, fun hne => absurd rfl hne⟩
  | succ n ih =>
    obtain ⟨hn, hpn, -⟩ := ih
    have hnext : min (min (k + 50 * n) L.length + 50) L.length =
        min (k + 50 * (n + 1)) L.length := by
      omega
    obtain ⟨h', hp', hm'⟩ := hn.accept lc hpn
    rw [hnext] at h' hp' hm'
    rw [Function.iterate_succ_apply']
    exact ⟨h', hp', fun _ => hm'⟩

end Replicating

/-! ## Catching up -/

/-- **Catch-up converges**: after at most `next_index + len(log) / 50 + 2` exchanges the follower
has the whole log of the leader and the leader knows it, and so it stays. -/
theorem catch_up_converges (lc fc : Config NodeId Command Result) (s : Pair NodeId Command Result)
    (hleader : s.leader.state = .leader) {k : ℕ}
    (hnext : (s.leader.nextIndex.get? fc.nodeId).getD 0 = k) (hk : k ≤ s.leader.log.length)
    (hmatch : Matching LogEntry.term s.leader.log s.follower.log)
    (hterm : s.follower.currentTerm ≤ s.leader.currentTerm) :
    ∃ r₀ ≤ k + s.leader.log.length / 50 + 2, ∀ r ≥ r₀,
      ((exchange lc fc)^[r] s).leader.log = s.leader.log ∧
        ((exchange lc fc)^[r] s).leader.matchIndex.get? fc.nodeId =
          some ((s.leader.log.length : ℤ) - 1) ∧
        s.leader.log <+: ((exchange lc fc)^[r] s).follower.log := by
  have h : Replicating fc s.leader.log k s := ⟨⟨rfl, hnext, hk, hmatch, hterm⟩, hleader⟩
  obtain ⟨b, hb, k', hback, hp⟩ := h.walkBack lc
  refine ⟨b + (s.leader.log.length / 50 + 1), by omega, fun r hr => ?_⟩
  obtain ⟨n, rfl⟩ : ∃ n, r = n + b := ⟨r - b, by omega⟩
  have hdone : min (k' + 50 * n) s.leader.log.length = s.leader.log.length := by omega
  obtain ⟨hn, hpn, hmn⟩ := hback.forward lc hp n
  rw [hdone] at hpn hmn
  rw [List.take_length] at hpn
  rw [Function.iterate_add_apply]
  exact ⟨hn.log, hmn (by omega), hpn⟩

/-- The leader has 57 entries of term 3 behind three that the follower has as well. The follower has
two of term 2 there. -/
def lagging (next : ℤ) : Pair (Fin 3) ℕ ℕ where
  leader := { currentTerm := 3, state := .leader, commitIndex := 40,
              log := (List.range 3).map (fun i => ⟨1, i, i⟩) ++
                (List.range 57).map (fun i => ⟨3, i + 3, i⟩),
              nextIndex := Dict.empty.set 1 next }
  follower := { currentTerm := 2,
                log := (List.range 3).map (fun i => ⟨1, i, i⟩) ++ [⟨2, 3, 8⟩, ⟨2, 4, 9⟩] }

theorem matching_lagging (next : ℤ) :
    Matching LogEntry.term (lagging next).leader.log (lagging next).follower.log := by
  show Matching LogEntry.term (lagging 0).leader.log (lagging 0).follower.log
  exact matching_of_forall_lt (by decide +kernel)

/-- The arguments of the nodes of the examples. -/
def member (a : Fin 3) : Config (Fin 3) ℕ ℕ where
  nodeId := a
  peers := (List.finRange 3).filter fun b => b ≠ a
  applyCallback := fun _ c => some c

/-- The leader starts behind its last entry, as after an election. -/
theorem catch_up_converges_lagging :
    ∃ r₀ ≤ 60 + (lagging 60).leader.log.length / 50 + 2, ∀ r ≥ r₀,
      ((exchange (member 0) (member 1))^[r] (lagging 60)).leader.log = (lagging 60).leader.log ∧
        ((exchange (member 0) (member 1))^[r] (lagging 60)).leader.matchIndex.get?
          (member 1).nodeId = some (((lagging 60).leader.log.length : ℤ) - 1) ∧
        (lagging 60).leader.log <+:
          ((exchange (member 0) (member 1))^[r] (lagging 60)).follower.log :=
  catch_up_converges (member 0) (member 1) (lagging 60) rfl (k := 60) (by decide) (by decide)
    (matching_lagging 60) (by decide)

/-! ## What the follower commits -/

/-- The follower has the whole batch that starts at `k`, goes on behind it with an entry that is not
the leader's, and commits as far as there. -/
def CommitsUnverified (k : ℕ) (s : Pair NodeId Command Result) : Prop :=
  s.leader.log.take (k + 50) <+: s.follower.log ∧
    s.follower.commitIndex < min s.leader.commitIndex s.follower.lastLogIndex ∧
    ∃ i : ℕ, k + 50 ≤ i ∧ (i : ℤ) ≤ min s.leader.commitIndex s.follower.lastLogIndex ∧
      s.follower.log[i]? ≠ s.leader.log[i]?

omit [DecidableEq NodeId] in
theorem commitIndex_acceptEntries (cfg : Config NodeId Command Result) (term : ℕ) (a : NodeId)
    (k : ℕ) (es : List (LogEntry Command)) (lc : ℤ) (n : RaftNode NodeId Command Result) :
    (acceptEntries cfg term a ((k : ℤ) - 1) es lc n).commitIndex =
      if lc > n.commitIndex then min lc ((insertEntries n.log k es).length - 1)
      else n.commitIndex := by
  have hk : ((k : ℤ) - 1 + 1).toNat = k := by omega
  unfold acceptEntries followCommit
  rw [hk]
  dsimp only
  rw [followLeader_commitIndex]
  split
  · rw [applyCommitted_commitIndex]
    rfl
  · rfl

/-- The node after a refused batch has committed no more than before. -/
theorem Aligned.commitIndex_reject {lc fc : Config NodeId Command Result}
    {L : List (LogEntry Command)} {k : ℕ} {s : Pair NodeId Command Result}
    (h : Aligned fc L k s) (hno : ¬ L.take k <+: s.follower.log) :
    (s.follower.dispatch fc (sendAppendEntries lc s.leader fc.nodeId)).1.commitIndex =
      s.follower.commitIndex := by
  rw [h.dispatch_reject hno]
  exact followLeader_commitIndex _ _ _

/-- **Follower commit agreement**: when the follower commits more, its log is the leader's up to
what it has committed, unless it commits entries behind the batch that are its own. -/
theorem follower_commit_agreement (lc fc : Config NodeId Command Result)
    (s : Pair NodeId Command Result) {k : ℕ}
    (hnext : (s.leader.nextIndex.get? fc.nodeId).getD 0 = k) (hk : k ≤ s.leader.log.length)
    (hcommit : s.leader.commitIndex < s.leader.log.length)
    (hmatch : Matching LogEntry.term s.leader.log s.follower.log)
    (hterm : s.follower.currentTerm ≤ s.leader.currentTerm) :
    (∀ f', f' = (s.follower.dispatch fc (sendAppendEntries lc s.leader fc.nodeId)).1 →
        s.follower.commitIndex < f'.commitIndex →
        ∀ i : ℕ, (i : ℤ) ≤ f'.commitIndex → f'.log[i]? = s.leader.log[i]?) ↔
      ¬ CommitsUnverified k s := by
  have h : Aligned fc s.leader.log k s := ⟨rfl, hnext, hk, hmatch, hterm⟩
  rw [forall_eq]
  by_cases hp : s.leader.log.take k <+: s.follower.log
  · rw [h.dispatch_accept hp]
    dsimp only
    rw [commitIndex_acceptEntries, log_acceptEntries]
    by_cases hlc : s.leader.commitIndex > s.follower.commitIndex
    · rw [if_pos hlc]
      rcases insertEntries_batch hmatch hk hp with ⟨hb, hs⟩ | ⟨hb, hs⟩
      · -- the log stays, and the commit index can go beyond the batch
        rw [hs]
        refine ⟨fun hall => ?_, fun hno hlt i hi => ?_⟩
        · rintro ⟨-, hlt, i, -, hi, hne⟩
          exact hne (hall hlt i hi)
        · by_cases hik : i < k + 50
          · have hlen : i < (s.leader.log.take (k + 50)).length := by
              rw [List.length_take]
              omega
            -- the batch has verified the entry
            rw [getElem?_of_isPrefix hb (List.getElem?_eq_getElem hlen),
              ← List.getElem?_eq_getElem hlen, List.getElem?_take_of_lt hik]
          · -- beyond the batch only the condition tells
            by_contra hne
            exact hno ⟨hb, hlt, i, by omega, hi, hne⟩
      · -- the log is the leader's up to the end of the batch
        rw [hs]
        refine iff_of_true (fun _ i hi => ?_) fun hc => hb hc.1
        rw [List.length_take] at hi
        exact List.getElem?_take_of_lt (by omega)
    · rw [if_neg hlc]
      refine iff_of_true (fun hlt => absurd hlt (lt_irrefl _)) ?_
      rintro ⟨-, hlt, -⟩
      omega
  · rw [h.commitIndex_reject hp]
    refine iff_of_true (fun hlt => absurd hlt (lt_irrefl _)) ?_
    rintro ⟨hb, -⟩
    exact hp ((List.take_prefix_take_left (by omega)).trans hb)

/-- The follower commits 41 entries of the batch, over two of its own. -/
theorem follower_commit_agreement_lagging :
    ∃ f', f' = ((lagging 3).follower.dispatch (member 1)
        (sendAppendEntries (member 0) (lagging 3).leader (member 1).nodeId)).1 ∧
      (lagging 3).follower.commitIndex < f'.commitIndex ∧ f'.commitIndex = 40 ∧
      ∀ i : ℕ, (i : ℤ) ≤ f'.commitIndex → f'.log[i]? = (lagging 3).leader.log[i]? := by
  have hrises : (lagging 3).follower.commitIndex < ((lagging 3).follower.dispatch (member 1)
      (sendAppendEntries (member 0) (lagging 3).leader (member 1).nodeId)).1.commitIndex := by
    decide +kernel
  have hverified : ¬ CommitsUnverified 3 (lagging 3) := by
    rintro ⟨hbatch, -⟩
    revert hbatch
    decide +kernel
  refine ⟨_, rfl, hrises, by decide +kernel, ?_⟩
  exact (follower_commit_agreement (member 0) (member 1) (lagging 3) (k := 3) rfl (by decide)
    (by decide) (matching_lagging 3) (by decide)).mpr hverified _ rfl hrises

/-- The leader of term 2 has committed its own entry 50. The follower has an entry of term 1 there,
and `next_index` has fallen back to 0. -/
def stale : Pair (Fin 3) ℕ ℕ where
  leader := { currentTerm := 2, state := .leader, commitIndex := 50,
              log := (List.range 50).map (fun i => ⟨1, i, i⟩) ++ [⟨2, 50, 7⟩] }
  follower := { currentTerm := 1,
                log := (List.range 50).map (fun i => ⟨1, i, i⟩) ++ [⟨1, 50, 8⟩] }

/-- The logs match, but the follower commits an entry at position 50 that is not the leader's. -/
theorem stale_commits_unverified :
    (stale.leader.nextIndex.get? (member 1).nodeId).getD 0 = 0 ∧
    stale.leader.commitIndex < stale.leader.log.length ∧
    Matching LogEntry.term stale.leader.log stale.follower.log ∧
    stale.follower.currentTerm ≤ stale.leader.currentTerm ∧
    ∃ f', f' = (stale.follower.dispatch (member 1)
        (sendAppendEntries (member 0) stale.leader (member 1).nodeId)).1 ∧
      stale.follower.commitIndex < f'.commitIndex ∧ f'.commitIndex = 50 ∧
      f'.log[50]? = some ⟨1, 50, 8⟩ ∧ stale.leader.log[50]? = some ⟨2, 50, 7⟩ :=
  ⟨by decide, by decide +kernel, matching_of_forall_lt (by decide +kernel), by decide, _, rfl,
    by decide +kernel, by decide +kernel, by decide +kernel, by decide +kernel⟩

end Raft
