import Terdistribusi.Raft.Properties.InFlight

/-!
# Committing and applying

How `commit_index` moves and what `_apply_committed` then does:

* `mem_applied_applyCommitted` — what is applied are the entries between `last_applied` and
  `commit_index`
* `Commits` — the two ways in which a step moves `commit_index`, and `Acts.commit`, that there are
  no others

Both commit rules put `commit_index` inside the log before anything is applied, so the lookup of
`_apply_committed` never leaves the log (`applyCommitted_reads`).
-/

namespace Raft

open Infra

variable {NodeId Command Result : Type}

namespace RaftNode

/-! ## The loop of `_apply_committed` -/

section Loop

variable (cfg : Config NodeId Command Result) (n : RaftNode NodeId Command Result)

theorem applyNext_lastApplied : (applyNext cfg n).lastApplied = n.lastApplied + 1 := by
  unfold applyNext
  split
  · rfl
  · split <;> rfl

@[simp] theorem applyNext_log : (applyNext cfg n).log = n.log := by
  obtain ⟨_, _, _, _, h⟩ := applyNext_frame cfg n; rw [h]

theorem mem_applied_applyNext {x : ℤ × LogEntry Command} (hx : x ∈ (applyNext cfg n).applied) :
    x ∈ n.applied ∨
      (x.1 = n.lastApplied + 1 ∧ n.log[(n.lastApplied + 1).toNat]? = some x.2) := by
  unfold applyNext at hx
  cases he : n.log[(n.lastApplied + 1).toNat]? with
  | none =>
    rw [he] at hx
    exact Or.inl hx
  | some entry =>
    rw [he] at hx
    have happ : x ∈ n.applied ++ [(n.lastApplied + 1, entry)] := by
      dsimp only at hx
      split at hx <;> exact hx
    refine (List.mem_append.mp happ).imp_right fun h => ?_
    rw [List.mem_singleton.mp h]
    exact ⟨rfl, rfl⟩

theorem iterate_applyNext_log (k : ℕ) : ((applyNext cfg)^[k] n).log = n.log := by
  induction k with
  | zero => rfl
  | succ k ih => rw [Function.iterate_succ_apply', applyNext_log, ih]

theorem iterate_applyNext_lastApplied (k : ℕ) :
    ((applyNext cfg)^[k] n).lastApplied = n.lastApplied + k := by
  induction k with
  | zero => simp
  | succ k ih =>
    rw [Function.iterate_succ_apply', applyNext_lastApplied, ih]
    push_cast
    omega

/-- Every turn of the loop finds the entry that it is about to apply. -/
theorem applyCommitted_reads (h0 : -1 ≤ n.lastApplied) (hc : n.commitIndex ≤ n.lastLogIndex)
    {k : ℕ} (hk : k < (n.commitIndex - n.lastApplied).toNat) :
    (((applyNext cfg)^[k] n).lastApplied + 1).toNat < ((applyNext cfg)^[k] n).log.length := by
  rw [iterate_applyNext_log, iterate_applyNext_lastApplied]
  unfold lastLogIndex at hc
  omega

/-- After the loop `last_applied` has reached `commit_index`. -/
theorem applyCommitted_lastApplied :
    (applyCommitted cfg n).lastApplied = max n.lastApplied n.commitIndex := by
  rw [applyCommitted, iterate_applyNext_lastApplied]
  omega

/-- What the loop applies are the entries of the log after `last_applied`, up to `commit_index`. -/
theorem mem_applied_applyCommitted {x : ℤ × LogEntry Command}
    (hx : x ∈ (applyCommitted cfg n).applied) : x ∈ n.applied ∨
      (n.lastApplied < x.1 ∧ x.1 ≤ n.commitIndex ∧ n.log[x.1.toNat]? = some x.2) := by
  have key : ∀ k : ℕ, x ∈ ((applyNext cfg)^[k] n).applied → x ∈ n.applied ∨
      (n.lastApplied < x.1 ∧ x.1 ≤ n.lastApplied + k ∧ n.log[x.1.toNat]? = some x.2) := by
    intro k
    induction k with
    | zero => exact Or.inl
    | succ k ih =>
      intro hx
      rw [Function.iterate_succ_apply'] at hx
      rcases mem_applied_applyNext cfg _ hx with hold | ⟨hpos, hget⟩
      · refine (ih hold).imp_right fun ⟨h1, h2, h3⟩ => ⟨h1, ?_, h3⟩
        push_cast
        omega
      · rw [iterate_applyNext_lastApplied] at hpos hget
        rw [iterate_applyNext_log] at hget
        refine Or.inr ⟨by omega, by push_cast; omega, ?_⟩
        rw [hpos]
        exact hget
  rcases key _ hx with h | ⟨h1, h2, h3⟩
  · exact Or.inl h
  · exact Or.inr ⟨h1, by omega, h3⟩

end Loop

/-! ## How `commit_index` moves -/

variable [DecidableEq NodeId]

/-- A step that moves `commit_index` and applies what is committed then. -/
inductive Commits (cfg : Config NodeId Command Result) (n : RaftNode NodeId Command Result) :
    Input NodeId Command → RaftNode NodeId Command Result → Prop
  | ofLeader (m : Message NodeId Command) (k : ℤ) (f : NodeId) (c : ℤ) :
      m.payload = .appendEntriesResponse true k f → n.state = .leader →
      m.term ≤ n.currentTerm → n.commitIndex < c → c ≤ n.lastLogIndex →
      canCommit cfg { n with
        matchIndex := n.matchIndex.set f k, nextIndex := n.nextIndex.set f (k + 1) } c = true →
      Commits cfg n (.receive m) (applyCommitted cfg { n with
        matchIndex := n.matchIndex.set f k, nextIndex := n.nextIndex.set f (k + 1)
        commitIndex := c })
  | ofFollower (m : Message NodeId Command) (a : NodeId) (pi : ℤ) (pt : ℕ)
      (es : List (LogEntry Command)) (lc : ℤ) : m.payload = .appendEntries a pi pt es lc →
      n.currentTerm ≤ m.term → appendLogOk n.log pi pt = true → n.commitIndex < lc →
      Commits cfg n (.receive m) (applyCommitted cfg { n.followLeader m.term a with
        log := insertEntries n.log (pi + 1).toNat es
        commitIndex := min lc ((insertEntries n.log (pi + 1).toNat es).length - 1) })

variable {cfg : Config NodeId Command Result} {n n' : RaftNode NodeId Command Result}
  {inp : Input NodeId Command} {out : List (Message NodeId Command)}

/-- The fields that say how far a node has committed and applied are as before. -/
structure SameProgress (n n' : RaftNode NodeId Command Result) : Prop where
  commitIndex : n'.commitIndex = n.commitIndex
  lastApplied : n'.lastApplied = n.lastApplied
  applied : n'.applied = n.applied

omit [DecidableEq NodeId] in
theorem SameProgress.refl (n : RaftNode NodeId Command Result) : SameProgress n n :=
  ⟨rfl, rfl, rfl⟩

omit [DecidableEq NodeId] in
theorem sameProgress_catchUp (term : ℕ) (n : RaftNode NodeId Command Result) :
    SameProgress n (n.catchUp term) := by
  rcases catchUp_cases term n with ⟨-, h⟩ | ⟨-, h⟩ <;> rw [h] <;> exact ⟨rfl, rfl, rfl⟩

/-- A step commits by one of the two rules or leaves everything about commitment as it was. -/
theorem Acts.commit (h : Acts cfg n inp n' out) : SameProgress n n' ∨ Commits cfg n inp n' := by
  cases h with
  | idle => exact Or.inl (.refl n)
  | timeout => exact Or.inl ⟨rfl, rfl, rfl⟩
  | heartbeat => exact Or.inl (.refl n)
  | submit => exact Or.inl ⟨rfl, rfl, rfl⟩
  | submitTimeout k =>
    left
    unfold RaftNode.submitTimeout
    split <;> exact ⟨rfl, rfl, rfl⟩
  | stepDown m hlt =>
    rw [becomeFollower_of_lt hlt]
    exact Or.inl ⟨rfl, rfl, rfl⟩
  | deny m => exact Or.inl (sameProgress_catchUp m.term n)
  | grant m =>
    have hc := sameProgress_catchUp m.term n
    exact Or.inl ⟨hc.commitIndex, hc.lastApplied, hc.applied⟩
  | gather => exact Or.inl ⟨rfl, rfl, rfl⟩
  | elected => exact Or.inl ⟨rfl, rfl, rfl⟩
  | rejectOld => exact Or.inl (.refl n)
  | reject m =>
    have hc := sameProgress_catchUp m.term n
    exact Or.inl ⟨hc.commitIndex, hc.lastApplied, hc.applied⟩
  | accept m a pi pt es lc hm ht hok =>
    have hc := sameProgress_catchUp m.term n
    unfold acceptEntries
    -- the commit index stays unless the leader's is above it
    rcases followCommit_cases cfg lc { n.followLeader m.term a with
        log := insertEntries n.log (pi + 1).toNat es } with ⟨-, he⟩ | ⟨hlt, he⟩
    · rw [he]
      exact Or.inl ⟨hc.commitIndex, hc.lastApplied, hc.applied⟩
    · rw [he]
      have hlc : n.commitIndex < lc := hc.commitIndex ▸ hlt
      exact Or.inr (.ofFollower m a pi pt es lc hm ht hok hlc)
  | ack m k f hm hl ht =>
    rcases updateCommitIndex_cases cfg { n with
        matchIndex := n.matchIndex.set f k, nextIndex := n.nextIndex.set f (k + 1) } with
      he | ⟨c, hlt, hle, hcan, he⟩
    · rw [he]
      exact Or.inl ⟨rfl, rfl, rfl⟩
    · rw [he]
      exact Or.inr (.ofLeader m k f c hm hl ht hlt hle hcan)
  | backOff => exact Or.inl ⟨rfl, rfl, rfl⟩

/-- What the two rules say about the node afterwards. -/
theorem Commits.rule (h : Commits cfg n inp n') :
    (n.state = .leader ∧ n'.state = .leader ∧ n.commitIndex < n'.commitIndex ∧
        canCommit cfg n' n'.commitIndex = true) ∨
      ∃ m a pi pt es lc, inp = .receive m ∧ m.payload = .appendEntries a pi pt es lc ∧
        n'.state = .follower ∧ n.currentTerm ≤ m.term ∧ n'.currentTerm = m.term ∧
        appendLogOk n.log pi pt = true ∧ n'.log = insertEntries n.log (pi + 1).toNat es ∧
        n'.commitIndex = min lc n'.lastLogIndex := by
  cases h with
  | ofLeader m k f c hm hl ht hlt hle hcan =>
    exact Or.inl ⟨hl, by simpa using hl, by simpa using hlt, by simpa [canCommit] using hcan⟩
  | ofFollower m a pi pt es lc hm ht hok hlt =>
    refine Or.inr ⟨m, a, pi, pt, es, lc, rfl, hm, by simp, ht, ?_, hok, by simp, ?_⟩
    · rw [applyCommitted_currentTerm]
      exact (followLeader_currentTerm m.term n a).trans (max_eq_left ht)
    · simp [lastLogIndex]

/-- What the commit applies: entries of the log up to the new `commit_index`. -/
theorem Commits.applied (h : Commits cfg n inp n') : n.lastApplied ≤ n'.lastApplied ∧
    ∀ x ∈ n'.applied, x ∈ n.applied ∨
      (n.lastApplied < x.1 ∧ x.1 ≤ n'.commitIndex ∧ n'.log[x.1.toNat]? = some x.2) := by
  cases h with
  | ofLeader =>
    rw [applyCommitted_lastApplied, applyCommitted_commitIndex, applyCommitted_log]
    exact ⟨le_max_left _ _, fun x hx => mem_applied_applyCommitted cfg _ hx⟩
  | ofFollower m a =>
    have hc := sameProgress_catchUp m.term n
    rw [applyCommitted_lastApplied, applyCommitted_commitIndex, applyCommitted_log,
      ← hc.lastApplied, ← hc.applied]
    exact ⟨le_max_left _ _, fun x hx => mem_applied_applyCommitted cfg _ hx⟩

/-- A leader that stays one raises `commit_index` only to a position that `_update_commit_index`
accepts. -/
theorem Acts.leader_commit (h : Acts cfg n inp n' out) (hl : n'.state = .leader)
    (hup : n.commitIndex < n'.commitIndex) : canCommit cfg n' n'.commitIndex = true := by
  rcases h.commit with hsame | hc
  · have := hsame.commitIndex
    omega
  · rcases hc.rule with ⟨-, -, -, hcan⟩ | ⟨_, _, _, _, _, _, -, -, hf, -⟩
    · exact hcan
    · rw [hl] at hf
      cases hf

/-- `match_index` of a leader is fresh, as before, or changed by one success reply. -/
theorem Acts.matchIndex (h : Acts cfg n inp n' out) (hl : n'.state = .leader) :
    (n.state = .leader ∧ n'.matchIndex = n.matchIndex) ∨
      n'.matchIndex = n.matchIndex.setAll cfg.peers (-1) ∨
      ∃ m k f, inp = .receive m ∧ m.payload = .appendEntriesResponse true k f ∧
        n.state = .leader ∧ m.term ≤ n.currentTerm ∧ n'.matchIndex = n.matchIndex.set f k := by
  cases h with
  | elected => exact Or.inr (Or.inl rfl)
  | ack m k f hm hs ht => exact Or.inr (Or.inr ⟨m, k, f, rfl, hm, hs, ht, by simp⟩)
  | submitTimeout k =>
    unfold RaftNode.submitTimeout at hl ⊢
    split at hl <;> exact Or.inl ⟨hl, rfl⟩
  | timeout => cases hl
  | stepDown => simp at hl
  | reject => cases hl
  | accept => simp [acceptEntries] at hl
  | deny m =>
    have he : n.catchUp m.term = n := catchUp_eq _ n (ne_of_eq_of_ne hl (by decide))
    rw [he] at hl ⊢
    exact Or.inl ⟨hl, rfl⟩
  | grant m =>
    have he : n.catchUp m.term = n := catchUp_eq _ n (ne_of_eq_of_ne hl (by decide))
    rw [he] at hl ⊢
    exact Or.inl ⟨hl, rfl⟩
  | idle | heartbeat | submit | gather | rejectOld | backOff => exact Or.inl ⟨hl, rfl⟩

end RaftNode

end Raft
