import Terdistribusi.Raft.Cluster

/-!
# The branches of the Raft handlers

`Acts` lists what one step of a node can do, one constructor for each branch of the source, with
the guards of that branch. `acts_act` says that the handlers do nothing else. Everything that is
proved about a step is proved from this list, so a handler is unfolded here only.

The lemmas after it are the projections that the invariants need: terms and votes
(`Acts.ballot`), leadership (`Acts.leader`), candidacy (`Acts.candidate`), the log (`Acts.log`)
and the messages that are sent.
-/

namespace Raft

open Infra

variable {NodeId Command Result : Type}

namespace RaftNode

/-! ## Applying touches nothing else -/

theorem applyNext_frame (cfg : Config NodeId Command Result) (n : RaftNode NodeId Command Result) :
    ∃ la ap pc cs, applyNext cfg n =
      { n with lastApplied := la, applied := ap, pendingCommands := pc, calls := cs } := by
  unfold applyNext
  split
  · exact ⟨_, _, _, _, rfl⟩
  · split <;> exact ⟨_, _, _, _, rfl⟩

theorem applyCommitted_frame (cfg : Config NodeId Command Result)
    (n : RaftNode NodeId Command Result) : ∃ la ap pc cs, applyCommitted cfg n =
      { n with lastApplied := la, applied := ap, pendingCommands := pc, calls := cs } := by
  have key : ∀ k, ∃ la ap pc cs, (applyNext cfg)^[k] n =
      { n with lastApplied := la, applied := ap, pendingCommands := pc, calls := cs } := by
    intro k
    induction k with
    | zero => exact ⟨_, _, _, _, rfl⟩
    | succ k ih =>
      obtain ⟨la, ap, pc, cs, he⟩ := ih
      obtain ⟨la', ap', pc', cs', he'⟩ := applyNext_frame cfg ((applyNext cfg)^[k] n)
      rw [Function.iterate_succ_apply', he', he]
      exact ⟨_, _, _, _, rfl⟩
  exact key _

section Frame

variable (cfg : Config NodeId Command Result) (n : RaftNode NodeId Command Result)

@[simp] theorem applyCommitted_currentTerm :
    (applyCommitted cfg n).currentTerm = n.currentTerm := by
  obtain ⟨_, _, _, _, h⟩ := applyCommitted_frame cfg n; rw [h]

@[simp] theorem applyCommitted_votedFor : (applyCommitted cfg n).votedFor = n.votedFor := by
  obtain ⟨_, _, _, _, h⟩ := applyCommitted_frame cfg n; rw [h]

@[simp] theorem applyCommitted_log : (applyCommitted cfg n).log = n.log := by
  obtain ⟨_, _, _, _, h⟩ := applyCommitted_frame cfg n; rw [h]

@[simp] theorem applyCommitted_state : (applyCommitted cfg n).state = n.state := by
  obtain ⟨_, _, _, _, h⟩ := applyCommitted_frame cfg n; rw [h]

@[simp] theorem applyCommitted_commitIndex :
    (applyCommitted cfg n).commitIndex = n.commitIndex := by
  obtain ⟨_, _, _, _, h⟩ := applyCommitted_frame cfg n; rw [h]

@[simp] theorem applyCommitted_nextIndex : (applyCommitted cfg n).nextIndex = n.nextIndex := by
  obtain ⟨_, _, _, _, h⟩ := applyCommitted_frame cfg n; rw [h]

@[simp] theorem applyCommitted_matchIndex : (applyCommitted cfg n).matchIndex = n.matchIndex := by
  obtain ⟨_, _, _, _, h⟩ := applyCommitted_frame cfg n; rw [h]

end Frame

/-! ## Changes of state -/

section Changes

variable (term : ℕ) (n : RaftNode NodeId Command Result)

@[simp] theorem becomeFollower_log : (n.becomeFollower term).log = n.log := by
  unfold becomeFollower; split <;> rfl

@[simp] theorem becomeFollower_state : (n.becomeFollower term).state = .follower := by
  unfold becomeFollower; split <;> rfl

theorem becomeFollower_of_lt {term : ℕ} {n : RaftNode NodeId Command Result}
    (h : n.currentTerm < term) :
    n.becomeFollower term =
      { n with currentTerm := term, votedFor := none, state := .follower } := by
  simp [becomeFollower, h]

/-- `catchUp` either does nothing or moves the node to a higher term without a vote. -/
theorem catchUp_cases : (term ≤ n.currentTerm ∧ n.catchUp term = n) ∨
    (n.currentTerm < term ∧ n.catchUp term =
      { n with currentTerm := term, votedFor := none, state := .follower }) := by
  unfold catchUp
  split
  · next h => exact Or.inr ⟨h, becomeFollower_of_lt h⟩
  · next h => exact Or.inl ⟨by omega, rfl⟩

/-- A node that is not a follower afterwards has caught up with no one. -/
theorem catchUp_eq (h : (n.catchUp term).state ≠ .follower) : n.catchUp term = n := by
  rcases catchUp_cases term n with ⟨-, he⟩ | ⟨-, he⟩
  · exact he
  · rw [he] at h
    exact absurd rfl h

@[simp] theorem catchUp_log : (n.catchUp term).log = n.log := by
  rcases catchUp_cases term n with ⟨-, h⟩ | ⟨-, h⟩ <;> rw [h]

theorem catchUp_currentTerm : (n.catchUp term).currentTerm = max term n.currentTerm := by
  rcases catchUp_cases term n with ⟨hle, h⟩ | ⟨hlt, h⟩ <;> rw [h]
  · exact (max_eq_right hle).symm
  · exact (max_eq_left hlt.le).symm

@[simp] theorem followLeader_log (a : NodeId) : (n.followLeader term a).log = n.log :=
  catchUp_log term n

@[simp] theorem followLeader_state (a : NodeId) : (n.followLeader term a).state = .follower := rfl

@[simp] theorem followLeader_commitIndex (a : NodeId) :
    (n.followLeader term a).commitIndex = n.commitIndex := by
  rcases catchUp_cases term n with ⟨-, h⟩ | ⟨-, h⟩ <;> simp [followLeader, h]

theorem followLeader_currentTerm (a : NodeId) :
    (n.followLeader term a).currentTerm = max term n.currentTerm :=
  catchUp_currentTerm term n

end Changes

/-! ## The two commit rules -/

theorem followCommit_cases (cfg : Config NodeId Command Result) (leaderCommit : ℤ)
    (n : RaftNode NodeId Command Result) :
    (leaderCommit ≤ n.commitIndex ∧ followCommit cfg leaderCommit n = n) ∨
      (n.commitIndex < leaderCommit ∧ followCommit cfg leaderCommit n =
        applyCommitted cfg { n with commitIndex := min leaderCommit n.lastLogIndex }) := by
  unfold followCommit
  split
  · next h => exact Or.inr ⟨h, rfl⟩
  · next h => exact Or.inl ⟨by omega, rfl⟩

section FollowFrame

variable (cfg : Config NodeId Command Result) (leaderCommit : ℤ)
  (n : RaftNode NodeId Command Result)

@[simp] theorem followCommit_currentTerm :
    (followCommit cfg leaderCommit n).currentTerm = n.currentTerm := by
  rcases followCommit_cases cfg leaderCommit n with ⟨-, h⟩ | ⟨-, h⟩ <;> simp [h]

@[simp] theorem followCommit_votedFor :
    (followCommit cfg leaderCommit n).votedFor = n.votedFor := by
  rcases followCommit_cases cfg leaderCommit n with ⟨-, h⟩ | ⟨-, h⟩ <;> simp [h]

@[simp] theorem followCommit_log : (followCommit cfg leaderCommit n).log = n.log := by
  rcases followCommit_cases cfg leaderCommit n with ⟨-, h⟩ | ⟨-, h⟩ <;> simp [h]

@[simp] theorem followCommit_state : (followCommit cfg leaderCommit n).state = n.state := by
  rcases followCommit_cases cfg leaderCommit n with ⟨-, h⟩ | ⟨-, h⟩ <;> simp [h]

@[simp] theorem followCommit_nextIndex :
    (followCommit cfg leaderCommit n).nextIndex = n.nextIndex := by
  rcases followCommit_cases cfg leaderCommit n with ⟨-, h⟩ | ⟨-, h⟩ <;> simp [h]

end FollowFrame

variable [DecidableEq NodeId]

/-- `_update_commit_index` leaves the node alone or commits a position that a majority reaches. -/
theorem updateCommitIndex_cases (cfg : Config NodeId Command Result)
    (n : RaftNode NodeId Command Result) : updateCommitIndex cfg n = n ∨
      ∃ k, n.commitIndex < k ∧ k ≤ n.lastLogIndex ∧ canCommit cfg n k = true ∧
        updateCommitIndex cfg n = applyCommitted cfg { n with commitIndex := k } := by
  unfold updateCommitIndex
  cases hf : (rangeDown n.lastLogIndex n.commitIndex).find? (canCommit cfg n) with
  | none => exact Or.inl rfl
  | some k =>
    refine Or.inr ⟨k, ?_, ?_, List.find?_some hf, rfl⟩
    all_goals
      have hmem := List.mem_of_find?_eq_some hf
      simp only [rangeDown, List.mem_map, List.mem_range] at hmem
      obtain ⟨i, hi, rfl⟩ := hmem
      omega

section CommitFrame

variable (cfg : Config NodeId Command Result) (n : RaftNode NodeId Command Result)

@[simp] theorem updateCommitIndex_currentTerm :
    (updateCommitIndex cfg n).currentTerm = n.currentTerm := by
  rcases updateCommitIndex_cases cfg n with h | ⟨k, -, -, -, h⟩ <;> simp [h]

@[simp] theorem updateCommitIndex_votedFor :
    (updateCommitIndex cfg n).votedFor = n.votedFor := by
  rcases updateCommitIndex_cases cfg n with h | ⟨k, -, -, -, h⟩ <;> simp [h]

@[simp] theorem updateCommitIndex_log : (updateCommitIndex cfg n).log = n.log := by
  rcases updateCommitIndex_cases cfg n with h | ⟨k, -, -, -, h⟩ <;> simp [h]

@[simp] theorem updateCommitIndex_state : (updateCommitIndex cfg n).state = n.state := by
  rcases updateCommitIndex_cases cfg n with h | ⟨k, -, -, -, h⟩ <;> simp [h]

@[simp] theorem updateCommitIndex_nextIndex :
    (updateCommitIndex cfg n).nextIndex = n.nextIndex := by
  rcases updateCommitIndex_cases cfg n with h | ⟨k, -, -, -, h⟩ <;> simp [h]

@[simp] theorem updateCommitIndex_matchIndex :
    (updateCommitIndex cfg n).matchIndex = n.matchIndex := by
  rcases updateCommitIndex_cases cfg n with h | ⟨k, -, -, -, h⟩ <;> simp [h]

end CommitFrame

/-! ## The list of branches -/

/-- The node after `handleAppendEntries` accepted a batch. -/
def acceptEntries (cfg : Config NodeId Command Result) (term : ℕ) (leaderId : NodeId)
    (prevLogIndex : ℤ) (entries : List (LogEntry Command)) (leaderCommit : ℤ)
    (n : RaftNode NodeId Command Result) : RaftNode NodeId Command Result :=
  followCommit cfg leaderCommit
    { n.followLeader term leaderId with
      log := insertEntries n.log (prevLogIndex + 1).toNat entries }

/-- What a step of the node `n` on an input can be: the node afterwards and what it sends. -/
inductive Acts (cfg : Config NodeId Command Result) (n : RaftNode NodeId Command Result) :
    Input NodeId Command → RaftNode NodeId Command Result → List (Message NodeId Command) → Prop
  | idle (inp : Input NodeId Command) : Acts cfg n inp n []
  | timeout : n.state ≠ .leader →
      Acts cfg n (.tick true) (n.becomeCandidate cfg) (startElection cfg (n.becomeCandidate cfg))
  | heartbeat (expired : Bool) : n.state = .leader →
      Acts cfg n (.tick expired) n (broadcastHeartbeat cfg n)
  | submit (c : Command) : n.state = .leader →
      Acts cfg n (.submit c) (n.appendCommand c) (broadcastHeartbeat cfg (n.appendCommand c))
  | submitTimeout (k : ℕ) : Acts cfg n (.submitTimeout k) (n.submitTimeout k) []
  | stepDown (m : Message NodeId Command) : n.currentTerm < m.term →
      Acts cfg n (.receive m) (n.becomeFollower m.term) []
  | deny (m : Message NodeId Command) (c : NodeId) (li : ℤ) (lt : ℕ) :
      m.payload = .requestVote c li lt →
      Acts cfg n (.receive m) (n.catchUp m.term) [voteResponse cfg (n.catchUp m.term) c false]
  | grant (m : Message NodeId Command) (c : NodeId) (li : ℤ) (lt : ℕ) :
      m.payload = .requestVote c li lt → n.currentTerm ≤ m.term →
      (n.catchUp m.term).voteLogOk li lt = true →
      (n.catchUp m.term).alreadyVoted c = false →
      Acts cfg n (.receive m) { n.catchUp m.term with votedFor := some c }
        [voteResponse cfg { n.catchUp m.term with votedFor := some c } c true]
  | gather (m : Message NodeId Command) (v : NodeId) :
      m.payload = .requestVoteResponse true v → n.state = .candidate → m.term = n.currentTerm →
      Acts cfg n (.receive m) { n with votesReceived := insert v n.votesReceived } []
  | elected (m : Message NodeId Command) (v : NodeId) :
      m.payload = .requestVoteResponse true v → n.state = .candidate → m.term = n.currentTerm →
      majority cfg ≤ (insert v n.votesReceived).card →
      Acts cfg n (.receive m)
        (becomeLeader cfg { n with votesReceived := insert v n.votesReceived })
        (broadcastHeartbeat cfg
          (becomeLeader cfg { n with votesReceived := insert v n.votesReceived }))
  | rejectOld (m : Message NodeId Command) (a : NodeId) (pi : ℤ) (pt : ℕ)
      (es : List (LogEntry Command)) (lc : ℤ) : m.payload = .appendEntries a pi pt es lc →
      m.term < n.currentTerm → Acts cfg n (.receive m) n [appendResponse cfg n a false (-1)]
  | reject (m : Message NodeId Command) (a : NodeId) (pi : ℤ) (pt : ℕ)
      (es : List (LogEntry Command)) (lc : ℤ) : m.payload = .appendEntries a pi pt es lc →
      n.currentTerm ≤ m.term → appendLogOk n.log pi pt = false →
      Acts cfg n (.receive m) (n.followLeader m.term a)
        [appendResponse cfg (n.followLeader m.term a) a false (-1)]
  | accept (m : Message NodeId Command) (a : NodeId) (pi : ℤ) (pt : ℕ)
      (es : List (LogEntry Command)) (lc : ℤ) : m.payload = .appendEntries a pi pt es lc →
      n.currentTerm ≤ m.term → appendLogOk n.log pi pt = true →
      Acts cfg n (.receive m) (acceptEntries cfg m.term a pi es lc n)
        [appendResponse cfg (acceptEntries cfg m.term a pi es lc n) a true (pi + es.length)]
  | ack (m : Message NodeId Command) (k : ℤ) (f : NodeId) :
      m.payload = .appendEntriesResponse true k f → n.state = .leader →
      m.term ≤ n.currentTerm →
      Acts cfg n (.receive m) (updateCommitIndex cfg
        { n with matchIndex := n.matchIndex.set f k, nextIndex := n.nextIndex.set f (k + 1) }) []
  | backOff (m : Message NodeId Command) (k : ℤ) (f : NodeId) :
      m.payload = .appendEntriesResponse false k f → n.state = .leader →
      Acts cfg n (.receive m)
        { n with
          nextIndex := n.nextIndex.set f (max 0 ((n.nextIndex.get? f).getD 0 - 1)) } []

variable {cfg : Config NodeId Command Result} {n n' : RaftNode NodeId Command Result}
  {inp : Input NodeId Command} {out : List (Message NodeId Command)}

theorem acts_mainLoop (expired : Bool) :
    Acts cfg n (.tick expired) (n.mainLoop cfg expired).1 (n.mainLoop cfg expired).2 := by
  unfold mainLoop
  split
  · next h => exact .heartbeat expired h
  · next h =>
    split
    · next he => rw [he]; exact .timeout h
    · exact .idle _

theorem acts_submit (c : Command) :
    Acts cfg n (.submit c) (n.submit cfg c).1 (n.submit cfg c).2 := by
  unfold RaftNode.submit
  split
  · exact .idle _
  · next h => exact .submit c (by simpa using h)

theorem acts_handleRequestVote {m : Message NodeId Command} {c : NodeId} {li : ℤ} {lt : ℕ}
    (hm : m.payload = .requestVote c li lt) :
    Acts cfg n (.receive m) (n.handleRequestVote cfg m.term c li lt).1
      (n.handleRequestVote cfg m.term c li lt).2 := by
  unfold handleRequestVote
  split
  · next h =>
    have hold : n.catchUp m.term = n := by
      rcases catchUp_cases m.term n with ⟨-, he⟩ | ⟨hlt, -⟩
      · exact he
      · omega
    have hd : Acts cfg n (.receive m) (n.catchUp m.term)
        [voteResponse cfg (n.catchUp m.term) c false] := .deny m c li lt hm
    rwa [hold] at hd
  · next h =>
    dsimp only
    split
    · next hok =>
      rw [Bool.and_eq_true, Bool.not_eq_true'] at hok
      exact .grant m c li lt hm (by omega) hok.1 hok.2
    · exact .deny m c li lt hm

theorem acts_handleVoteResponse {m : Message NodeId Command} {g : Bool} {v : NodeId}
    (hm : m.payload = .requestVoteResponse g v) :
    Acts cfg n (.receive m) (n.handleVoteResponse cfg m.term g v).1
      (n.handleVoteResponse cfg m.term g v).2 := by
  unfold handleVoteResponse
  split
  · exact .idle _
  · next hc =>
    have hcand : n.state = .candidate := by simpa using hc
    split
    · next h => exact .stepDown m h
    · next h1 =>
      split
      · exact .idle _
      · next h2 =>
        split
        · next hg =>
          rw [hg] at hm
          dsimp only
          split
          · next hmaj => exact .elected m v hm hcand (by omega) hmaj
          · exact .gather m v hm hcand (by omega)
        · exact .idle _

theorem acts_handleAppendEntries {m : Message NodeId Command} {a : NodeId} {pi : ℤ} {pt : ℕ}
    {es : List (LogEntry Command)} {lc : ℤ} (hm : m.payload = .appendEntries a pi pt es lc) :
    Acts cfg n (.receive m) (n.handleAppendEntries cfg m.term a pi pt es lc).1
      (n.handleAppendEntries cfg m.term a pi pt es lc).2 := by
  unfold handleAppendEntries
  split
  · next h => exact .rejectOld m a pi pt es lc hm h
  · next h =>
    dsimp only
    rw [followLeader_log]
    split
    · next hok => exact .accept m a pi pt es lc hm (by omega) hok
    · next hok => exact .reject m a pi pt es lc hm (by omega) (by simpa using hok)

theorem acts_handleAppendResponse {m : Message NodeId Command} {ok : Bool} {k : ℤ} {f : NodeId}
    (hm : m.payload = .appendEntriesResponse ok k f) :
    Acts cfg n (.receive m) (n.handleAppendResponse cfg m.term ok k f).1
      (n.handleAppendResponse cfg m.term ok k f).2 := by
  unfold handleAppendResponse
  split
  · exact .idle _
  · next hl =>
    have hlead : n.state = .leader := by simpa using hl
    split
    · next h => exact .stepDown m h
    · next h =>
      split
      · next hs => rw [hs] at hm; exact .ack m k f hm hlead (by omega)
      · next hs =>
        rw [Bool.not_eq_true] at hs
        rw [hs] at hm
        exact .backOff m k f hm hlead

/-- **The handlers have the branches of `Acts` and no others.** -/
theorem acts_act : Acts cfg n inp (n.act cfg inp).1 (n.act cfg inp).2 := by
  cases inp with
  | tick expired => exact acts_mainLoop expired
  | submit c => exact acts_submit c
  | submitTimeout k => exact .submitTimeout k
  | receive m =>
    simp only [act, dispatch]
    cases hm : m.payload with
    | requestVote c li lt => exact acts_handleRequestVote hm
    | requestVoteResponse g v => exact acts_handleVoteResponse hm
    | appendEntries a pi pt es lc => exact acts_handleAppendEntries hm
    | appendEntriesResponse ok k f => exact acts_handleAppendResponse hm

/-! ## Terms, votes and states -/

theorem alreadyVoted_eq_false {c : NodeId} :
    n.alreadyVoted c = false ↔ ∀ d, n.votedFor = some d → d = c := by
  unfold alreadyVoted
  cases h : n.votedFor with
  | none => simp
  | some d => simp

namespace Acts

/-- The term never goes down, and a vote is not taken back within a term. -/
theorem ballot (h : Acts cfg n inp n' out) : n.currentTerm ≤ n'.currentTerm ∧
    (n'.currentTerm = n.currentTerm → ∀ c, n.votedFor = some c → n'.votedFor = some c) := by
  cases h with
  | idle => exact ⟨Nat.le_refl _, fun _ _ hc => hc⟩
  | timeout => exact ⟨Nat.le_succ _, fun he => absurd he (Nat.succ_ne_self _)⟩
  | heartbeat => exact ⟨Nat.le_refl _, fun _ _ hc => hc⟩
  | submit => exact ⟨Nat.le_refl _, fun _ _ hc => hc⟩
  | submitTimeout k =>
    unfold RaftNode.submitTimeout
    split <;> exact ⟨Nat.le_refl _, fun _ _ hc => hc⟩
  | stepDown m hlt =>
    rw [becomeFollower_of_lt hlt]
    exact ⟨hlt.le, fun he => absurd he (Nat.ne_of_gt hlt)⟩
  | deny m =>
    rcases catchUp_cases m.term n with ⟨-, he⟩ | ⟨hlt, he⟩ <;> rw [he]
    · exact ⟨Nat.le_refl _, fun _ _ hc => hc⟩
    · exact ⟨hlt.le, fun he => absurd he (Nat.ne_of_gt hlt)⟩
  | grant m c _ _ _ _ _ hv =>
    rcases catchUp_cases m.term n with ⟨-, he⟩ | ⟨hlt, he⟩ <;> rw [he] at hv ⊢
    · exact ⟨Nat.le_refl _, fun _ d hd => by rw [alreadyVoted_eq_false.mp hv d hd]⟩
    · exact ⟨hlt.le, fun he => absurd he (Nat.ne_of_gt hlt)⟩
  | gather => exact ⟨Nat.le_refl _, fun _ _ hc => hc⟩
  | elected => exact ⟨Nat.le_refl _, fun _ _ hc => hc⟩
  | rejectOld => exact ⟨Nat.le_refl _, fun _ _ hc => hc⟩
  | reject m a =>
    unfold followLeader
    rcases catchUp_cases m.term n with ⟨-, he⟩ | ⟨hlt, he⟩ <;> rw [he]
    · exact ⟨Nat.le_refl _, fun _ _ hc => hc⟩
    · exact ⟨hlt.le, fun he => absurd he (Nat.ne_of_gt hlt)⟩
  | accept m a =>
    simp only [acceptEntries, followCommit_currentTerm, followCommit_votedFor]
    unfold followLeader
    rcases catchUp_cases m.term n with ⟨-, he⟩ | ⟨hlt, he⟩ <;> rw [he]
    · exact ⟨Nat.le_refl _, fun _ _ hc => hc⟩
    · exact ⟨hlt.le, fun he => absurd he (Nat.ne_of_gt hlt)⟩
  | ack => simp
  | backOff => exact ⟨Nat.le_refl _, fun _ _ hc => hc⟩

/-- A leader was a leader of the same term before, or is elected by this step. -/
theorem leader (h : Acts cfg n inp n' out) (hl : n'.state = .leader) :
    (n.state = .leader ∧ n'.currentTerm = n.currentTerm) ∨
      (n.state = .candidate ∧ n'.currentTerm = n.currentTerm ∧ n'.log = n.log ∧
        ∃ m v, inp = .receive m ∧ m.payload = .requestVoteResponse true v ∧
          m.term = n.currentTerm ∧ majority cfg ≤ (insert v n.votesReceived).card) := by
  cases h with
  | idle => exact Or.inl ⟨hl, rfl⟩
  | timeout => cases hl
  | heartbeat => exact Or.inl ⟨hl, rfl⟩
  | submit => exact Or.inl ⟨hl, rfl⟩
  | submitTimeout k =>
    unfold RaftNode.submitTimeout at hl ⊢
    split at hl <;> exact Or.inl ⟨hl, rfl⟩
  | stepDown => simp at hl
  | deny m =>
    have he : n.catchUp m.term = n := catchUp_eq _ n (ne_of_eq_of_ne hl (by decide))
    rw [he] at hl ⊢
    exact Or.inl ⟨hl, rfl⟩
  | grant m =>
    have he : n.catchUp m.term = n := catchUp_eq _ n (ne_of_eq_of_ne hl (by decide))
    rw [he] at hl ⊢
    exact Or.inl ⟨hl, rfl⟩
  | gather m v _ hc =>
    rw [show n.state = .leader from hl] at hc
    cases hc
  | elected m v hm hc ht hmaj => exact Or.inr ⟨hc, rfl, rfl, m, v, rfl, hm, ht, hmaj⟩
  | rejectOld => exact Or.inl ⟨hl, rfl⟩
  | reject => cases hl
  | accept => simp [acceptEntries] at hl
  | ack m k f hm hs => exact Or.inl ⟨hs, by simp⟩
  | backOff => exact Or.inl ⟨hl, rfl⟩

/-- A candidate keeps its log and its term, or has just become one in a new term. -/
theorem candidate (h : Acts cfg n inp n' out) (hc : n'.state = .candidate) : n'.log = n.log ∧
    ((n.state = .candidate ∧ n'.currentTerm = n.currentTerm ∧
        ∀ v ∈ n'.votesReceived, v ∈ n.votesReceived ∨ ∃ m, inp = .receive m ∧
          m.payload = .requestVoteResponse true v ∧ m.term = n.currentTerm) ∨
      (n'.currentTerm = n.currentTerm + 1 ∧ n'.votesReceived = {cfg.nodeId} ∧
        n'.votedFor = some cfg.nodeId)) := by
  cases h with
  | idle => exact ⟨rfl, Or.inl ⟨hc, rfl, fun v hv => Or.inl hv⟩⟩
  | timeout => exact ⟨rfl, Or.inr ⟨rfl, rfl, rfl⟩⟩
  | heartbeat _ hl => rw [hl] at hc; cases hc
  | submit _ hl => rw [show n.state = .candidate from hc] at hl; cases hl
  | submitTimeout k =>
    unfold RaftNode.submitTimeout at hc ⊢
    split at hc <;> exact ⟨rfl, Or.inl ⟨hc, rfl, fun v hv => Or.inl hv⟩⟩
  | stepDown => simp at hc
  | deny m =>
    have he : n.catchUp m.term = n := catchUp_eq _ n (ne_of_eq_of_ne hc (by decide))
    rw [he] at hc ⊢
    exact ⟨rfl, Or.inl ⟨hc, rfl, fun v hv => Or.inl hv⟩⟩
  | grant m =>
    have he : n.catchUp m.term = n := catchUp_eq _ n (ne_of_eq_of_ne hc (by decide))
    rw [he] at hc ⊢
    exact ⟨rfl, Or.inl ⟨hc, rfl, fun v hv => Or.inl hv⟩⟩
  | gather m v hm _ ht =>
    refine ⟨rfl, Or.inl ⟨hc, rfl, fun w hw => ?_⟩⟩
    rcases Finset.mem_insert.mp hw with rfl | hw
    · exact Or.inr ⟨m, rfl, hm, ht⟩
    · exact Or.inl hw
  | elected => cases hc
  | rejectOld => exact ⟨rfl, Or.inl ⟨hc, rfl, fun v hv => Or.inl hv⟩⟩
  | reject => cases hc
  | accept => simp [acceptEntries] at hc
  | ack m k f _ hl => simp [hl] at hc
  | backOff _ _ _ _ hl => rw [show n.state = .candidate from hc] at hl; cases hl

/-! ## The log -/

/-- The log stays, grows by one entry of a leader, or takes over a batch of the leader of the
node's new term. -/
theorem log (h : Acts cfg n inp n' out) : n'.log = n.log ∨
    (∃ c, n'.state = .leader ∧ n'.currentTerm = n.currentTerm ∧
      n'.log = n.log ++ [n.newEntry c]) ∨
    ∃ m a pi pt es lc, inp = .receive m ∧ m.payload = .appendEntries a pi pt es lc ∧
      n'.state = .follower ∧ n'.currentTerm = m.term ∧ appendLogOk n.log pi pt = true ∧
      n'.log = insertEntries n.log (pi + 1).toNat es := by
  cases h with
  | submit c hl => exact Or.inr (Or.inl ⟨c, hl, rfl, rfl⟩)
  | accept m a pi pt es lc hm ht hok =>
    refine Or.inr (Or.inr ⟨m, a, pi, pt, es, lc, rfl, hm, ?_, ?_, hok, ?_⟩)
    · simp [acceptEntries]
    · simp [acceptEntries, followLeader_currentTerm, ht]
    · simp [acceptEntries]
  | submitTimeout k =>
    left
    unfold RaftNode.submitTimeout
    split <;> rfl
  | idle => exact Or.inl rfl
  | timeout => exact Or.inl rfl
  | heartbeat => exact Or.inl rfl
  | stepDown => exact Or.inl (becomeFollower_log _ _)
  | deny => exact Or.inl (catchUp_log _ _)
  | grant => exact Or.inl (catchUp_log _ _)
  | gather => exact Or.inl rfl
  | elected => exact Or.inl rfl
  | rejectOld => exact Or.inl rfl
  | reject => exact Or.inl (followLeader_log _ _ _)
  | ack => exact Or.inl (by simp)
  | backOff => exact Or.inl rfl

/-! ## What is sent -/

/-- A message that the step from `n` to `n'` on the input `inp` can send, with what it tells about
the sender. -/
inductive Sends (cfg : Config NodeId Command Result) (n : RaftNode NodeId Command Result)
    (inp : Input NodeId Command) (n' : RaftNode NodeId Command Result) :
    Message NodeId Command → Prop
  | requestVote (peer : NodeId) : Sends cfg n inp n'
      { senderId := cfg.nodeId
        receiverId := peer
        payload := .requestVote cfg.nodeId n'.lastLogIndex n'.lastLogTerm
        term := n'.currentTerm }
  | batch (peer : NodeId) : n'.state = .leader → Sends cfg n inp n' (sendAppendEntries cfg n' peer)
  | deny (c : NodeId) : Sends cfg n inp n' (voteResponse cfg n' c false)
  | grant (m : Message NodeId Command) (c : NodeId) (li : ℤ) (lt : ℕ) : inp = .receive m →
      m.payload = .requestVote c li lt → m.term = n'.currentTerm → n'.votedFor = some c →
      n'.log = n.log → n'.voteLogOk li lt = true → Sends cfg n inp n' (voteResponse cfg n' c true)
  | refuse (a : NodeId) : Sends cfg n inp n' (appendResponse cfg n' a false (-1))
  | success (m : Message NodeId Command) (a : NodeId) (pi : ℤ) (pt : ℕ)
      (es : List (LogEntry Command)) (lc : ℤ) : inp = .receive m →
      m.payload = .appendEntries a pi pt es lc → m.term = n'.currentTerm →
      appendLogOk n.log pi pt = true → n'.log = insertEntries n.log (pi + 1).toNat es →
      Sends cfg n inp n' (appendResponse cfg n' a true (pi + es.length))

theorem sends (h : Acts cfg n inp n' out) : ∀ x ∈ out, Sends cfg n inp n' x := by
  intro x hx
  cases h with
  | timeout =>
    obtain ⟨peer, -, rfl⟩ := List.mem_map.mp hx
    exact .requestVote peer
  | heartbeat _ hl =>
    obtain ⟨peer, -, rfl⟩ := List.mem_map.mp hx
    exact .batch peer hl
  | submit _ hl =>
    obtain ⟨peer, -, rfl⟩ := List.mem_map.mp hx
    exact .batch peer hl
  | elected =>
    obtain ⟨peer, -, rfl⟩ := List.mem_map.mp hx
    exact .batch peer rfl
  | deny m c =>
    obtain rfl := List.mem_singleton.mp hx
    exact .deny c
  | grant m c li lt hm ht hok =>
    obtain rfl := List.mem_singleton.mp hx
    -- the voter has caught up with the term of the candidate
    have hterm : m.term = (n.catchUp m.term).currentTerm :=
      ((catchUp_currentTerm m.term n).trans (max_eq_left ht)).symm
    exact .grant m c li lt rfl hm hterm rfl (catchUp_log _ _) hok
  | rejectOld m a =>
    obtain rfl := List.mem_singleton.mp hx
    exact .refuse a
  | reject m a =>
    obtain rfl := List.mem_singleton.mp hx
    exact .refuse a
  | accept m a pi pt es lc hm ht hok =>
    obtain rfl := List.mem_singleton.mp hx
    refine .success m a pi pt es lc rfl hm ?_ hok ?_
    · simp [acceptEntries, followLeader_currentTerm, ht]
    · simp [acceptEntries]
  | idle | submitTimeout | stepDown | gather | ack | backOff => cases hx

/-- A vote request is sent by a candidate and describes its log. -/
theorem out_requestVote (h : Acts cfg n inp n' out) {x : Message NodeId Command} (hx : x ∈ out)
    {c : NodeId} {li : ℤ} {lt : ℕ} (hp : x.payload = .requestVote c li lt) :
    c = cfg.nodeId ∧ x.term = n'.currentTerm ∧ li = n'.lastLogIndex ∧ lt = n'.lastLogTerm := by
  cases h.sends x hx with
  | requestVote peer =>
    cases hp
    exact ⟨rfl, rfl, rfl, rfl⟩
  | batch | deny | grant | refuse | success => cases hp

/-- A granted vote answers a request of the voter's new term and is recorded. -/
theorem out_granted (h : Acts cfg n inp n' out) {x : Message NodeId Command} (hx : x ∈ out)
    {v : NodeId} (hp : x.payload = .requestVoteResponse true v) :
    v = cfg.nodeId ∧ x.term = n'.currentTerm ∧ n'.votedFor = some x.receiverId ∧ n'.log = n.log ∧
      ∃ m li lt, inp = .receive m ∧ m.payload = .requestVote x.receiverId li lt ∧
        m.term = x.term ∧ n'.voteLogOk li lt = true := by
  cases h.sends x hx with
  | grant m c li lt hinp hm hterm hvote hlog hok =>
    cases hp
    exact ⟨rfl, rfl, hvote, hlog, m, li, lt, hinp, hm, hterm, hok⟩
  | requestVote | batch | deny | refuse | success => cases hp

/-- A batch of entries is sent by a leader, from its log as it is after the step. -/
theorem out_appendEntries (h : Acts cfg n inp n' out) {x : Message NodeId Command} (hx : x ∈ out)
    {a : NodeId} {pi : ℤ} {pt : ℕ} {es : List (LogEntry Command)} {lc : ℤ}
    (hp : x.payload = .appendEntries a pi pt es lc) :
    n'.state = .leader ∧ ∃ peer, x = sendAppendEntries cfg n' peer := by
  cases h.sends x hx with
  | batch peer hl => exact ⟨hl, peer, rfl⟩
  | requestVote | deny | grant | refuse | success => cases hp

/-- A success reply answers a batch that the node has just taken over. -/
theorem out_success (h : Acts cfg n inp n' out) {x : Message NodeId Command} (hx : x ∈ out)
    {k : ℤ} {f : NodeId} (hp : x.payload = .appendEntriesResponse true k f) :
    f = cfg.nodeId ∧ x.term = n'.currentTerm ∧
      ∃ m pi pt es lc, inp = .receive m ∧
        m.payload = .appendEntries x.receiverId pi pt es lc ∧ m.term = x.term ∧
        appendLogOk n.log pi pt = true ∧ n'.log = insertEntries n.log (pi + 1).toNat es ∧
        k = pi + es.length := by
  cases h.sends x hx with
  | success m a pi pt es lc hinp hm hterm hok hlog =>
    cases hp
    exact ⟨rfl, rfl, m, pi, pt, es, lc, hinp, hm, hterm, hok, hlog, rfl⟩
  | requestVote | batch | deny | grant | refuse => cases hp

end Acts

end RaftNode

end Raft
