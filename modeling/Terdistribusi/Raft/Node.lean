import Terdistribusi.Infra.Dict
import Mathlib.Data.Finset.Card
import Mathlib.Logic.Function.Iterate

/-!
# One Raft node

The state and the handlers of `RaftNode` (`src/consensus/raft.py`). A handler takes the node as it
is and returns the node as it becomes, together with the messages it sends.

`time.time()` and the election deadline are not part of the state: a tick says whether the
deadline has passed, so every timing is allowed. `persistent` is flattened into the node.
-/

namespace Raft

open Infra

inductive RaftState
  | follower
  | candidate
  | leader
  deriving DecidableEq, Repr

structure LogEntry (Command : Type) where
  term : ℕ
  index : ℕ
  command : Command
  deriving DecidableEq, Repr

/--
The `asyncio.Future` of a `submit` call.

`done` keeps the entry whose application set the result next to the result.
-/
inductive Future (Command Result : Type)
  | pending
  | done (entry : LogEntry Command) (result : Option Result)
  | cancelled
  deriving DecidableEq, Repr

/-- A `submit` call that got past the leader check: its local variables. -/
structure Call (Command Result : Type) where
  index : ℕ
  entry : LogEntry Command
  fut : Future Command Result
  deriving DecidableEq, Repr

/-- The arguments of `RaftNode.__init__` that the handlers read.

`applyCallback done c` is what the callback returns for `c` after the commands `done`; `none` stands
for no callback, for `None` and for an exception, which `_apply_committed` all treat alike. -/
structure Config (NodeId Command Result : Type) where
  nodeId : NodeId
  peers : List NodeId
  applyCallback : List Command → Command → Option Result

structure RaftNode (NodeId Command Result : Type) where
  currentTerm : ℕ := 0
  votedFor : Option NodeId := none
  log : List (LogEntry Command) := []
  state : RaftState := .follower
  commitIndex : ℤ := -1
  lastApplied : ℤ := -1
  leaderId : Option NodeId := none
  nextIndex : Dict NodeId ℤ := Dict.empty
  matchIndex : Dict NodeId ℤ := Dict.empty
  votesReceived : Finset NodeId := ∅
  /-- `_pending_commands`: a future is named by the place of its call in `calls`. -/
  pendingCommands : Dict ℕ ℕ := Dict.empty
  calls : List (Call Command Result) := []
  /-- What `_apply_committed` has applied, in order: `last_applied` and the entry. -/
  applied : List (ℤ × LogEntry Command) := []

/-- The payloads, one constructor for each message type that Raft registers. -/
inductive Payload (NodeId Command : Type)
  | requestVote (candidateId : NodeId) (lastLogIndex : ℤ) (lastLogTerm : ℕ)
  | requestVoteResponse (voteGranted : Bool) (voterId : NodeId)
  | appendEntries (leaderId : NodeId) (prevLogIndex : ℤ) (prevLogTerm : ℕ)
      (entries : List (LogEntry Command)) (leaderCommit : ℤ)
  | appendEntriesResponse (success : Bool) (matchIndex : ℤ) (followerId : NodeId)
  deriving DecidableEq, Repr

structure Message (NodeId Command : Type) where
  senderId : NodeId
  receiverId : NodeId
  payload : Payload NodeId Command
  term : ℕ
  deriving DecidableEq, Repr

variable {NodeId Command Result : Type}

namespace RaftNode

/-! ## The log -/

def lastLogIndex (n : RaftNode NodeId Command Result) : ℤ := n.log.length - 1

def lastLogTerm (n : RaftNode NodeId Command Result) : ℕ :=
  match n.log.getLast? with
  | none => 0
  | some e => e.term

/-- The body of the `for i, e in enumerate(entries)` loop of `_handle_append_entries`. -/
def insertEntry (log : List (LogEntry Command)) (pos : ℕ) (e : LogEntry Command) :
    List (LogEntry Command) :=
  match log[pos]? with
  | some old => if old.term ≠ e.term then log.take pos ++ [e] else log
  | none => log ++ [e]

def insertEntries : List (LogEntry Command) → ℕ → List (LogEntry Command) → List (LogEntry Command)
  | log, _, [] => log
  | log, pos, e :: es => insertEntries (insertEntry log pos e) (pos + 1) es

/-! ## Applying committed entries -/

/-- `fut.set_result(result)` unless the future is done. -/
def setResult (entry : LogEntry Command) (result : Option Result) (c : Call Command Result) :
    Call Command Result :=
  match c.fut with
  | .pending => { c with fut := .done entry result }
  | _ => c

/-- The body of the `while` loop of `_apply_committed`.

Both commit rules keep `commit_index` inside the log, so the lookup succeeds
(`applyCommitted_reads`). -/
def applyNext (cfg : Config NodeId Command Result) (n : RaftNode NodeId Command Result) :
    RaftNode NodeId Command Result :=
  match n.log[(n.lastApplied + 1).toNat]? with
  | none => { n with lastApplied := n.lastApplied + 1 }
  | some entry =>
    match n.pendingCommands.get? entry.index with
    | none =>
      { n with
        lastApplied := n.lastApplied + 1
        applied := n.applied ++ [(n.lastApplied + 1, entry)] }
    | some fut =>
      { n with
        lastApplied := n.lastApplied + 1
        applied := n.applied ++ [(n.lastApplied + 1, entry)]
        pendingCommands := n.pendingCommands.erase entry.index
        calls := n.calls.modify fut (setResult entry
          (cfg.applyCallback (n.applied.map fun x => x.2.command) entry.command)) }

/-- `while self.last_applied < self.commit_index`: each turn raises `last_applied` by one and
leaves `commit_index` alone. -/
def applyCommitted (cfg : Config NodeId Command Result) (n : RaftNode NodeId Command Result) :
    RaftNode NodeId Command Result :=
  (applyNext cfg)^[(n.commitIndex - n.lastApplied).toNat] n

/-! ## Changes of state -/

def becomeFollower (term : ℕ) (n : RaftNode NodeId Command Result) :
    RaftNode NodeId Command Result :=
  if term > n.currentTerm then
    { n with currentTerm := term, votedFor := none, state := .follower }
  else { n with state := .follower }

def becomeCandidate (cfg : Config NodeId Command Result) (n : RaftNode NodeId Command Result) :
    RaftNode NodeId Command Result :=
  { n with
    state := .candidate
    currentTerm := n.currentTerm + 1
    votedFor := some cfg.nodeId
    votesReceived := {cfg.nodeId} }

section

variable [DecidableEq NodeId]

def becomeLeader (cfg : Config NodeId Command Result) (n : RaftNode NodeId Command Result) :
    RaftNode NodeId Command Result :=
  { n with
    state := .leader
    leaderId := some cfg.nodeId
    nextIndex := n.nextIndex.setAll cfg.peers (n.lastLogIndex + 1)
    matchIndex := n.matchIndex.setAll cfg.peers (-1) }

/-! ## Elections -/

/-- `(len(self.peers) + 1) // 2 + 1` -/
def majority (cfg : Config NodeId Command Result) : ℕ := (cfg.peers.length + 1) / 2 + 1

def startElection (cfg : Config NodeId Command Result) (n : RaftNode NodeId Command Result) :
    List (Message NodeId Command) :=
  cfg.peers.map fun peer =>
    { senderId := cfg.nodeId
      receiverId := peer
      payload := .requestVote cfg.nodeId n.lastLogIndex n.lastLogTerm
      term := n.currentTerm }

/-- `log_ok` of `_handle_request_vote`. -/
def voteLogOk (n : RaftNode NodeId Command Result) (lastLogIndex : ℤ) (lastLogTerm : ℕ) : Bool :=
  n.lastLogTerm < lastLogTerm || (lastLogTerm = n.lastLogTerm && n.lastLogIndex ≤ lastLogIndex)

def alreadyVoted (n : RaftNode NodeId Command Result) (candidateId : NodeId) : Bool :=
  match n.votedFor with
  | none => false
  | some c => c ≠ candidateId

/-- `if term > self.persistent.current_term: self._become_follower(term)` -/
def catchUp (term : ℕ) (n : RaftNode NodeId Command Result) : RaftNode NodeId Command Result :=
  if term > n.currentTerm then n.becomeFollower term else n

def voteResponse (cfg : Config NodeId Command Result) (n : RaftNode NodeId Command Result)
    (candidateId : NodeId) (granted : Bool) : Message NodeId Command :=
  { senderId := cfg.nodeId
    receiverId := candidateId
    payload := .requestVoteResponse granted cfg.nodeId
    term := n.currentTerm }

def handleRequestVote (cfg : Config NodeId Command Result) (term : ℕ) (candidateId : NodeId)
    (lastLogIndex : ℤ) (lastLogTerm : ℕ) (n : RaftNode NodeId Command Result) :
    RaftNode NodeId Command Result × List (Message NodeId Command) :=
  if term < n.currentTerm then
    (n, [voteResponse cfg n candidateId false])
  else
    let n := n.catchUp term
    if n.voteLogOk lastLogIndex lastLogTerm && !n.alreadyVoted candidateId then
      let n := { n with votedFor := some candidateId }
      (n, [voteResponse cfg n candidateId true])
    else
      (n, [voteResponse cfg n candidateId false])

/-! ## Replication: the leader's side -/

/-- `self.persistent.log[i].term` if `i` is inside the log and `0` otherwise. -/
def termAt (log : List (LogEntry Command)) (i : ℤ) : ℕ :=
  if 0 ≤ i ∧ i < log.length then ((log[i.toNat]?).map LogEntry.term).getD 0 else 0

/-- The slice `[next_idx : next_idx + 50]` of the log. -/
def batch (log : List (LogEntry Command)) (nextIdx : ℤ) : List (LogEntry Command) :=
  if nextIdx < log.length then (log.drop nextIdx.toNat).take 50 else []

def sendAppendEntries (cfg : Config NodeId Command Result) (n : RaftNode NodeId Command Result)
    (peer : NodeId) : Message NodeId Command :=
  let nextIdx := (n.nextIndex.get? peer).getD 0
  { senderId := cfg.nodeId
    receiverId := peer
    payload := .appendEntries cfg.nodeId (nextIdx - 1) (termAt n.log (nextIdx - 1))
      (batch n.log nextIdx) n.commitIndex
    term := n.currentTerm }

def broadcastHeartbeat (cfg : Config NodeId Command Result)
    (n : RaftNode NodeId Command Result) : List (Message NodeId Command) :=
  cfg.peers.map (sendAppendEntries cfg n)

def handleVoteResponse (cfg : Config NodeId Command Result) (term : ℕ) (voteGranted : Bool)
    (voterId : NodeId) (n : RaftNode NodeId Command Result) :
    RaftNode NodeId Command Result × List (Message NodeId Command) :=
  if n.state ≠ .candidate then (n, [])
  else if term > n.currentTerm then (n.becomeFollower term, [])
  else if term < n.currentTerm then (n, [])
  else if voteGranted then
    let n := { n with votesReceived := insert voterId n.votesReceived }
    if majority cfg ≤ n.votesReceived.card then
      let n := n.becomeLeader cfg
      (n, broadcastHeartbeat cfg n)
    else (n, [])
  else (n, [])

/-- `range(hi, lo, -1)` -/
def rangeDown (hi lo : ℤ) : List ℤ := (List.range (hi - lo).toNat).map fun i : ℕ => hi - i

/-- The loop body of `_update_commit_index` for position `k`: whether it reaches the commit. -/
def canCommit (cfg : Config NodeId Command Result) (n : RaftNode NodeId Command Result) (k : ℤ) :
    Bool :=
  if k < 0 ∨ k ≥ n.log.length then false
  else if termAt n.log k ≠ n.currentTerm then false
  else majority cfg ≤
    1 + (cfg.peers.filter fun peer => k ≤ (n.matchIndex.get? peer).getD (-1)).length

def updateCommitIndex (cfg : Config NodeId Command Result) (n : RaftNode NodeId Command Result) :
    RaftNode NodeId Command Result :=
  match (rangeDown n.lastLogIndex n.commitIndex).find? (canCommit cfg n) with
  | none => n
  | some k => applyCommitted cfg { n with commitIndex := k }

def handleAppendResponse (cfg : Config NodeId Command Result) (term : ℕ) (success : Bool)
    (matchIndex : ℤ) (followerId : NodeId) (n : RaftNode NodeId Command Result) :
    RaftNode NodeId Command Result × List (Message NodeId Command) :=
  if n.state ≠ .leader then (n, [])
  else if term > n.currentTerm then (n.becomeFollower term, [])
  else if success then
    (updateCommitIndex cfg
      { n with
        matchIndex := n.matchIndex.set followerId matchIndex
        nextIndex := n.nextIndex.set followerId (matchIndex + 1) }, [])
  else
    ({ n with
        nextIndex := n.nextIndex.set followerId
          (max 0 ((n.nextIndex.get? followerId).getD 0 - 1)) }, [])

/-! ## Replication: the follower's side -/

/-- `log_ok` of `_handle_append_entries`. -/
def appendLogOk (log : List (LogEntry Command)) (prevLogIndex : ℤ) (prevLogTerm : ℕ) : Bool :=
  prevLogIndex = -1 ||
    (prevLogIndex < log.length && (log[prevLogIndex.toNat]?).map LogEntry.term = some prevLogTerm)

/-- The commit rule of the follower. -/
def followCommit (cfg : Config NodeId Command Result) (leaderCommit : ℤ)
    (n : RaftNode NodeId Command Result) : RaftNode NodeId Command Result :=
  if leaderCommit > n.commitIndex then
    applyCommitted cfg { n with commitIndex := min leaderCommit n.lastLogIndex }
  else n

def appendResponse (cfg : Config NodeId Command Result) (n : RaftNode NodeId Command Result)
    (leaderId : NodeId) (success : Bool) (matchIndex : ℤ) : Message NodeId Command :=
  { senderId := cfg.nodeId
    receiverId := leaderId
    payload := .appendEntriesResponse success matchIndex cfg.nodeId
    term := n.currentTerm }

/-- What a node becomes on a message of the leader of `term`. -/
def followLeader (term : ℕ) (leaderId : NodeId) (n : RaftNode NodeId Command Result) :
    RaftNode NodeId Command Result :=
  { n.catchUp term with state := .follower, leaderId := some leaderId }

def handleAppendEntries (cfg : Config NodeId Command Result) (term : ℕ) (leaderId : NodeId)
    (prevLogIndex : ℤ) (prevLogTerm : ℕ) (entries : List (LogEntry Command)) (leaderCommit : ℤ)
    (n : RaftNode NodeId Command Result) :
    RaftNode NodeId Command Result × List (Message NodeId Command) :=
  if term < n.currentTerm then
    (n, [appendResponse cfg n leaderId false (-1)])
  else
    let n := n.followLeader term leaderId
    if appendLogOk n.log prevLogIndex prevLogTerm then
      let n := { n with log := insertEntries n.log (prevLogIndex + 1).toNat entries }
      let n := followCommit cfg leaderCommit n
      (n, [appendResponse cfg n leaderId true (prevLogIndex + entries.length)])
    else
      (n, [appendResponse cfg n leaderId false (-1)])

/-! ## Commands -/

/-- The entry that `submit` makes of a command. -/
def newEntry (n : RaftNode NodeId Command Result) (command : Command) : LogEntry Command :=
  { term := n.currentTerm, index := n.log.length, command := command }

/-- `submit` appends the entry and registers a fresh future under its index. -/
def appendCommand (command : Command) (n : RaftNode NodeId Command Result) :
    RaftNode NodeId Command Result :=
  { n with
    log := n.log ++ [n.newEntry command]
    pendingCommands := n.pendingCommands.set n.log.length n.calls.length
    calls := n.calls ++
      [{ index := n.log.length, entry := n.newEntry command, fut := .pending }] }

/-- The part of `submit` before it waits for the future. -/
def submit (cfg : Config NodeId Command Result) (command : Command)
    (n : RaftNode NodeId Command Result) :
    RaftNode NodeId Command Result × List (Message NodeId Command) :=
  if n.state ≠ .leader then (n, [])
  else
    let n := n.appendCommand command
    (n, broadcastHeartbeat cfg n)

/-- `asyncio.TimeoutError` in the call number `k` of `submit`. -/
def submitTimeout (k : ℕ) (n : RaftNode NodeId Command Result) : RaftNode NodeId Command Result :=
  match n.calls[k]? with
  | some { index, entry, fut := .pending } =>
    { n with
      calls := n.calls.set k { index := index, entry := entry, fut := .cancelled }
      pendingCommands := n.pendingCommands.erase index }
  | _ => n

/-! ## One step of a node -/

end

end RaftNode

/-- What can happen at a node. `tick true` is a turn of `_main_loop` at or after the election
deadline. -/
inductive Input (NodeId Command : Type)
  | tick (expired : Bool)
  | submit (command : Command)
  | submitTimeout (call : ℕ)
  | receive (m : Message NodeId Command)
  deriving DecidableEq, Repr

namespace RaftNode

variable [DecidableEq NodeId]

/-- A turn of `_main_loop`. -/
def mainLoop (cfg : Config NodeId Command Result) (expired : Bool)
    (n : RaftNode NodeId Command Result) :
    RaftNode NodeId Command Result × List (Message NodeId Command) :=
  match n.state with
  | .leader => (n, broadcastHeartbeat cfg n)
  | _ =>
    if expired then
      let n := n.becomeCandidate cfg
      (n, startElection cfg n)
    else (n, [])

/-- `dispatch_messages`: the registered handler of the message's type. -/
def dispatch (cfg : Config NodeId Command Result) (m : Message NodeId Command)
    (n : RaftNode NodeId Command Result) :
    RaftNode NodeId Command Result × List (Message NodeId Command) :=
  match m.payload with
  | .requestVote candidateId lastLogIndex lastLogTerm =>
    handleRequestVote cfg m.term candidateId lastLogIndex lastLogTerm n
  | .requestVoteResponse voteGranted voterId =>
    handleVoteResponse cfg m.term voteGranted voterId n
  | .appendEntries leaderId prevLogIndex prevLogTerm entries leaderCommit =>
    handleAppendEntries cfg m.term leaderId prevLogIndex prevLogTerm entries leaderCommit n
  | .appendEntriesResponse success matchIndex followerId =>
    handleAppendResponse cfg m.term success matchIndex followerId n

def act (cfg : Config NodeId Command Result) (inp : Input NodeId Command)
    (n : RaftNode NodeId Command Result) :
    RaftNode NodeId Command Result × List (Message NodeId Command) :=
  match inp with
  | .tick expired => n.mainLoop cfg expired
  | .submit command => n.submit cfg command
  | .submitTimeout call => (n.submitTimeout call, [])
  | .receive m => n.dispatch cfg m

end RaftNode

end Raft
