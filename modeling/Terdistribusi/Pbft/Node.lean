import Terdistribusi.Infra.Dict
import Terdistribusi.Infra.Network
import Mathlib.Data.Finset.Card
import Mathlib.Data.List.Sort
import Mathlib.Data.Rat.Defs

/-!
# One PBFT node

The state and the handlers of `PBFTNode` (`src/consensus/pbft.py`). A handler takes the node as it
is and returns the node as it becomes, together with the messages it sends.

`compute_digest` is an argument. A node in Byzantine mode is a node that sends what it likes, so the
mode is not part of the state.
-/

namespace Pbft

open Infra

structure PBFTRequest (Operation : Type) where
  requestId : String
  clientId : String
  operation : Operation
  timestamp : ℚ
  deriving DecidableEq

structure PBFTLogEntry (NodeId Operation Digest : Type) where
  seqNum : ℤ
  view : ℕ
  request : PBFTRequest Operation
  digest : Digest
  prePrepareReceived : Bool := false
  prepares : Finset NodeId := ∅
  commits : Finset NodeId := ∅
  committed : Bool := false

/-- The payloads, one constructor for each `PBFTPhase` that is sent. -/
inductive Payload (Operation Digest : Type)
  | prePrepare (view : ℕ) (seqNum : ℤ) (digest : Digest) (request : PBFTRequest Operation)
  | prepare (view : ℕ) (seqNum : ℤ) (digest : Digest)
  | commit (view : ℕ) (seqNum : ℤ) (digest : Digest)
  deriving DecidableEq

/-- What `PBFTNode.__init__` is called with, and `compute_digest`. -/
structure Config (NodeId Operation Digest : Type) where
  nodeId : NodeId
  peers : List NodeId
  computeDigest : PBFTRequest Operation → Digest

namespace Config

variable {NodeId Operation Digest : Type} [LinearOrder NodeId]

def allNodes (cfg : Config NodeId Operation Digest) : List NodeId :=
  (cfg.nodeId :: cfg.peers).insertionSort (· ≤ ·)

def n (cfg : Config NodeId Operation Digest) : ℕ := cfg.allNodes.length

def f (cfg : Config NodeId Operation Digest) : ℕ := (cfg.n - 1) / 3

theorem n_pos (cfg : Config NodeId Operation Digest) : 0 < cfg.n := by
  rw [n, allNodes, List.length_insertionSort]
  exact Nat.succ_pos _

/-- `self.all_nodes[self.view % self.n]` -/
def primary (cfg : Config NodeId Operation Digest) (view : ℕ) : NodeId :=
  cfg.allNodes.get ⟨view % cfg.n, Nat.mod_lt view cfg.n_pos⟩

end Config

structure PBFTNode (NodeId Operation Digest : Type) where
  view : ℕ := 0
  seqNum : ℤ := 0
  log : Dict ℤ (PBFTLogEntry NodeId Operation Digest) := Dict.empty
  /-- What `_apply` has handed to the callback, in order, with its number. -/
  applied : List (ℤ × PBFTRequest Operation) := []

variable {NodeId Operation Digest : Type} [LinearOrder NodeId] [DecidableEq Digest]

namespace PBFTNode

variable (cfg : Config NodeId Operation Digest)

/-! ## Submitting -/

def broadcastPrePrepare (entry : PBFTLogEntry NodeId Operation Digest) :
    List (Message NodeId (Payload Operation Digest)) :=
  Network.broadcast cfg.nodeId cfg.peers
    (.prePrepare entry.view entry.seqNum entry.digest entry.request)

def submit (request : PBFTRequest Operation) (s : PBFTNode NodeId Operation Digest) :
    Bool × PBFTNode NodeId Operation Digest × List (Message NodeId (Payload Operation Digest)) :=
  if cfg.primary s.view ≠ cfg.nodeId then (false, s, [])
  else
    let seqNum := s.seqNum + 1
    let entry : PBFTLogEntry NodeId Operation Digest :=
      { seqNum := seqNum, view := s.view, request := request, digest := cfg.computeDigest request,
        prePrepareReceived := true }
    (true, { s with seqNum := seqNum, log := s.log.set seqNum entry },
      broadcastPrePrepare cfg entry)

/-! ## The handlers -/

def onPrePrepare (senderId : NodeId) (view : ℕ) (seqNum : ℤ) (digest : Digest)
    (request : PBFTRequest Operation) (s : PBFTNode NodeId Operation Digest) :
    PBFTNode NodeId Operation Digest × List (Message NodeId (Payload Operation Digest)) :=
  if view ≠ s.view then (s, [])
  else if senderId ≠ cfg.primary s.view then (s, [])
  else if digest ≠ cfg.computeDigest request then (s, [])
  else
    let entry := (s.log.get? seqNum).getD
      { seqNum := seqNum, view := view, request := request, digest := digest }
    let entry := { entry with
      prePrepareReceived := true, prepares := insert cfg.nodeId entry.prepares }
    ({ s with log := s.log.set seqNum entry },
      Network.broadcast cfg.nodeId cfg.peers (.prepare view seqNum digest))

def onPrepare (senderId : NodeId) (seqNum : ℤ) (digest : Digest)
    (s : PBFTNode NodeId Operation Digest) :
    PBFTNode NodeId Operation Digest × List (Message NodeId (Payload Operation Digest)) :=
  match s.log.get? seqNum with
  | none => (s, [])
  | some entry =>
    if entry.digest ≠ digest then (s, [])
    else
      let entry := { entry with prepares := insert senderId entry.prepares }
      if entry.prePrepareReceived ∧ 2 * cfg.f ≤ entry.prepares.card ∧ senderId ∉ entry.commits then
        let entry := { entry with commits := insert cfg.nodeId entry.commits }
        ({ s with log := s.log.set seqNum entry },
          Network.broadcast cfg.nodeId cfg.peers (.commit s.view seqNum digest))
      else ({ s with log := s.log.set seqNum entry }, [])

def apply (entry : PBFTLogEntry NodeId Operation Digest) (s : PBFTNode NodeId Operation Digest) :
    PBFTNode NodeId Operation Digest :=
  if entry.seqNum ∈ s.applied.map Prod.fst then s
  else { s with applied := s.applied ++ [(entry.seqNum, entry.request)] }

def onCommit (senderId : NodeId) (seqNum : ℤ) (digest : Digest)
    (s : PBFTNode NodeId Operation Digest) :
    PBFTNode NodeId Operation Digest × List (Message NodeId (Payload Operation Digest)) :=
  match s.log.get? seqNum with
  | none => (s, [])
  | some entry =>
    if entry.digest ≠ digest then (s, [])
    else
      let entry := { entry with commits := insert senderId entry.commits }
      if 2 * cfg.f + 1 ≤ entry.commits.card ∧ ¬ entry.committed then
        let entry := { entry with committed := true }
        (apply entry { s with log := s.log.set seqNum entry }, [])
      else ({ s with log := s.log.set seqNum entry }, [])

/-- `_handle_pre_prepare`, which is registered for all phases. -/
def handlePrePrepare (msg : Message NodeId (Payload Operation Digest))
    (s : PBFTNode NodeId Operation Digest) :
    PBFTNode NodeId Operation Digest × List (Message NodeId (Payload Operation Digest)) :=
  match msg.payload with
  | .prePrepare view seqNum digest request =>
    onPrePrepare cfg msg.senderId view seqNum digest request s
  | .prepare _ seqNum digest => onPrepare cfg msg.senderId seqNum digest s
  | .commit _ seqNum digest => onCommit cfg msg.senderId seqNum digest s

/-- A node takes a `submit` or a message. -/
def act (inp : Input NodeId (PBFTRequest Operation) Unit (Payload Operation Digest))
    (s : PBFTNode NodeId Operation Digest) :
    PBFTNode NodeId Operation Digest × List (Message NodeId (Payload Operation Digest)) :=
  match inp with
  | .call request => (submit cfg request s).2
  | .receive _ msg => handlePrePrepare cfg msg s

end PBFTNode

end Pbft
