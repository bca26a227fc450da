import Terdistribusi.Infra.Bisect
import Terdistribusi.Queue.Node
import Mathlib.Data.Prod.Lex
import Mathlib.Data.String.Basic

/-!
# The hash ring

`ConsistentHashRing` (`src/nodes/queue_node.py`), and the ring that `QueueNode.__init__` makes. The
hash function is an argument. A position on the ring is a pair of a hash and a node id; pairs and
strings are compared as in Python, from the left.
-/

namespace Queue

open Infra

/-- The node set has no order in the program either; `ring` is kept sorted by `insort`. -/
structure ConsistentHashRing where
  virtualNodes : ℕ
  ring : List (ℕ ×ₗ String) := []
  nodes : Finset String := ∅
  deriving DecidableEq

namespace ConsistentHashRing

/-- The node id of a position. -/
def owner (e : ℕ ×ₗ String) : String := (ofLex e).2

/-- Calls that change a ring. -/
inductive Call
  | addNode (nodeId : String)
  | removeNode (nodeId : String)
  deriving DecidableEq

variable (hash : String → ℕ)

/-- The pair that round `i` of the loop of `add_node` inserts. -/
def position (nodeId : String) (i : ℕ) : ℕ ×ₗ String :=
  toLex (hash (nodeId ++ ":vn" ++ toString i), nodeId)

def addNode (nodeId : String) (r : ConsistentHashRing) : ConsistentHashRing :=
  if nodeId ∈ r.nodes then r
  else
    { r with
      nodes := insert nodeId r.nodes
      ring := (List.range r.virtualNodes).foldl (fun ring i => insort ring (position hash nodeId i))
        r.ring }

def removeNode (nodeId : String) (r : ConsistentHashRing) : ConsistentHashRing :=
  if nodeId ∉ r.nodes then r
  else
    { r with
      nodes := r.nodes.erase nodeId
      ring := r.ring.filter fun e => owner e ≠ nodeId }

/-- `(h, "\xff")`, what `bisect_right` looks for. -/
def probe (key : String) : ℕ ×ₗ String := toLex (hash key, "\xff")

def getNode (key : String) (r : ConsistentHashRing) : Option String :=
  if r.ring = [] then none
  else
    let idx := bisectRight r.ring (probe hash key)
    let idx := if idx = r.ring.length then 0 else idx
    (r.ring[idx]?).map owner

/-- The loop of `get_n_nodes`, `none` when it has not ended after `k` rounds. -/
def walk (n idx : ℕ) (r : ConsistentHashRing) :
    ℕ → ℕ → Finset String → List String → Option (List String)
  | 0, _, _, _ => none
  | k + 1, i, seen, result =>
    if result.length < n ∧ seen.card < r.nodes.card then
      -- behind the last position comes the first one
      let i := if r.ring.length ≤ i then 0 else i
      match r.ring[i]? with
      | none => none
      | some e =>
        let (seen, result) :=
          if owner e ∉ seen then (insert (owner e) seen, result ++ [owner e]) else (seen, result)
        let i := i + 1
        if i = idx ∧ result ≠ [] then some result else walk n idx r k i seen result
    else some result

/-- `get_n_nodes`, `none` when the loop has not ended after `bound` rounds. -/
def getNNodes (bound : ℕ) (key : String) (n : ℕ) (r : ConsistentHashRing) : Option (List String) :=
  if r.ring = [] then some []
  else
    let idx := bisectRight r.ring (probe hash key)
    walk n idx r bound idx ∅ []

def act (r : ConsistentHashRing) : Call → ConsistentHashRing
  | .addNode nodeId => r.addNode hash nodeId
  | .removeNode nodeId => r.removeNode nodeId

/-- A new ring after some calls. -/
def after (virtualNodes : ℕ) (calls : List Call) : ConsistentHashRing :=
  calls.foldl (act hash) { virtualNodes := virtualNodes }

end ConsistentHashRing

/-- The ring of `QueueNode.__init__`: the peers are added, and then the node itself. -/
def QueueNode.ring (hash : String → ℕ) (virtualNodes : ℕ) (nodeId : String) (peers : List String) :
    ConsistentHashRing :=
  let r : ConsistentHashRing := { virtualNodes := virtualNodes }
  (peers.foldl (fun r peer => r.addNode hash peer) r).addNode hash nodeId

/-- The configuration of a node with its own ring. The loop of `get_n_nodes` ends within one round
for each position and one more. -/
def Config.ofRing (hash : String → ℕ) (virtualNodes : ℕ) (nodeId : String) (peers : List String)
    (replicationFactor : ℕ) (visibilityTimeout : Time) : Config String where
  nodeId := nodeId
  peers := peers
  getNNodes := fun key n =>
    let ring := QueueNode.ring hash virtualNodes nodeId peers
    (ring.getNNodes hash (ring.ring.length + 1) key n).getD []
  replicationFactor := replicationFactor
  visibilityTimeout := visibilityTimeout

end Queue
