import Terdistribusi.Locks.Manager
import Terdistribusi.Raft.Cluster

/-!
# Lock managers over Raft

`LockManagerNode.__init__` makes a `RaftNode` with `_apply_command` as its callback: the lock table
of a node is what the commands make of the empty table that its Raft node has applied, and the
result of a `submit` is what `_apply_command` returns.

The nodes apply the same commands at different times, so each has its own readings of the clock, its
own request ids and its own orders of sets (`Readings`).
-/

namespace Locks

open Infra

variable {Client Resource : Type} [DecidableEq Client] [DecidableEq Resource]

/-- What a node reads when it applies its command number `k` to the table `s`. -/
structure Readings (Client Resource : Type) [DecidableEq Client] [DecidableEq Resource] where
  env : ℕ → LockManager Client Resource → Command Client Resource → Env Resource
  /-- The orders that are read are orders of the sets that are there. -/
  ok : ∀ k s cmd, (env k s cmd).ok s cmd = true

/-- The table of a node that has applied the commands. -/
def tableOf (rd : Readings Client Resource) (defaultLease : Time)
    (cmds : List (Command Client Resource)) : LockManager Client Resource :=
  cmds.zipIdx.foldl (fun s c => (s.applyCommand (rd.env c.2 s c.1) c.1).2)
    { defaultLease := defaultLease }

/-- `_apply_command` as the callback of the Raft node. -/
def lockCallback (rd : Readings Client Resource) (defaultLease : Time)
    (done : List (Command Client Resource)) (cmd : Command Client Resource) : Option Reply :=
  let s := tableOf rd defaultLease done
  some (s.applyCommand (rd.env done.length s cmd) cmd).1

/-- The Raft nodes of the lock managers of a cluster: the members `ms`, with the callbacks that
`LockManagerNode.__init__` passes. -/
def lockManagers {NodeId : Type} (ms : Raft.Members NodeId (Command Client Resource) Reply)
    (rd : NodeId → Readings Client Resource) (defaultLease : NodeId → Time) :
    Raft.Members NodeId (Command Client Resource) Reply :=
  { ms with applyCallback := fun a => lockCallback (rd a) (defaultLease a) }

/-- The lock table of node `a`, `LockManagerNode.locks` and what goes with it. -/
def lockTable {NodeId : Type} (rd : NodeId → Readings Client Resource)
    (defaultLease : NodeId → Time)
    (s : Raft.Cluster NodeId (Command Client Resource) Reply) (a : NodeId) :
    LockManager Client Resource :=
  tableOf (rd a) (defaultLease a) ((s.nodes a).applied.map fun x => x.2.command)

end Locks
