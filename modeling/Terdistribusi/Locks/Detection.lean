import Terdistribusi.Locks.Manager

/-!
# The deadlock detection loop

`LockManagerNode._deadlock_detection_loop` on a stable leader. A turn looks for a cycle in the
wait-for graph, and submits the abort of the youngest client of the cycle. The abort waits in the
log while other commands are applied; `submit` returns when it is applied, or when its timer runs
out, and then the loop goes on before. Nothing catches what a turn raises: the loop ends with it.
-/

namespace Locks

open Infra

variable {Client Resource : Type}

/-- The orders in which a turn goes through the sets of the graph. -/
structure SetOrder (Client : Type) [DecidableEq Client] where
  list : Finset Client → List Client
  nodup : ∀ s, (list s).Nodup
  toFinset : ∀ s, (list s).toFinset = s

structure DetectionNode (Client Resource : Type) where
  manager : LockManager Client Resource
  /-- The victims whose aborts are in the log and have not been applied. -/
  submitted : List Client := []
  /-- The loop waits for the last of them. -/
  waiting : Bool := false
  /-- A turn has raised an error. -/
  ended : Bool := false

inductive DetectionEvent (Client Resource : Type) [DecidableEq Client]
  | turn (order : SetOrder Client)
  /-- The timer of the `submit` runs out. -/
  | timeout
  /-- The first of the submitted aborts is applied. -/
  | abort (env : Env Resource)
  /-- A command of somebody else is applied. -/
  | command (cmd : Command Client Resource) (env : Env Resource)

variable [DecidableEq Client] [DecidableEq Resource]

/-- The command that a turn submits when it goes through the sets in this order. -/
def LockManager.detect (limit : ℕ) (order : SetOrder Client) (s : LockManager Client Resource) :
    Except RecursionError (Option (Command Client Resource)) :=
  s.detectDeadlock limit fun u => order.list (s.deadlockDetector.holdersOf u)

namespace DetectionNode

/-- `limit` is the number of nested calls that a turn has room for. -/
def step (limit : ℕ) (n : DetectionNode Client Resource) :
    DetectionEvent Client Resource → Option (DetectionNode Client Resource)
  | .turn order =>
    if n.waiting || n.ended then none
    else match n.manager.detect limit order with
      | .error _ => some { n with ended := true }
      | .ok (some (.abort victim)) =>
        some { n with submitted := n.submitted ++ [victim], waiting := true }
      | .ok _ => some n
  | .timeout => if n.waiting then some { n with waiting := false } else none
  | .abort env =>
    match n.submitted with
    | [] => none
    | victim :: rest => (Locks.step n.manager (.abort victim, env)).map fun s =>
        { n with manager := s, submitted := rest, waiting := n.waiting && !rest.isEmpty }
  | .command cmd env => (Locks.step n.manager (cmd, env)).map fun s => { n with manager := s }

end DetectionNode

end Locks
