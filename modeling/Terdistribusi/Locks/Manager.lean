import Terdistribusi.Infra.Dfs
import Terdistribusi.Infra.Dict
import Terdistribusi.Infra.Run
import Mathlib.Data.Rat.Defs
import Mathlib.Algebra.Order.Field.Rat
import Mathlib.Data.List.MinMax

/-!
# The lock manager

The replicated state of `LockManagerNode` and of its `DeadlockDetector`
(`src/nodes/lock_manager.py`), and the commands that `_apply_command` applies to it.

What a command reads besides the state is an argument (`Env`): the readings of `time.time()`, the
`uuid` of a new request and the order in which `_do_release_all` goes through a set.
-/

namespace Locks

open Infra

/-- What `time.time()` returns. -/
abbrev Time := ℚ

inductive LockMode
  | shared
  | exclusive
  deriving DecidableEq, Repr

structure LockHolder (Client : Type) where
  clientId : Client
  mode : LockMode
  acquiredAt : Time
  leaseUntil : Time
  deriving DecidableEq, Repr

structure LockRequest (Client Resource : Type) where
  requestId : ℕ
  clientId : Client
  resource : Resource
  mode : LockMode
  timestamp : Time
  deriving DecidableEq, Repr

structure LockState (Client Resource : Type) where
  resource : Resource
  holders : Dict Client (LockHolder Client) := Dict.empty
  waiters : List (LockRequest Client Resource) := []

variable {Client Resource : Type}

namespace LockState

/-- `len(self.holders) > 0` -/
def isHeld (st : LockState Client Resource) : Bool := 0 < st.holders.values.length

/-- The `mode` property: `None` without holders, exclusive if any holder is. -/
def mode (st : LockState Client Resource) : Option LockMode :=
  if st.isHeld then
    if st.holders.values.any fun h => h.mode = .exclusive then some .exclusive else some .shared
  else none

/-- The two conditions under which `_do_acquire` and `_promote_waiters` grant a request: the
resource is free, or both the request and the lock are shared. -/
def admits (st : LockState Client Resource) (m : LockMode) : Bool :=
  !st.isHeld || (m = .shared && st.mode = some .shared)

end LockState

variable [DecidableEq Client] [DecidableEq Resource]

/-! ## Deadlock detection -/

/-- What Python raises when calls are nested too deep. -/
inductive RecursionError
  | maximumDepthExceeded
  deriving DecidableEq, Repr

structure DeadlockDetector (Client : Type) where
  waitFor : Dict Client (Finset Client) := Dict.empty
  clientAge : Dict Client Time := Dict.empty

namespace DeadlockDetector

/-- `self.wait_for.get(u, set())` -/
def holdersOf (d : DeadlockDetector Client) (u : Client) : Finset Client :=
  (d.waitFor.get? u).getD ∅

def addWait (waiter holder : Client) (d : DeadlockDetector Client) : DeadlockDetector Client :=
  if waiter = holder then d
  else { d with waitFor := d.waitFor.set waiter (insert holder (d.holdersOf waiter)) }

/-- The body of the loop of `remove_client`. -/
def discardHolder (client : Client) (g : Dict Client (Finset Client)) (w : Client) :
    Dict Client (Finset Client) :=
  let rest := ((g.get? w).getD ∅).erase client
  if rest = ∅ then g.erase w else g.set w rest

def removeClient (client : Client) (d : DeadlockDetector Client) : DeadlockDetector Client :=
  let waitFor := d.waitFor.erase client
  { waitFor := waitFor.keys.foldl (discardHolder client) waitFor
    clientAge := d.clientAge.erase client }

def setClientAge (client : Client) (ts : Time) (d : DeadlockDetector Client) :
    DeadlockDetector Client :=
  if d.clientAge.contains client then d
  else { d with clientAge := d.clientAge.set client ts }

/-- `detect_cycle`; `order u` is the order in which the loop over the set `wait_for[u]` goes, and
`limit` the number of nested calls of `dfs` that Python's recursion limit leaves room for. -/
def detectCycle (limit : ℕ) (order : Client → List Client) (d : DeadlockDetector Client) :
    Except RecursionError (Option (List Client)) :=
  match Dfs.findCycle order limit d.waitFor.keys with
  | .found cycle => .ok (some cycle)
  | .done _ => .ok none
  | .tooDeep => .error .maximumDepthExceeded

/-- The youngest client of the cycle, the first one of several: `max` with the key
`self.client_age.get(c, 0.0)`. -/
def selectVictim (d : DeadlockDetector Client) (cycle : List Client) : Option Client :=
  cycle.argmax fun c => (d.clientAge.get? c).getD 0

end DeadlockDetector

/-! ## The state -/

/-- The state that the commands change, and `default_lease`, which they read. -/
structure LockManager (Client Resource : Type) where
  locks : Dict Resource (LockState Client Resource) := Dict.empty
  clientLocks : Dict Client (Finset Resource) := Dict.empty
  deadlockDetector : DeadlockDetector Client := {}
  defaultLease : Time

namespace LockManager

/-- `self.locks.setdefault(resource, LockState(resource=resource))` -/
def lockState (s : LockManager Client Resource) (r : Resource) : LockState Client Resource :=
  (s.locks.get? r).getD { resource := r }

/-- `self.client_locks.get(client_id, set())` -/
def locksOf (s : LockManager Client Resource) (c : Client) : Finset Resource :=
  (s.clientLocks.get? c).getD ∅

/-- `client_locks[client_id].add(resource)` -/
def addLock (client : Client) (resource : Resource) (cl : Dict Client (Finset Resource)) :
    Dict Client (Finset Resource) :=
  cl.set client (insert resource ((cl.get? client).getD ∅))

/-- `client_locks[client_id].discard(resource)` -/
def discardLock (client : Client) (resource : Resource) (cl : Dict Client (Finset Resource)) :
    Dict Client (Finset Resource) :=
  cl.set client (((cl.get? client).getD ∅).erase resource)

/-! ## Acquiring -/

def doAcquire (clock : ℕ → Time) (requestId : ℕ) (client : Client) (resource : Resource)
    (mode : LockMode) (lease : Time) (s : LockManager Client Resource) :
    Bool × LockManager Client Resource :=
  let state := s.lockState resource
  let detector := s.deadlockDetector.setClientAge client (clock 0)
  if state.admits mode then
    let holder : LockHolder Client :=
      { clientId := client, mode := mode, acquiredAt := clock 1, leaseUntil := clock 2 + lease }
    (true, { s with
      locks := s.locks.set resource { state with holders := state.holders.set client holder }
      clientLocks := addLock client resource s.clientLocks
      deadlockDetector := detector })
  else
    let request : LockRequest Client Resource :=
      { requestId := requestId, clientId := client, resource := resource, mode := mode,
        timestamp := clock 1 }
    let waiters :=
      if state.waiters.any fun w => w.clientId = client then state.waiters
      else state.waiters ++ [request]
    (false, { s with
      locks := s.locks.set resource { state with waiters := waiters }
      deadlockDetector := state.holders.keys.foldl (fun d holderId =>
        if holderId ≠ client then d.addWait client holderId else d) detector })

/-! ## Releasing -/

/-- The loop of `_promote_waiters` over `waiters`, the queue of `state`: each grant reads the clock
twice. -/
def promoteLoop (defaultLease : Time) (clock : ℕ → Time) :
    ℕ → List (LockRequest Client Resource) → LockState Client Resource →
      Dict Client (Finset Resource) → LockState Client Resource × Dict Client (Finset Resource)
  | _, [], state, clientLocks => (state, clientLocks)
  | k, req :: rest, state, clientLocks =>
    if state.admits req.mode then
      promoteLoop defaultLease clock (k + 2) rest
        { state with
          holders := state.holders.set req.clientId
            { clientId := req.clientId, mode := req.mode, acquiredAt := clock k,
              leaseUntil := clock (k + 1) + defaultLease }
          waiters := rest }
        (addLock req.clientId state.resource clientLocks)
    else (state, clientLocks)

def promoteWaiters (clock : ℕ → Time) (state : LockState Client Resource)
    (s : LockManager Client Resource) : LockManager Client Resource :=
  let p := promoteLoop s.defaultLease clock 0 state.waiters state s.clientLocks
  { s with locks := s.locks.set state.resource p.1, clientLocks := p.2 }

def doRelease (clock : ℕ → Time) (client : Client) (resource : Resource)
    (s : LockManager Client Resource) : Bool × LockManager Client Resource :=
  match s.locks.get? resource with
  | none => (false, s)
  | some state =>
    if state.holders.contains client then
      let state := { state with holders := state.holders.erase client }
      (true, promoteWaiters clock state { s with
        clientLocks := discardLock client resource s.clientLocks
        deadlockDetector :=
          if state.isHeld then s.deadlockDetector else s.deadlockDetector.removeClient client })
    else (false, s)

/-- The loop of `_do_release_all`, with the number of releases that returned `True`. -/
def releaseEach (clock : ℕ → ℕ → Time) (client : Client) :
    ℕ → List Resource → ℕ → LockManager Client Resource → ℕ × LockManager Client Resource
  | _, [], count, s => (count, s)
  | i, resource :: rest, count, s =>
    let p := s.doRelease (clock i) client resource
    releaseEach clock client (i + 1) rest (if p.1 then count + 1 else count) p.2

/-- `order` lists the set `client_locks[client_id]` as the loop goes through it. -/
def doReleaseAll (clock : ℕ → ℕ → Time) (order : List Resource) (client : Client)
    (s : LockManager Client Resource) : ℕ × LockManager Client Resource :=
  let p := releaseEach clock client 0 order 0 s
  (p.1, { p.2 with deadlockDetector := p.2.deadlockDetector.removeClient client })

end LockManager

/-! ## Commands -/

inductive Command (Client Resource : Type)
  | acquire (clientId : Client) (resource : Resource) (mode : LockMode) (lease : Option Time)
  | release (clientId : Client) (resource : Resource)
  | releaseAll (clientId : Client)
  | abort (clientId : Client)
  deriving DecidableEq, Repr

/-- What `_apply_command` returns. -/
inductive Reply
  | flag (b : Bool)
  | count (n : ℕ)
  deriving DecidableEq, Repr

/-- What applying one command reads besides the state: reading `k` of the clock in its release
number `i` (an `acquire` or a `release` has number `0`), the id of a request it makes, and the order
of the set that `release_all` goes through. -/
structure Env (Resource : Type) where
  clock : ℕ → ℕ → Time
  requestId : ℕ
  order : List Resource

namespace LockManager

def applyCommand (env : Env Resource) (cmd : Command Client Resource)
    (s : LockManager Client Resource) : Reply × LockManager Client Resource :=
  match cmd with
  | .acquire client resource mode lease =>
    let p := s.doAcquire (env.clock 0) env.requestId client resource mode
      (lease.getD s.defaultLease)
    (.flag p.1, p.2)
  | .release client resource =>
    let p := s.doRelease (env.clock 0) client resource
    (.flag p.1, p.2)
  | .releaseAll client | .abort client =>
    let p := s.doReleaseAll env.clock env.order client
    (.count p.1, p.2)

/-- A turn of `_deadlock_detection_loop` on the leader: the command that it submits. -/
def detectDeadlock (limit : ℕ) (order : Client → List Client) (s : LockManager Client Resource) :
    Except RecursionError (Option (Command Client Resource)) :=
  match s.deadlockDetector.detectCycle limit order with
  | .error e => .error e
  | .ok none => .ok none
  | .ok (some cycle) => .ok ((s.deadlockDetector.selectVictim cycle).map Command.abort)

end LockManager

/-- `env.order` is an order of the set that the command goes through. -/
def Env.ok (s : LockManager Client Resource) (cmd : Command Client Resource)
    (env : Env Resource) : Bool :=
  match cmd with
  | .releaseAll client | .abort client =>
    env.order.Nodup && env.order.toFinset = s.locksOf client
  | _ => true

/-- One applied command, with everything it reads. -/
abbrev Applied (Client Resource : Type) := Command Client Resource × Env Resource

/-- A command is applied; `none` where the environment does not fit the state. -/
def step (s : LockManager Client Resource) (e : Applied Client Resource) :
    Option (LockManager Client Resource) :=
  if e.2.ok s e.1 then some (s.applyCommand e.2 e.1).2 else none

/-- The sequences of applied commands that start from the empty table. -/
abbrev CommandRun (Client Resource : Type) [DecidableEq Client] [DecidableEq Resource]
    (defaultLease : Time) :=
  Run step ({ defaultLease := defaultLease } : LockManager Client Resource)

end Locks
