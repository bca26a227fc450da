import Terdistribusi.Locks.Manager

/-!
# The lease expiry loop

`LockManagerNode._lease_expiry_loop` on a stable leader. A pass reads the clock once and goes
through the resources as they are listed then. It looks at the holders of a resource when it gets
there, and submits one release after the other for those whose lease has run out.

A release that is submitted waits in the log, and other commands may be applied before it. `submit`
returns when the release is applied, or when its timer runs out; then the release is applied later,
and the pass goes on before.
-/

namespace Locks

open Infra

/-- A release that a pass submits, with the time of the pass. -/
structure ExpiryRelease (Client Resource : Type) where
  now : Time
  clientId : Client
  resource : Resource
  deriving DecidableEq

/-- Where the loop is. -/
inductive ExpiryLoop (Client Resource : Type)
  | sleeping
  /-- It waits for a `submit`; `expired` and `resources` are what its two loops have left. -/
  | submitting (now : Time) (resource : Resource) (expired : List Client)
      (resources : List Resource)

structure ExpiryNode (Client Resource : Type) where
  manager : LockManager Client Resource
  loop : ExpiryLoop Client Resource := .sleeping
  /-- The releases in the log that have not been applied. -/
  submitted : List (ExpiryRelease Client Resource) := []

inductive ExpiryEvent (Client Resource : Type)
  /-- A pass begins, at time `now`. -/
  | start (now : Time)
  /-- The `submit` of the pass has returned. -/
  | resume
  /-- The first of the submitted releases is applied. -/
  | release (env : Env Resource)
  /-- A command of somebody else is applied. -/
  | command (cmd : Command Client Resource) (env : Env Resource)

variable {Client Resource : Type}

/-- `[h.client_id for h in state.holders.values() if h.lease_until < now]` -/
def LockState.expired (now : Time) (st : LockState Client Resource) : List Client :=
  (st.holders.values.filter fun h => h.leaseUntil < now).map LockHolder.clientId

variable [DecidableEq Client] [DecidableEq Resource]

namespace ExpiryNode

def submit (now : Time) (client : Client) (resource : Resource)
    (n : ExpiryNode Client Resource) : ExpiryNode Client Resource :=
  { n with submitted :=
      n.submitted ++ [{ now := now, clientId := client, resource := resource }] }

/-- The outer loop of a pass, up to the next `submit` or the end of the pass. -/
def expireResources (now : Time) : List Resource → ExpiryNode Client Resource →
    ExpiryNode Client Resource
  | [], n => { n with loop := .sleeping }
  | resource :: resources, n =>
    match (n.manager.lockState resource).expired now with
    | [] => expireResources now resources n
    | client :: expired =>
      -- the list is made once; what is applied between its submits is not seen
      { n.submit now client resource with loop := .submitting now resource expired resources }

def resume (n : ExpiryNode Client Resource) : Option (ExpiryNode Client Resource) :=
  match n.loop with
  | .sleeping => none
  | .submitting now _ [] resources => some (n.expireResources now resources)
  | .submitting now resource (client :: expired) resources =>
    some { n.submit now client resource with loop := .submitting now resource expired resources }

def step (n : ExpiryNode Client Resource) :
    ExpiryEvent Client Resource → Option (ExpiryNode Client Resource)
  | .start now =>
    match n.loop with
    | .sleeping => some (n.expireResources now n.manager.locks.keys)
    | .submitting _ _ _ _ => none
  | .resume => n.resume
  | .release env =>
    match n.submitted with
    | [] => none
    | e :: rest =>
      (Locks.step n.manager (.release e.clientId e.resource, env)).map fun s =>
        { n with manager := s, submitted := rest }
  | .command cmd env =>
    (Locks.step n.manager (cmd, env)).map fun s => { n with manager := s }

/-- The command that the event applies, if any. -/
def applied (n : ExpiryNode Client Resource) :
    ExpiryEvent Client Resource → Option (Applied Client Resource)
  | .start _ | .resume => none
  | .release env => n.submitted.head?.map fun e => (.release e.clientId e.resource, env)
  | .command cmd env => some (cmd, env)

end ExpiryNode

/-- The runs that start from the empty table, with the loop asleep. -/
abbrev ExpiryRun (Client Resource : Type) [DecidableEq Client] [DecidableEq Resource]
    (defaultLease : Time) :=
  Run ExpiryNode.step
    ({ manager := { defaultLease := defaultLease } } : ExpiryNode Client Resource)

end Locks
