import Terdistribusi.Locks.Refinement

/-!
# The blocking acquire

The coroutine `LockManagerNode.acquire` on a stable leader: any number of calls run at the same
time, and between two iterations of the loop of one call other calls and other commands may change
the lock table.

Every submit is committed and applied, so one iteration reads the clock and applies one `acquire`
command. Readings are arbitrary: what is applied between the reading and the command of an
iteration stands before the iteration. Besides the calls only the commands that release are applied.
-/

namespace Locks

open Infra

/-- One call of `acquire`. -/
structure Call (Client Resource : Type) where
  clientId : Client
  resource : Resource
  mode : LockMode
  lease : Time
  deadline : Time
  /-- What the call has returned, `none` while its loop goes on. -/
  result : Option Bool := none
  /-- Whether the client held the resource when it called. The source does not keep this. -/
  heldBefore : Bool
  deriving DecidableEq, Repr

namespace Call

variable {Client Resource : Type}

/-- The command that the loop submits. -/
def command (call : Call Client Resource) : Command Client Resource :=
  .acquire call.clientId call.resource call.mode (some call.lease)

end Call

structure LockManagerNode (Client Resource : Type) where
  manager : LockManager Client Resource
  calls : List (Call Client Resource) := []

/-- What can happen on the leader. -/
inductive Event (Client Resource : Type)
  /-- A client calls `acquire`. -/
  | call (clientId : Client) (resource : Resource) (mode : LockMode) (timeout : Time)
      (lease : Option Time) (now : Time)
  /-- The loop of call `k` is entered again, at time `now`. -/
  | iterate (k : ℕ) (now : Time) (env : Env Resource)
  /-- A command that releases is applied. -/
  | command (cmd : Command Client Resource) (env : Env Resource)

variable {Client Resource : Type} [DecidableEq Client] [DecidableEq Resource]

namespace LockManagerNode

/-- What call `k` has returned. -/
def result (n : LockManagerNode Client Resource) (k : ℕ) : Option Bool :=
  n.calls[k]?.bind Call.result

def acquire (clientId : Client) (resource : Resource) (mode : LockMode) (timeout : Time)
    (lease : Option Time) (now : Time) (n : LockManagerNode Client Resource) :
    LockManagerNode Client Resource :=
  { n with calls := n.calls ++ [{
      clientId := clientId
      resource := resource
      mode := mode
      lease := lease.getD n.manager.defaultLease
      deadline := now + timeout
      heldBefore := Holds n.manager clientId resource }] }

/-- One iteration of the loop of call `k`, which is still running. -/
def iterate (k : ℕ) (call : Call Client Resource) (now : Time) (env : Env Resource)
    (n : LockManagerNode Client Resource) : LockManagerNode Client Resource :=
  if now < call.deadline then
    let p := n.manager.applyCommand env call.command
    { manager := p.2
      calls :=
        if p.1 = .flag true then n.calls.set k { call with result := some true } else n.calls }
  else { n with calls := n.calls.set k { call with result := some false } }

def step (n : LockManagerNode Client Resource) :
    Event Client Resource → Option (LockManagerNode Client Resource)
  | .call c r m timeout lease now => some (n.acquire c r m timeout lease now)
  | .iterate k now env =>
    match n.calls[k]? with
    | none => none
    | some call => if call.result = none then some (n.iterate k call now env) else none
  | .command (.acquire _ _ _ _) _ => none
  | .command cmd env => (Locks.step n.manager (cmd, env)).map fun s => { n with manager := s }

/-- The command that the event applies, if any. -/
def applied (n : LockManagerNode Client Resource) :
    Event Client Resource → Option (Applied Client Resource)
  | .call _ _ _ _ _ _ => none
  | .iterate k now env =>
    match n.calls[k]? with
    | none => none
    | some call => if now < call.deadline then some (call.command, env) else none
  | .command cmd env => some (cmd, env)

end LockManagerNode

/-- The runs of the leader that start from the empty table and without calls. -/
abbrev NodeRun (Client Resource : Type) [DecidableEq Client] [DecidableEq Resource]
    (defaultLease : Time) :=
  Run LockManagerNode.step
    ({ manager := { defaultLease := defaultLease } } : LockManagerNode Client Resource)

/-! ## The node refines the lock manager -/

namespace LockManagerNode

variable {n n' : LockManagerNode Client Resource} {e : Event Client Resource}

/-- What an event does: it starts a call, it applies a command, or it ends a call at its
deadline. -/
theorem step_cases (h : n.step e = some n') :
    (n.applied e = none ∧ ∃ call, n' = { n with calls := n.calls ++ [call] }) ∨
    (∃ cmd env, n.applied e = some (cmd, env) ∧ e = .command cmd env ∧
      Locks.step n.manager (cmd, env) = some n'.manager ∧ n'.calls = n.calls) ∨
    ∃ k now env call, e = .iterate k now env ∧ n.calls[k]? = some call ∧ call.result = none ∧
      n' = n.iterate k call now env ∧
      n.applied e = if now < call.deadline then some (call.command, env) else none := by
  cases e with
  | call c r m timeout lease now => exact Or.inl ⟨rfl, _, (Option.some.inj h).symm⟩
  | iterate k now env =>
    simp only [step] at h
    cases hk : n.calls[k]? with
    | none => rw [hk] at h; cases h
    | some call =>
      rw [hk] at h
      dsimp only at h
      split at h
      · next hres =>
        refine Or.inr (Or.inr ⟨k, now, env, call, rfl, hk, hres, (Option.some.inj h).symm, ?_⟩)
        simp only [applied, hk]
      · cases h
  | command cmd env =>
    refine Or.inr (Or.inl ⟨cmd, env, rfl, rfl, ?_⟩)
    have hmap : (Locks.step n.manager (cmd, env)).map (fun s => { n with manager := s }) =
        some n' := by
      cases cmd with
      | acquire c r m lease => cases h
      | release c r => exact h
      | releaseAll c => exact h
      | abort c => exact h
    obtain ⟨s, hs, rfl⟩ := Option.map_eq_some_iff.mp hmap
    exact ⟨hs, rfl⟩

theorem iterate_manager (k : ℕ) (call : Call Client Resource) (now : Time) (env : Env Resource) :
    (n.iterate k call now env).manager =
      if now < call.deadline then (n.manager.applyCommand env call.command).2 else n.manager := by
  unfold iterate
  split <;> rfl

/-- An event of the node is a step of its lock manager, or leaves it as it is. -/
theorem step_manager (h : n.step e = some n') :
    (n.applied e = none ∧ n'.manager = n.manager) ∨
      ∃ a, n.applied e = some a ∧ Locks.step n.manager a = some n'.manager := by
  rcases step_cases h with ⟨ha, call, rfl⟩ | ⟨cmd, env, ha, -, hs, -⟩ |
    ⟨k, now, env, call, -, -, -, rfl, ha⟩
  · exact Or.inl ⟨ha, rfl⟩
  · exact Or.inr ⟨_, ha, hs⟩
  · rw [iterate_manager]
    split at ha
    · next hnow =>
      rw [if_pos hnow]
      exact Or.inr ⟨_, ha, if_pos rfl⟩
    · next hnow =>
      rw [if_neg hnow]
      exact Or.inl ⟨ha, rfl⟩

/-- **The node refines its lock manager.** -/
theorem manager_refines : Refinement
    (step : LockManagerNode Client Resource → Event Client Resource → Option _)
    (Locks.step : LockManager Client Resource → Applied Client Resource → Option _)
    (fun _ => True) manager := by
  constructor
  · intro _ _ _ _ _
    trivial
  · intro n e n' _ h
    rcases step_manager h with ⟨-, heq⟩ | ⟨a, -, ha⟩
    · exact Or.inl heq
    · exact Or.inr ⟨a, ha⟩

end LockManagerNode

end Locks
