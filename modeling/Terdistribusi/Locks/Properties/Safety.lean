import Terdistribusi.Locks.Refinement

/-!
# Safety of the lock table

* `lock_table_safety` — the holders of a resource are all shared or there is exactly one, and the
  index `client_locks` says exactly who holds what

`handover` is a short run in which a lock passes from its holder to the client that waits for it.
-/

namespace Locks

open Infra LockManager

/-! ## A run with a handover -/

/-- The clock stands still and no set is gone through. -/
def plain {Client Resource : Type} (cmd : Command Client Resource) : Applied Client Resource :=
  (cmd, { clock := fun _ _ => 0, requestId := 0, order := [] })

/-- Clients 1 and 2 acquire resource 0, and client 1 releases it. -/
def handoverEvents : List (Applied ℕ ℕ) :=
  [plain (.acquire 1 0 .exclusive none), plain (.acquire 2 0 .exclusive none),
    plain (.release 1 0)]

def handover : CommandRun ℕ ℕ 30 :=
  Run.ofEvents _ _ handoverEvents (plain (.releaseAll 0)) (by decide +kernel)

section

variable {Client Resource : Type} [DecidableEq Client] [DecidableEq Resource]
  {defaultLease : Time}

/-- **Mutual exclusion and the index**, in every state of a run. -/
theorem lock_table_safety (run : CommandRun Client Resource defaultLease) {i : ℕ}
    (hi : i ≤ run.length) :
    (∀ r, (∀ h ∈ ((run.state i).lockState r).holders.values, h.mode = .shared) ∨
        ((run.state i).lockState r).holders.keys.length = 1) ∧
      ∀ c r, r ∈ (run.state i).locksOf c ↔ Holds (run.state i) c r := by
  refine ⟨fun r => ?_, fun c r => (indexed run i hi).index r c⟩
  have hex := (cellOk run hi r).exclusion
  unfold Cell.Exclusion view LockState.cell at hex
  simpa using hex

end

theorem lock_table_safety_handover :
    Holds (handover.state 3) 2 0 ∧ 0 ∈ (handover.state 3).locksOf 2 :=
  ⟨by decide +kernel,
    ((lock_table_safety handover (i := 3) (by decide)).2 2 0).mpr (by decide +kernel)⟩

end Locks
