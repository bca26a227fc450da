import Terdistribusi.Locks.Properties.Safety

/-!
# When a release is final

A release takes the client out of the holders and leaves its queued requests where they are, and the
queue may grant one of them at any later time, even at once. So a release is final exactly when the
client has no request left in the queue (`release_final`).
-/

namespace Locks

open Infra LockManager

variable {Client Resource : Type} [DecidableEq Client] [DecidableEq Resource]

/-! ## Final releases -/

/-- Client `c` is out of resource `r` until it acquires it anew. -/
structure Final (s : LockManager Client Resource) (c : Client) (r : Resource) : Prop where
  not_holds : ¬ Holds s c r
  not_waits : ¬ Waits s c r
  later : ∀ es s', (∀ e ∈ es, e.1.acquires c r = false) → exec step s es = some s' →
    ¬ Holds s' c r

/-- A client that neither holds nor waits stays out. -/
theorem final_iff {s : LockManager Client Resource} (h : Indexed s) (c : Client) (r : Resource) :
    Final s c r ↔ ¬ ((view s).cell r).Present c := by
  constructor
  · rintro hf (hp | hp)
    · exact hf.not_holds ((holding_view s c r).mp hp)
    · exact hf.not_waits ((waiting_view s c r).mp hp)
  · intro hnot
    refine ⟨fun hp => hnot (Or.inl ((holding_view s c r).mpr hp)),
      fun hp => hnot (Or.inr ((waiting_view s c r).mpr hp)), fun es s' hes hex hp => ?_⟩
    have hinv := exec_invariant_of
      (P := fun s => Indexed s ∧ ¬ ((view s).cell r).Present c)
      (G := fun e => e.1.acquires c r = false) (fun s e s' hs hg hstep => ?_) es ⟨h, hnot⟩ hes hex
    · exact hinv.2 (Or.inl ((holding_view s' c r).mpr hp))
    · refine ⟨indexed_step hs.1 hstep, fun hp' => hs.2 ?_⟩
      rw [view_step hs.1 hstep] at hp'
      rcases (Cell.present_actOn c r e.1 _).mp hp' with hacq | hkeep
      · rw [hg] at hacq
        cases hacq
      · exact hkeep.1

/-- **A release is final exactly when no request is left.** In a reachable state, for a `release`
that returned `True`, and for a `release_all` or an `abort` and all resources. -/
theorem release_final {defaultLease : Time} (run : CommandRun Client Resource defaultLease) {i : ℕ}
    (hi : i ≤ run.length) (env : Env Resource) (c : Client) :
    (∀ r, ((run.state i).applyCommand env (.release c r)).1 = .flag true →
      (Final ((run.state i).applyCommand env (.release c r)).2 c r ↔
        ¬ Waits (run.state i) c r)) ∧
    ∀ cmd : Command Client Resource, cmd = .releaseAll c ∨ cmd = .abort c →
      env.ok (run.state i) cmd = true →
      ((∀ r, Final ((run.state i).applyCommand env cmd).2 c r) ↔
        ∀ r, ¬ Waits (run.state i) c r) := by
  have hind := indexed run i hi
  refine ⟨fun r _ => ?_, fun cmd hcmd hok => forall_congr' fun r => ?_⟩
  · have hok : env.ok (run.state i) (.release c r) = true := rfl
    rw [final_iff (indexed_applyCommand hind hok), view_applyCommand hind hok]
    simp only [Table.apply, Table.actOn, if_true]
    rw [Cell.present_release, waiting_view]
  · rw [final_iff (indexed_applyCommand hind hok), view_applyCommand hind hok]
    rcases hcmd with rfl | rfl <;>
    · simp only [Table.apply, Table.actOn]
      rw [Cell.present_release, waiting_view]

theorem release_final_handover :
    ((handover.state 1).applyCommand (plain (.release 1 0)).2 (.release 1 0)).1 = .flag true ∧
      Final ((handover.state 1).applyCommand (plain (.release 1 0)).2 (.release 1 0)).2 1 0 :=
  ⟨by decide +kernel,
    ((release_final handover (i := 1) (by decide) (plain (.release 1 0)).2 1).1 0
      (by decide +kernel)).mpr (by decide +kernel)⟩

/-! ## A release that is not final -/

/-- Client 1 acquires resource 0, acquires it again, which queues a request behind its own lock, and
releases it. -/
def reentryEvents : List (Applied ℕ ℕ) :=
  [plain (.acquire 1 0 .exclusive none), plain (.acquire 1 0 .exclusive none),
    plain (.release 1 0)]

def reentry : CommandRun ℕ ℕ 30 :=
  Run.ofEvents _ _ reentryEvents (plain (.releaseAll 0)) (by decide +kernel)

/-- The release returns `True`, and client 1 holds the resource afterwards. -/
theorem reentry_not_final :
    ((reentry.state 2).applyCommand (plain (.release 1 0)).2 (.release 1 0)).1 = .flag true ∧
      ¬ Final ((reentry.state 2).applyCommand (plain (.release 1 0)).2 (.release 1 0)).2 1 0 :=
  ⟨by decide +kernel, fun h => h.not_holds (by decide +kernel)⟩

end Locks
