import Terdistribusi.Locks.Acquire
import Terdistribusi.Locks.Properties.Safety

/-!
# What a blocking acquire reports

A call that is refused leaves a request in the queue, and nothing takes it out when the call gives
up. And a client whose request was granted from the queue is asked to acquire once more, which an
exclusive lock refuses, its own included. `acquire_reports` says exactly when a call that returns
`False` tells the truth, and when a client that holds the resource is told so by its next retry.
-/

namespace Locks

open Infra

variable {Client Resource : Type} [DecidableEq Client] [DecidableEq Resource]

namespace LockManagerNode

/-- The event applies an `acquire` of resource `r` by client `c`. -/
def attempts (n : LockManagerNode Client Resource) (e : Event Client Resource) (c : Client)
    (r : Resource) : Bool :=
  (n.applied e).any fun a => a.1.acquires c r

/-- The event applies a release of resource `r` by client `c`, which holds it and has no request in
the queue. -/
def frees (n : LockManagerNode Client Resource) (e : Event Client Resource) (c : Client)
    (r : Resource) : Bool :=
  (n.applied e).any fun a => a.1.releases c r && Holds n.manager c r && !Waits n.manager c r

variable {n n' : LockManagerNode Client Resource} {e : Event Client Resource}

/-- A call that returns `False` leaves the lock table as it is. -/
theorem manager_of_result_false (h : n.step e = some n') {k : ℕ} {call : Call Client Resource}
    (hcall : n.calls[k]? = some call) (hrunning : call.result = none)
    (hret : n'.result k = some false) : n'.manager = n.manager := by
  have hk : k < n.calls.length := (List.getElem?_eq_some_iff.mp hcall).1
  have hsame : n.result k = none := by rw [result, hcall]; exact hrunning
  rcases step_cases h with ⟨-, call', rfl⟩ | ⟨cmd, env, -, -, -, hcalls⟩ |
    ⟨k', now, env, call', -, hcall', -, rfl, -⟩
  · rfl
  · rw [result, hcalls] at hret
    rw [result, hret] at hsame
    cases hsame
  · rw [iterate_manager]
    split
    · next hnow =>
      -- the call returns `True` or goes on
      exfalso
      simp only [result, iterate, if_pos hnow] at hret
      split at hret
      · rw [List.getElem?_set] at hret
        split at hret
        · next hkk =>
          subst hkk
          simp [hk] at hret
        · rw [result] at hsame
          rw [hsame] at hret
          cases hret
      · rw [result] at hsame
        rw [hsame] at hret
        cases hret
    · rfl

/-- A retry returns `True` when the command is granted, and goes on otherwise. -/
theorem result_of_retry {k : ℕ} {now : Time} {env : Env Resource}
    (h : n.step (.iterate k now env) = some n') {call : Call Client Resource}
    (hcall : n.calls[k]? = some call) (hrunning : call.result = none) (hnow : now < call.deadline) :
    n'.result k = some true ↔
      Cell.admits ((view n.manager).cell call.resource).holders call.mode = true := by
  have hk : k < n.calls.length := (List.getElem?_eq_some_iff.mp hcall).1
  simp only [step, hcall, hrunning, if_true] at h
  obtain rfl := Option.some.inj h
  have hreply : (n.manager.applyCommand env call.command).1 = .flag true ↔
      Cell.admits ((view n.manager).cell call.resource).holders call.mode = true := by
    simp only [LockManager.applyCommand, Call.command, doAcquire_fst, Reply.flag.injEq]
  rw [← hreply]
  simp only [result, iterate, if_pos hnow]
  split
  · next hgrant => simp [hgrant, hk]
  · next hgrant => simp [hgrant, hcall, hrunning]

/-- What one event does to the presence of a client at a resource. -/
theorem present_step (hind : Indexed n.manager) (h : n.step e = some n') (c : Client)
    (r : Resource) : ((view n'.manager).cell r).Present c ↔
      n.attempts e c r = true ∨
        ((view n.manager).cell r).Present c ∧ ¬ n.frees e c r = true := by
  unfold attempts frees
  rcases step_manager h with ⟨ha, heq⟩ | ⟨a, ha, hs⟩
  · rw [ha, heq]
    simp
  · rw [ha, view_step hind hs]
    refine (Cell.present_actOn c r a.1 _).trans ?_
    simp [holding_view, waiting_view, and_assoc]

end LockManagerNode

variable {defaultLease : Time}

/-- The node refines the lock table, by way of the lock manager. -/
theorem node_refines : Refinement
    (LockManagerNode.step : LockManagerNode Client Resource → Event Client Resource → Option _)
    (Table.step : Table Client Resource → Command Client Resource → Option _)
    (fun n => True ∧ Indexed n.manager) (fun n => view n.manager) :=
  LockManagerNode.manager_refines.comp view_refines

theorem node_indexed (run : NodeRun Client Resource defaultLease) {i : ℕ} (hi : i ≤ run.length) :
    Indexed (run.state i).manager :=
  (node_refines.inv run ⟨trivial, indexed_initial defaultLease⟩ i hi).2

theorem node_tableOk (run : NodeRun Client Resource defaultLease) {i : ℕ} (hi : i ≤ run.length) :
    (view (run.state i).manager).Ok :=
  node_refines.invariant run ⟨trivial, indexed_initial defaultLease⟩ (tableOk_initial defaultLease)
    (fun _ _ _ h hs => Table.Ok.step h hs) i hi

/-- Who is present at a resource: those who tried to acquire it and have not freed it since. -/
theorem present_iff (run : NodeRun Client Resource defaultLease) (c : Client) (r : Resource) :
    ∀ i ≤ run.length, (((view (run.state i).manager).cell r).Present c ↔
      ∃ a < i, (run.state a).attempts (run.event a) c r = true ∧
        ∀ b < i, a < b → ¬ (run.state b).frees (run.event b) c r = true) := by
  refine run.since (A := fun i => (run.state i).attempts (run.event i) c r = true)
    (B := fun i => (run.state i).frees (run.event i) c r = true) ?_ fun i hi =>
      LockManagerNode.present_step (node_indexed run hi.le) (run.state_succ i hi) c r
  rw [run.state_zero]
  rintro (h | h) <;> cases h

/-- **What a blocking acquire reports.** A call of `c` on `r` that returns `False` leaves `c`
neither holding `r` nor waiting for it exactly when each `acquire` of `r` by `c` was freed again. A
retry by a client that holds the resource returns `True` exactly when both locks are shared. -/
theorem acquire_reports (run : NodeRun Client Resource defaultLease) {i k : ℕ}
    (hi : i < run.length) {call : Call Client Resource}
    (hcall : (run.state i).calls[k]? = some call) (hrunning : call.result = none) :
    ((run.state (i + 1)).result k = some false →
      ((call.heldBefore = true ∨
          ¬ Holds (run.state (i + 1)).manager call.clientId call.resource ∧
            ¬ Waits (run.state (i + 1)).manager call.clientId call.resource) ↔
        (call.heldBefore = true ∨
          ∀ a < i, (run.state a).attempts (run.event a) call.clientId call.resource = true →
            ∃ b < i, a < b ∧
              (run.state b).frees (run.event b) call.clientId call.resource = true))) ∧
    ∀ now env, run.event i = .iterate k now env → now < call.deadline →
      ∀ h ∈ ((run.state i).manager.lockState call.resource).holders.get? call.clientId,
        ((run.state (i + 1)).result k = some true ↔ call.mode = .shared ∧ h.mode = .shared) := by
  constructor
  · intro hret
    refine or_congr_right ?_
    rw [LockManagerNode.manager_of_result_false (run.state_succ i hi) hcall hrunning hret,
      ← holding_view, ← waiting_view, ← not_or]
    have hpresent := present_iff run call.clientId call.resource i hi.le
    unfold Cell.Present at hpresent
    rw [hpresent]
    push Not
    rfl
  · intro now env he hnow h hget
    have hstep := run.state_succ i hi
    rw [he] at hstep
    rw [LockManagerNode.result_of_retry hstep hcall hrunning hnow, Cell.admits_eq_true]
    have hview := get?_holders_view hget
    constructor
    · intro hall
      exact hall h.mode (Dict.mem_values_of_get? hview)
    · rintro ⟨hm, hh⟩ v hv
      rw [hh] at hview
      exact ⟨hm, (node_tableOk run hi.le call.resource).shared_of_get? hview v hv⟩

/-- The clock of a command that reads nothing else. -/
def still : Env ℕ := (plain (.releaseAll 0 : Command ℕ ℕ)).2

/-- Client 2 asks for a shared lock on resource 0, is refused, is granted it by the release of
client 1, and asks again. Client 3 asks with a timeout of zero. -/
def sharedHandoverEvents : List (Event ℕ ℕ) :=
  [.call 1 0 .exclusive 10 none 0, .iterate 0 1 still, .call 2 0 .shared 10 none 1,
    .iterate 1 2 still, .command (.release 1 0) still, .iterate 1 3 still,
    .call 3 0 .exclusive 0 none 4, .iterate 2 4 still]

def sharedHandover : NodeRun ℕ ℕ 30 :=
  Run.ofEvents _ _ sharedHandoverEvents (.iterate 0 0 still) (by decide +kernel)

theorem acquire_reports_handover :
    (sharedHandover.state 6).result 1 = some true ∧
      ¬ Holds (sharedHandover.state 8).manager 3 0 ∧
      ¬ Waits (sharedHandover.state 8).manager 3 0 := by
  have hcall₁ : (sharedHandover.state 5).calls[1]? =
      some ⟨2, 0, .shared, 30, 11, none, false⟩ := by decide +kernel
  have hcall₂ : (sharedHandover.state 7).calls[2]? =
      some ⟨3, 0, .exclusive, 30, 4, none, false⟩ := by decide +kernel
  have hretry := (acquire_reports sharedHandover (i := 5) (by decide) hcall₁ rfl).2 3 still rfl
    (by decide +kernel) ⟨2, .shared, 0, 30⟩ (by decide +kernel)
  have htimeout := (acquire_reports sharedHandover (i := 7) (by decide) hcall₂ rfl).1
    (by decide +kernel)
  exact ⟨hretry.mpr ⟨rfl, rfl⟩, (htimeout.mpr (Or.inr (by decide +kernel))).resolve_left (by simp)⟩

/-! ## A call that does not tell the truth -/

/-- Client 2 asks for an exclusive lock on resource 0, is refused, is granted it by the release of
client 1, is refused again and gives up. -/
def strandedEvents : List (Event ℕ ℕ) :=
  [.call 1 0 .exclusive 10 none 0, .iterate 0 1 still, .call 2 0 .exclusive 10 none 1,
    .iterate 1 2 still, .command (.release 1 0) still, .iterate 1 3 still, .iterate 1 11 still]

def stranded : NodeRun ℕ ℕ 30 :=
  Run.ofEvents _ _ strandedEvents (.iterate 0 0 still) (by decide +kernel)

/-- Client 2, which did not hold the resource before, holds it before its last retry, which does not
return `True`; its call returns `False`, and it holds the resource and waits for it. -/
theorem stranded_reports_false :
    (stranded.state 3).calls[1]?.map Call.heldBefore = some false ∧
      Holds (stranded.state 5).manager 2 0 ∧ (stranded.state 6).result 1 = none ∧
      (stranded.state 7).result 1 = some false ∧ Holds (stranded.state 7).manager 2 0 ∧
      Waits (stranded.state 7).manager 2 0 := by
  decide +kernel

end Locks
