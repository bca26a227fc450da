import Terdistribusi.Locks.Expiry
import Terdistribusi.Locks.Properties.Leases

/-!
# When lease expiry removes expired leases only

A pass decides on a record and submits the names of the client and of the resource. What the release
removes is the record that is there when it is applied. So the decision holds for as long as no
command gives the client the resource anew (`dueExpired_iff`), and a renewal that is applied while
the release is due is lost (`renewal_lost`).
-/

namespace Locks

open Infra LockManager

variable {Client Resource : Type} [DecidableEq Client] [DecidableEq Resource]

/-! ## Records -/

/-- The invariants of the lock table, and every record stands under its own client. -/
structure RecordsOk (s : LockManager Client Resource) : Prop where
  indexed : Indexed s
  ok : ∀ r, ((view s).cell r).Ok
  keyed : ∀ r c h, (s.lockState r).holders.get? c = some h → h.clientId = c

theorem clientId_of_grant {s : LockManager Client Resource} {a : Applied Client Resource}
    {c : Client} {r : Resource} {h : LockHolder Client} (hg : s.grant a c r = some h) :
    h.clientId = c := by
  have hfind : ∀ hs : List (LockHolder Client),
      hs.find? (fun h => h.clientId = c) = some h → h.clientId = c := fun hs hf => by
    simpa using List.find?_some hf
  unfold grant at hg
  split at hg
  · split at hg
    · exact Option.some.inj hg ▸ rfl
    · cases hg
  · split at hg
    · exact hfind _ hg
    · cases hg
  · exact hfind _ hg
  · exact hfind _ hg

theorem RecordsOk.step {s s' : LockManager Client Resource} {a : Applied Client Resource}
    (h : RecordsOk s) (hs : Locks.step s a = some s') : RecordsOk s' := by
  refine ⟨indexed_step h.indexed hs, ?_, fun r c x hx => ?_⟩
  · rw [view_step h.indexed hs]
    exact fun r => (h.ok r).actOn r a.1
  · rw [get?_holders_step h.indexed h.ok hs] at hx
    cases hg : s.grant a c r with
    | some y =>
      rw [hg, Option.some_or] at hx
      exact Option.some.inj hx ▸ clientId_of_grant hg
    | none =>
      rw [hg, Option.none_or] at hx
      split at hx
      · cases hx
      · exact h.keyed r c x hx

/-- A release takes away no record but that of its client at its resource. -/
theorem RecordsOk.kept_of_release {s s' : LockManager Client Resource} (h : RecordsOk s)
    {c c' : Client} {r r' : Resource} {env : Env Resource}
    (hs : Locks.step s (.release c' r', env) = some s') (hne : c = c' → r ≠ r')
    {x : LockHolder Client} (hx : (s.lockState r).holders.get? c = some x) :
    (s'.lockState r).holders.get? c = some x := by
  rw [get?_holders_step h.indexed h.ok hs]
  have hkeep : Command.releases c r (.release c' r' : Command Client Resource) = false := by
    simp only [Command.releases, Bool.and_eq_false_iff, decide_eq_false_iff_not]
    by_cases hc : c' = c
    · exact Or.inr fun hr => hne hc.symm hr.symm
    · exact Or.inl hc
  have hnone : s.grant (.release c' r', env) c r = none := by
    simp only [grant]
    split
    · next hr =>
      subst hr
      -- another client holds the resource, so nothing is granted
      have hsole : ¬ (s.lockState r').cell.SoleHolder c' := by
        intro hsole
        have hmem := Dict.mem_keys_of_get? hx
        rw [← LockState.holding_cell] at hmem
        exact hne ((Dict.keys_eq_singleton_iff.mp hsole).2 c hmem) rfl
      rw [LockState.grants, if_neg hsole]
      rfl
    · rfl
  rw [hnone, hkeep, Option.none_or]
  exact hx

/-! ## The loop -/

namespace ExpiryNode

variable {n n' : ExpiryNode Client Resource} {e : ExpiryEvent Client Resource}

/-- The releases that are submitted or will be, for the resource that the pass is at. -/
def due (n : ExpiryNode Client Resource) : List (ExpiryRelease Client Resource) :=
  n.submitted ++ match n.loop with
    | .sleeping => []
    | .submitting now resource expired _ =>
      expired.map fun client => { now := now, clientId := client, resource := resource }

/-- The releases that are still due after the event applies its command. -/
def dueAfter (n : ExpiryNode Client Resource) :
    ExpiryEvent Client Resource → List (ExpiryRelease Client Resource)
  | .release _ => n.due.tail
  | _ => n.due

/-- The event applies a command that gives a client a resource until `now` or later, while a release
of a pass of time `now` is due for it. -/
def Renews (n : ExpiryNode Client Resource) (e : ExpiryEvent Client Resource) : Prop :=
  ∃ a ∈ n.applied e, ∃ x ∈ n.dueAfter e, ∃ h ∈ n.manager.grant a x.clientId x.resource,
    x.now ≤ h.leaseUntil

instance (n : ExpiryNode Client Resource) (e : ExpiryEvent Client Resource) :
    Decidable (n.Renews e) :=
  inferInstanceAs (Decidable (∃ a ∈ n.applied e, ∃ x ∈ n.dueAfter e,
    ∃ h ∈ n.manager.grant a x.clientId x.resource, x.now ≤ h.leaseUntil))

/-- The client of a due release does not hold the resource, or by a lease that has run out. -/
def DueExpired (n : ExpiryNode Client Resource) : Prop :=
  ∀ x ∈ n.due, ∀ h ∈ (n.manager.lockState x.resource).holders.get? x.clientId,
    h.leaseUntil < x.now

omit [DecidableEq Client] in
/-- What is due after the outer loop has gone on was submitted before, or has been found expired. -/
theorem expireResources_due (now : Time) (m : ExpiryNode Client Resource) :
    ∀ resources : List Resource, (m.expireResources now resources).manager = m.manager ∧
      ∀ x ∈ (m.expireResources now resources).due,
        x ∈ m.submitted ∨ x.clientId ∈ (m.manager.lockState x.resource).expired x.now
  | [] => ⟨rfl, fun x hx => Or.inl (by simpa [due, expireResources] using hx)⟩
  | r :: rs => by
    rw [expireResources]
    cases hr : (m.manager.lockState r).expired now with
    | nil => exact expireResources_due now m rs
    | cons c cs =>
      refine ⟨rfl, fun x hx => ?_⟩
      simp only [due, submit, List.append_assoc, List.mem_append, List.mem_singleton,
        List.mem_map] at hx
      rcases hx with hx | rfl | ⟨d, hd, rfl⟩
      · exact Or.inl hx
      · refine Or.inr ?_
        rw [hr]
        exact List.mem_cons_self
      · refine Or.inr ?_
        rw [hr]
        exact List.mem_cons_of_mem c hd

/-- What an event applies, and what is due afterwards. -/
theorem step_cases (hs : n.step e = some n') :
    (n.applied e = none ∧ n'.manager = n.manager ∧
        ∀ x ∈ n'.due, x ∈ n.due ∨ x.clientId ∈ (n.manager.lockState x.resource).expired x.now) ∨
      ∃ a, n.applied e = some a ∧ Locks.step n.manager a = some n'.manager ∧
        n'.due = n.dueAfter e := by
  cases e with
  | start now =>
    simp only [step] at hs
    cases hl : n.loop with
    | sleeping =>
      rw [hl] at hs
      obtain rfl := Option.some.inj hs
      obtain ⟨hm, hdue⟩ := expireResources_due now n n.manager.locks.keys
      exact Or.inl ⟨rfl, hm, fun x hx => (hdue x hx).imp_left (List.mem_append_left _)⟩
    | submitting now resource expired resources =>
      rw [hl] at hs
      cases hs
  | resume =>
    simp only [step, resume] at hs
    cases hl : n.loop with
    | sleeping =>
      rw [hl] at hs
      cases hs
    | submitting now resource expired resources =>
      rw [hl] at hs
      cases expired with
      | nil =>
        obtain rfl := Option.some.inj hs
        -- no client of the resource is left, and the loop goes on with the other resources
        obtain ⟨hm, hdue⟩ := expireResources_due now n resources
        exact Or.inl ⟨rfl, hm, fun x hx => (hdue x hx).imp_left (List.mem_append_left _)⟩
      | cons client expired =>
        obtain rfl := Option.some.inj hs
        refine Or.inl ⟨rfl, rfl, fun x hx => Or.inl ?_⟩
        rw [due, hl]
        simpa [due, submit] using hx
  | release env =>
    simp only [step] at hs
    cases hsub : n.submitted with
    | nil =>
      rw [hsub] at hs
      cases hs
    | cons x rest =>
      rw [hsub] at hs
      obtain ⟨s, hstep, rfl⟩ := Option.map_eq_some_iff.mp hs
      refine Or.inr ⟨_, by rw [applied, hsub]; rfl, hstep, ?_⟩
      simp [dueAfter, due, hsub]
  | command cmd env =>
    obtain ⟨s, hstep, rfl⟩ := Option.map_eq_some_iff.mp hs
    exact Or.inr ⟨_, rfl, hstep, rfl⟩

/-- **The expiry loop refines the lock manager.** -/
theorem manager_refines : Refinement
    (step : ExpiryNode Client Resource → ExpiryEvent Client Resource → Option _)
    (Locks.step : LockManager Client Resource → Applied Client Resource → Option _)
    (fun _ => True) manager := by
  constructor
  · intro _ _ _ _ _
    trivial
  · intro n e n' _ hs
    rcases step_cases hs with ⟨-, hm, -⟩ | ⟨a, -, hstep, -⟩
    · exact Or.inl hm
    · exact Or.inr ⟨a, hstep⟩

/-- The holders that a pass finds are holders by a lease that has run out. -/
theorem leaseUntil_of_expired (hrec : RecordsOk n.manager) {now : Time} {c : Client} {r : Resource}
    (hc : c ∈ (n.manager.lockState r).expired now) {h : LockHolder Client}
    (hget : (n.manager.lockState r).holders.get? c = some h) : h.leaseUntil < now := by
  obtain ⟨x, hx, rfl⟩ := List.mem_map.mp hc
  obtain ⟨hmem, hlt⟩ := List.mem_filter.mp hx
  obtain ⟨c, hxc⟩ := Dict.mem_values_iff.mp hmem
  have hkey := hrec.keyed r c x hxc
  rw [hkey, hxc] at hget
  obtain rfl := Option.some.inj hget
  exact of_decide_eq_true hlt

/-- An event keeps the due releases expired exactly when it renews none of the locks. -/
theorem DueExpired.step (h : n.DueExpired) (hrec : RecordsOk n.manager)
    (hs : n.step e = some n') : n'.DueExpired ↔ ¬ n.Renews e := by
  rcases step_cases hs with ⟨hnone, hm, hdue⟩ | ⟨a, hsome, hstep, hdue⟩
  · refine iff_of_true (fun x hx y hy => ?_) ?_
    · rw [hm] at hy
      rcases hdue x hx with hold | hnew
      · exact h x hold y hy
      · exact leaseUntil_of_expired hrec hnew hy
    · rintro ⟨a, ha, -⟩
      rw [hnone] at ha
      cases ha
  · have hrecords := get?_holders_step hrec.indexed hrec.ok hstep
    unfold DueExpired Renews
    rw [hdue, hsome]
    simp only [Option.mem_def, Option.some.injEq, exists_eq_left', not_exists, not_and, not_le]
    refine forall₂_congr fun x hx => ?_
    rw [hrecords]
    cases hg : n.manager.grant a x.clientId x.resource with
    | some y => rw [Option.some_or]
    | none =>
      rw [Option.none_or]
      refine iff_of_true (fun y hy => ?_) (fun y hy => by cases hy)
      split at hy
      · cases hy
      · refine h x ?_ y hy
        cases e with
        | release env => exact List.mem_of_mem_tail hx
        | _ => exact hx

end ExpiryNode

/-! ## Runs -/

namespace ExpiryRun

variable {defaultLease : Time} (run : ExpiryRun Client Resource defaultLease)

theorem recorded : ∀ i ≤ run.length, RecordsOk (run.state i).manager := by
  refine ExpiryNode.manager_refines.invariant run trivial ?_ fun _ _ _ h hs => h.step hs
  exact ⟨indexed_initial defaultLease, tableOk_initial defaultLease, fun r c h hx => by cases hx⟩

/-- Every due release is for a lease that has run out, in all states of a run, exactly when no
command of the run renews a lock for which a release is due. -/
theorem dueExpired_iff : (∀ i ≤ run.length, (run.state i).DueExpired) ↔
    ∀ i < run.length, ¬ (run.state i).Renews (run.event i) := by
  refine run.always_iff (G := fun n e => ¬ n.Renews e) (fun x hx => by cases hx) fun i hi h => ?_
  exact h.step (recorded run i hi.le) (run.state_succ i hi)

/-- **Lease expiry removes expired leases only**, in every run in which no command renews a lock for
which a release is due. The record that a release of a pass removes has run out before the pass, and
every other record stays. -/
theorem expiry_removes_expired (hno : ∀ i < run.length, ¬ (run.state i).Renews (run.event i))
    {i : ℕ} (hi : i < run.length) {env : Env Resource} (he : run.event i = .release env) :
    ∃ x ∈ (run.state i).submitted.head?, ∀ c r,
      ∀ h ∈ ((run.state i).manager.lockState r).holders.get? c,
        if c = x.clientId ∧ r = x.resource then h.leaseUntil < x.now
        else h ∈ ((run.state (i + 1)).manager.lockState r).holders.get? c := by
  have hrec := recorded run i hi.le
  have hdue := (dueExpired_iff run).mpr hno i hi.le
  have hs := run.state_succ i hi
  rw [he] at hs
  rcases ExpiryNode.step_cases hs with ⟨hnone, hm, -⟩ | ⟨a, hsome, hstep, -⟩
  · simp only [ExpiryNode.step] at hs
    cases hsub : (run.state i).submitted with
    | nil =>
      rw [hsub] at hs
      cases hs
    | cons x rest =>
      rw [ExpiryNode.applied, hsub] at hnone
      cases hnone
  · obtain ⟨x, hx, rfl⟩ := Option.map_eq_some_iff.mp hsome
    refine ⟨x, hx, fun c r h hh => ?_⟩
    split
    · next heq =>
      obtain ⟨rfl, rfl⟩ := heq
      exact hdue x (List.mem_append_left _ (List.mem_of_mem_head? hx)) h hh
    · next hne => exact hrec.kept_of_release hstep (fun hc hr => hne ⟨hc, hr⟩) hh

end ExpiryRun

/-- What the clock shows throughout a command of the example runs. -/
def clockAt (now : Time) : Env (Fin 2) := { clock := fun _ _ => now, requestId := 0, order := [] }

/-- Client 1 acquires resource 0 for 5 seconds, and a pass at time 10 releases it. -/
def expiredEvents : List (ExpiryEvent (Fin 2) (Fin 2)) :=
  [.command (.acquire 1 0 .shared (some 5)) (clockAt 0), .start 10, .release (clockAt 11)]

def expired : ExpiryRun (Fin 2) (Fin 2) 30 :=
  Run.ofEvents _ _ expiredEvents .resume (by decide +kernel)

theorem expiry_removes_expired_pass : ∃ x ∈ (expired.state 2).submitted.head?, ∀ c r,
    ∀ h ∈ ((expired.state 2).manager.lockState r).holders.get? c,
      if c = x.clientId ∧ r = x.resource then h.leaseUntil < x.now
      else h ∈ ((expired.state 3).manager.lockState r).holders.get? c :=
  ExpiryRun.expiry_removes_expired expired (by decide +kernel) (i := 2) (by decide)
    (show expired.event 2 = .release (clockAt 11) from rfl)

/-! ## A lost renewal -/

/-- The client renews its shared lock for 5 seconds, after the pass has submitted the release. -/
def renewedEvents : List (ExpiryEvent (Fin 2) (Fin 2)) :=
  [.command (.acquire 1 0 .shared (some 5)) (clockAt 0), .start 10,
    .command (.acquire 1 0 .shared (some 5)) (clockAt 11), .release (clockAt 12)]

def renewed : ExpiryRun (Fin 2) (Fin 2) 30 :=
  Run.ofEvents _ _ renewedEvents .resume (by decide +kernel)

/-- The release of the pass of time 10 removes a record that is good until 16. -/
theorem renewal_lost :
    renewed.event 3 = .release (clockAt 12) ∧
      (renewed.state 3).submitted.head? = some { now := 10, clientId := 1, resource := 0 } ∧
      ((renewed.state 3).manager.lockState 0).holders.get? 1 =
        some { clientId := 1, mode := .shared, acquiredAt := 11, leaseUntil := 16 } ∧
      ((renewed.state 4).manager.lockState 0).holders.get? 1 = none :=
  ⟨rfl, by decide +kernel, by decide +kernel, by decide +kernel⟩

end Locks
