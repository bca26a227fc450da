import Terdistribusi.Infra.Dict
import Mathlib.Algebra.Order.Field.Rat

/-!
# The failure detector

`FailureDetector` (`src/communication/failure_detector.py`): the health of every peer, which
heartbeats and the rounds of `_check_loop` change.

A round also says for which peers the failure callbacks are scheduled. No node registers a recovery
callback, and nothing reads the latencies or the phi detector.
-/

namespace Communication

open Infra

/-- What `time.time()` returns. -/
abbrev Time := ℚ

inductive NodeStatus
  | alive
  | suspected
  | dead
  | unknown
  deriving DecidableEq, Repr

structure NodeHealth where
  status : NodeStatus := .unknown
  lastHeartbeat : Time
  missedHeartbeats : ℕ := 0
  deriving DecidableEq

structure FailureDetector (NodeId : Type) where
  timeout : Time := 2
  maxMissed : ℕ := 3
  health : Dict NodeId NodeHealth

/-- The body of the loop of `_check_loop` for one peer, and whether it schedules the callbacks. -/
def NodeHealth.check (timeout : Time) (maxMissed : ℕ) (now : Time) (h : NodeHealth) :
    NodeHealth × Bool :=
  if timeout < now - h.lastHeartbeat then
    let h := { h with missedHeartbeats := h.missedHeartbeats + 1 }
    if maxMissed ≤ h.missedHeartbeats then
      if h.status ≠ .dead then ({ h with status := .dead }, true) else (h, false)
    else if h.status = .alive then ({ h with status := .suspected }, false)
    else (h, false)
  else (h, false)

/-- A check leaves a peer dead only if it was dead or the callbacks are scheduled. -/
theorem NodeHealth.dead_check {timeout : Time} {maxMissed : ℕ} {now : Time} {h : NodeHealth}
    (hd : (h.check timeout maxMissed now).1.status = .dead) :
    h.status = .dead ∨ (h.check timeout maxMissed now).2 = true := by
  by_cases hs : h.status = .dead
  · exact Or.inl hs
  · refine Or.inr ?_
    unfold check at hd ⊢
    dsimp only at hd ⊢
    split_ifs at hd ⊢
    all_goals first | rfl | exact absurd hd hs

namespace FailureDetector

variable {NodeId : Type} [DecidableEq NodeId]

/-- `__init__`; `now p` is the time at which the entry of `p` is made. -/
def init (peers : List NodeId) (now : NodeId → Time) : FailureDetector NodeId :=
  { health := peers.foldl (fun d p => d.set p { lastHeartbeat := now p }) Dict.empty }

def getStatus (d : FailureDetector NodeId) (peerId : NodeId) : NodeStatus :=
  match d.health.get? peerId with
  | none => .unknown
  | some h => h.status

def recordHeartbeat (peerId : NodeId) (now : Time) (d : FailureDetector NodeId) :
    FailureDetector NodeId :=
  match d.health.get? peerId with
  | none => d
  | some _ =>
    { d with
      health := d.health.set peerId
        { status := .alive, lastHeartbeat := now, missedHeartbeats := 0 } }

omit [DecidableEq NodeId] in
/-- One round of `_check_loop`, and the peers for which the callbacks are scheduled. -/
def check (now : Time) (d : FailureDetector NodeId) : FailureDetector NodeId × List NodeId :=
  ({ d with health := d.health.mapValues fun h => (h.check d.timeout d.maxMissed now).1 },
    (d.health.entries.filter fun e => (e.2.check d.timeout d.maxMissed now).2).map Prod.fst)

/-! ## Which peers are dead -/

theorem getStatus_init (peers : List NodeId) (now : NodeId → Time) (p : NodeId) :
    (init peers now).getStatus p = .unknown := by
  have key : ∀ (ps : List NodeId) (d : Dict NodeId NodeHealth),
      (∀ h, d.get? p = some h → h.status = .unknown) →
      ∀ h, (ps.foldl (fun d p => d.set p { lastHeartbeat := now p }) d).get? p = some h →
        h.status = .unknown := by
    intro ps
    induction ps with
    | nil => exact fun _ hd => hd
    | cons q ps ih =>
      refine fun d hd => ih _ fun h hh => ?_
      rw [Dict.get?_set] at hh
      split at hh
      · cases hh
        rfl
      · exact hd h hh
  unfold getStatus
  split
  · rfl
  · next h hh => exact key peers Dict.empty (fun _ he => by cases he) h hh

/-- A heartbeat makes no peer dead. -/
theorem dead_recordHeartbeat {d : FailureDetector NodeId} {q p : NodeId} {now : Time}
    (h : (d.recordHeartbeat q now).getStatus p = .dead) : d.getStatus p = .dead := by
  unfold recordHeartbeat at h
  split at h
  · exact h
  · by_cases hq : q = p
    · unfold getStatus at h
      dsimp only at h
      rw [hq, Dict.get?_set_self] at h
      cases h
    · unfold getStatus at h ⊢
      dsimp only at h
      rwa [Dict.get?_set_ne _ _ hq] at h

/-- A round makes a peer dead only when it schedules the callbacks for it. -/
theorem dead_check {d : FailureDetector NodeId} {p : NodeId} {now : Time}
    (h : (d.check now).1.getStatus p = .dead) :
    d.getStatus p = .dead ∨ p ∈ (d.check now).2 := by
  unfold getStatus check at *
  dsimp only at h ⊢
  rw [Dict.get?_mapValues] at h
  cases hp : d.health.get? p with
  | none =>
    rw [hp] at h
    cases h
  | some health =>
    rw [hp] at h
    refine (NodeHealth.dead_check h).imp id fun hs => ?_
    exact List.mem_map.mpr ⟨(p, health), List.mem_filter.mpr ⟨Dict.get?_eq_some_iff.mp hp, hs⟩, rfl⟩

end FailureDetector

end Communication
