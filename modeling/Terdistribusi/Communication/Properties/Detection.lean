import Terdistribusi.Communication.FailureDetector
import Terdistribusi.Infra.Run

/-!
# What the failure detector says

The status of a peer is a function of what has happened: of whether it has ever sent a heartbeat,
and of the rounds since its last one that came more than `timeout` after it.

* `expected` — the health of a peer after a history
* `check_expected` — a round says what it should
* `detected`
-/

namespace Communication

open Infra

/-- What happens at a detector. -/
inductive DetectorEvent (NodeId : Type)
  | heartbeat (peerId : NodeId) (now : Time)
  /-- a round of `_check_loop` -/
  | round (now : Time)
  deriving DecidableEq

variable {NodeId : Type} [DecidableEq NodeId]

namespace DetectorEvent

/-- The time of a heartbeat of this peer. -/
def beat (p : NodeId) : DetectorEvent NodeId → Option Time
  | .heartbeat q now => if q = p then some now else none
  | .round _ => none

def roundTime : DetectorEvent NodeId → Option Time
  | .heartbeat _ _ => none
  | .round now => some now

end DetectorEvent

/-! ## The history of a peer -/

/-- The time of the last heartbeat. -/
def lastBeat (p : NodeId) (es : List (DetectorEvent NodeId)) : Option Time :=
  es.reverse.findSome? fun e => e.beat p

/-- The times of the rounds after the last heartbeat, the last one first. -/
def roundsSince (p : NodeId) (es : List (DetectorEvent NodeId)) : List Time :=
  (es.reverse.takeWhile fun e => (e.beat p).isNone).filterMap DetectorEvent.roundTime

/-- How many rounds since the last heartbeat came more than `timeout` after it; without a heartbeat
the time at which the peer was entered counts. -/
def overdue (timeout entered : Time) (p : NodeId) (es : List (DetectorEvent NodeId)) : ℕ :=
  (roundsSince p es).countP fun now => timeout < now - (lastBeat p es).getD entered

section History

variable {p q : NodeId} {es : List (DetectorEvent NodeId)} {now timeout entered : Time}

@[simp] theorem lastBeat_heartbeat : lastBeat p (es ++ [.heartbeat p now]) = some now := by
  simp [lastBeat, DetectorEvent.beat]

@[simp] theorem overdue_heartbeat : overdue timeout entered p (es ++ [.heartbeat p now]) = 0 := by
  simp [overdue, roundsSince, DetectorEvent.beat]

theorem lastBeat_heartbeat_ne (h : q ≠ p) :
    lastBeat p (es ++ [.heartbeat q now]) = lastBeat p es := by
  simp [lastBeat, DetectorEvent.beat, h]

theorem overdue_heartbeat_ne (h : q ≠ p) :
    overdue timeout entered p (es ++ [.heartbeat q now]) = overdue timeout entered p es := by
  unfold overdue
  rw [lastBeat_heartbeat_ne h]
  simp [roundsSince, DetectorEvent.beat, List.filterMap_cons, DetectorEvent.roundTime, h]

@[simp] theorem lastBeat_round : lastBeat p (es ++ [.round now]) = lastBeat p es := by
  simp [lastBeat, DetectorEvent.beat]

theorem overdue_round : overdue timeout entered p (es ++ [.round now]) =
    overdue timeout entered p es +
      if timeout < now - (lastBeat p es).getD entered then 1 else 0 := by
  unfold overdue
  rw [lastBeat_round]
  simp [roundsSince, DetectorEvent.beat, DetectorEvent.roundTime, List.countP_cons]

end History

/-- What is known of a peer that was heard or not and has `n` overdue rounds. -/
def verdict (maxMissed : ℕ) (heard : Bool) (n : ℕ) : NodeStatus :=
  if max 1 maxMissed ≤ n then .dead
  else if heard then if n = 0 then .alive else .suspected
  else .unknown

section Verdict

variable {maxMissed n : ℕ} {heard : Bool}

theorem verdict_eq_dead_iff : verdict maxMissed heard n = .dead ↔ max 1 maxMissed ≤ n := by
  unfold verdict
  split_ifs with hdead <;> simp [hdead]

theorem verdict_eq_suspected_iff :
    verdict maxMissed heard n = .suspected ↔ heard = true ∧ 0 < n ∧ n < maxMissed := by
  unfold verdict
  split_ifs with hdead hheard hn
  · simp
    omega
  · simp [hn]
  · simp [hheard]
    omega
  · simp [hheard]

theorem verdict_eq_alive_iff :
    verdict maxMissed heard n = .alive ↔ heard = true ∧ n = 0 := by
  unfold verdict
  split_ifs with hdead hheard hn
  · simp
    omega
  · simp [hheard, hn]
  · simp [hn]
  · simp [hheard]

/-- Below the threshold the only change is that a peer which was alive is suspected. -/
theorem verdict_succ (h : n + 1 < maxMissed) : verdict maxMissed heard (n + 1) =
    if verdict maxMissed heard n = .alive then .suspected else verdict maxMissed heard n := by
  have hnot : ¬ max 1 maxMissed ≤ n := by omega
  have hnot' : ¬ max 1 maxMissed ≤ n + 1 := by omega
  cases heard with
  | false => simp only [verdict, hnot, hnot', if_false, Bool.false_eq_true, reduceCtorEq]
  | true =>
    by_cases hn : n = 0
    · subst hn
      simp only [verdict, hnot, hnot', if_true, if_false, Nat.succ_ne_zero]
    · simp only [verdict, hnot, hnot', hn, if_true, if_false, Nat.succ_ne_zero, reduceCtorEq]

end Verdict

/-- The health of a peer after a history. -/
def expected (timeout : Time) (maxMissed : ℕ) (entered : Time) (p : NodeId)
    (es : List (DetectorEvent NodeId)) : NodeHealth where
  status := verdict maxMissed (lastBeat p es).isSome (overdue timeout entered p es)
  lastHeartbeat := (lastBeat p es).getD entered
  missedHeartbeats := overdue timeout entered p es

/-- **A round says what it should**: the count goes up when the peer is overdue, and the callbacks
are scheduled when it comes to where the peer is dead. -/
theorem check_expected (timeout : Time) (maxMissed : ℕ) (entered : Time) (p : NodeId)
    (es : List (DetectorEvent NodeId)) (now : Time) :
    (expected timeout maxMissed entered p es).check timeout maxMissed now =
      (expected timeout maxMissed entered p (es ++ [.round now]),
        decide (timeout < now - (lastBeat p es).getD entered ∧
          overdue timeout entered p es + 1 = max 1 maxMissed)) := by
  unfold expected
  rw [lastBeat_round, overdue_round]
  generalize (lastBeat p es).getD entered = last
  generalize (lastBeat p es).isSome = heard
  generalize overdue timeout entered p es = n
  unfold NodeHealth.check
  dsimp only
  by_cases hover : timeout < now - last
  · rw [if_pos hover, if_pos hover]
    by_cases hmissed : maxMissed ≤ n + 1
    · have hnow : verdict maxMissed heard (n + 1) = .dead := verdict_eq_dead_iff.mpr (by omega)
      rw [if_pos hmissed, hnow]
      by_cases hdead : verdict maxMissed heard n = .dead
      · -- it was dead before
        have hle := verdict_eq_dead_iff.mp hdead
        have hne : n + 1 ≠ max 1 maxMissed := by omega
        simp [hdead, hne]
      · have heq : n + 1 = max 1 maxMissed := by
          have hlt := verdict_eq_dead_iff.not.mp hdead
          omega
        simp only [hdead, hover, heq, ne_eq, not_false_eq_true, if_true, and_self, decide_true]
    · have hne : n + 1 ≠ max 1 maxMissed := by omega
      rw [if_neg hmissed, verdict_succ (by omega)]
      split_ifs with halive
      · simp [hne]
      · simp [hne]
  · simp [hover]

/-! ## Runs -/

namespace FailureDetector

/-- What an event does. -/
def step (d : FailureDetector NodeId) : DetectorEvent NodeId → Option (FailureDetector NodeId)
  | .heartbeat peerId now => some (d.recordHeartbeat peerId now)
  | .round now => some (d.check now).1

variable {d d' : FailureDetector NodeId} {p : NodeId} {entered : Time}
  {es : List (DetectorEvent NodeId)}

/-- The detector has of the peer what the history says. -/
def Shows (entered : Time) (p : NodeId) (es : List (DetectorEvent NodeId))
    (d : FailureDetector NodeId) : Prop :=
  d.health.get? p = some (expected d.timeout d.maxMissed entered p es)

theorem Shows.initial {peers : List NodeId} {now : NodeId → Time} {timeout : Time} {maxMissed : ℕ}
    (hp : p ∈ peers) :
    Shows (now p) p [] { init peers now with timeout := timeout, maxMissed := maxMissed } := by
  unfold Shows init
  dsimp only
  rw [Dict.get?_foldl_set (fun p => ({ lastHeartbeat := now p } : NodeHealth)), if_pos hp]
  simp [expected, verdict, lastBeat, overdue, roundsSince]

theorem Shows.heartbeat (h : Shows entered p es d) (q : NodeId) (now : Time) :
    Shows entered p (es ++ [.heartbeat q now]) (d.recordHeartbeat q now) := by
  unfold recordHeartbeat Shows at *
  by_cases hq : q = p
  · subst hq
    rw [h]
    dsimp only
    rw [Dict.get?_set_self]
    simp [expected, verdict]
  · have hsame : expected d.timeout d.maxMissed entered p (es ++ [.heartbeat q now]) =
        expected d.timeout d.maxMissed entered p es := by
      simp [expected, lastBeat_heartbeat_ne hq, overdue_heartbeat_ne hq]
    split
    · rw [hsame, h]
    · dsimp only
      rw [Dict.get?_set_ne _ _ hq, hsame, h]

theorem Shows.round (h : Shows entered p es d) (now : Time) :
    Shows entered p (es ++ [.round now]) (d.check now).1 := by
  unfold check Shows at *
  dsimp only
  rw [Dict.get?_mapValues, h, Option.map_some, check_expected]

theorem Shows.step {e : DetectorEvent NodeId} (h : Shows entered p es d)
    (hs : d.step e = some d') : Shows entered p (es ++ [e]) d' := by
  cases e with
  | heartbeat q now =>
    cases hs
    exact h.heartbeat q now
  | round now =>
    cases hs
    exact h.round now

theorem Shows.getStatus (h : Shows entered p es d) : d.getStatus p =
    verdict d.maxMissed (lastBeat p es).isSome (overdue d.timeout entered p es) := by
  unfold FailureDetector.getStatus
  rw [h]
  rfl

/-- For which peers a round schedules the callbacks. -/
theorem Shows.mem_check (h : Shows entered p es d) (now : Time) : p ∈ (d.check now).2 ↔
    d.timeout < now - (lastBeat p es).getD entered ∧
      overdue d.timeout entered p es + 1 = max 1 d.maxMissed := by
  unfold check
  dsimp only
  rw [List.mem_map]
  constructor
  · rintro ⟨⟨q, health⟩, he, rfl⟩
    obtain ⟨hentry, hcheck⟩ := List.mem_filter.mp he
    have hget := Dict.get?_eq_some_iff.mpr hentry
    rw [h] at hget
    rw [← Option.some.inj hget, check_expected] at hcheck
    exact of_decide_eq_true hcheck
  · intro hround
    refine ⟨(p, _), List.mem_filter.mpr ⟨Dict.get?_eq_some_iff.mp h, ?_⟩, rfl⟩
    rw [check_expected]
    exact decide_eq_true hround

end FailureDetector

/-- A run of a detector from its `__init__`, in which the entry of `p` is made at `entered p`. -/
abbrev DetectorRun (peers : List NodeId) (entered : NodeId → Time) (timeout : Time)
    (maxMissed : ℕ) :=
  Run FailureDetector.step
    { FailureDetector.init peers entered with timeout := timeout, maxMissed := maxMissed }

namespace DetectorRun

variable {peers : List NodeId} {entered : NodeId → Time} {timeout : Time} {maxMissed : ℕ}
  (run : DetectorRun peers entered timeout maxMissed)

/-- What has happened before time `i`. -/
def events (i : ℕ) : List (DetectorEvent NodeId) := run.history (fun _ e => [e]) i

theorem parameters : ∀ i ≤ run.length,
    (run.state i).timeout = timeout ∧ (run.state i).maxMissed = maxMissed := by
  refine run.invariant (P := fun d => d.timeout = timeout ∧ d.maxMissed = maxMissed) ⟨rfl, rfl⟩ ?_
  intro d e d' h hs
  cases e with
  | heartbeat q now =>
    cases hs
    unfold FailureDetector.recordHeartbeat
    split
    · exact h
    · exact h
  | round now =>
    cases hs
    exact h

theorem shows {p : NodeId} (hp : p ∈ peers) : ∀ i ≤ run.length,
    (run.state i).Shows (entered p) p (events run i) := by
  refine run.induction ?_ fun i hi ih => ?_
  · rw [run.state_zero]
    exact .initial hp
  · unfold events
    rw [Run.history_succ]
    exact ih.step (run.state_succ i hi)

/-- **The status of a peer is what the history says.** It is dead when at least `max_missed` rounds
(and one at least) since its last heartbeat came too late; otherwise suspected when some round did
and alive when none did, but only if there ever was a heartbeat. The callbacks are scheduled in the
round in which the peer dies, and in no other one until it is heard again. -/
theorem detected {p : NodeId} (hp : p ∈ peers) {i : ℕ} (hi : i ≤ run.length) :
    ((run.state i).getStatus p = .dead ↔
      max 1 maxMissed ≤ overdue timeout (entered p) p (events run i)) ∧
    ((run.state i).getStatus p = .suspected ↔
      (lastBeat p (events run i)).isSome ∧ 0 < overdue timeout (entered p) p (events run i) ∧
        overdue timeout (entered p) p (events run i) < maxMissed) ∧
    ((run.state i).getStatus p = .alive ↔
      (lastBeat p (events run i)).isSome ∧ overdue timeout (entered p) p (events run i) = 0) ∧
    ∀ now, p ∈ ((run.state i).check now).2 ↔
      overdue timeout (entered p) p (events run i) < max 1 maxMissed ∧
        max 1 maxMissed ≤ overdue timeout (entered p) p (events run i ++ [.round now]) := by
  have h := shows run hp i hi
  obtain ⟨htimeout, hmissed⟩ := parameters run i hi
  have hstatus := h.getStatus
  rw [htimeout, hmissed] at hstatus
  rw [hstatus]
  refine ⟨verdict_eq_dead_iff, verdict_eq_suspected_iff, verdict_eq_alive_iff, fun now => ?_⟩
  rw [h.mem_check, htimeout, hmissed, overdue_round]
  split
  · next hover =>
    simp only [hover, true_and]
    omega
  · next hover =>
    simp only [hover, false_and, false_iff]
    omega

end DetectorRun

/-- One peer sends a heartbeat and is then silent, the other one is never heard. -/
def silentEvents : List (DetectorEvent Bool) :=
  [.round 1, .heartbeat true 2, .round 3, .round 5, .round 6, .round 7]

def silent : DetectorRun [true, false] (fun _ => 0) 2 3 :=
  Run.ofEvents _ _ silentEvents (.round 0) (by decide +kernel)

theorem detected_silent : (silent.state 5).getStatus true = .suspected ∧
    true ∈ ((silent.state 5).check 7).2 ∧ false ∉ ((silent.state 5).check 7).2 ∧
    (silent.state 6).getStatus true = .dead := by
  have h₅ := DetectorRun.detected silent (p := true) (by decide) (i := 5) (by decide)
  have h₅' := DetectorRun.detected silent (p := false) (by decide) (i := 5) (by decide)
  have h₆ := DetectorRun.detected silent (p := true) (by decide) (i := 6) (by decide)
  refine ⟨h₅.2.1.mpr (by decide +kernel), (h₅.2.2.2 7).mpr (by decide +kernel),
    (h₅'.2.2.2 7).not.mpr (by decide +kernel), h₆.1.mpr (by decide +kernel)⟩

end Communication
