import Terdistribusi.Aggregator.Properties.ExactlyOnce
import Mathlib.Algebra.GroupWithZero.Nat
import Mathlib.Algebra.BigOperators.Group.List.Basic
import Mathlib.Data.List.Perm.Basic

/-!
# When the counters balance

`received` counts the events of requests, and the other two counters count transactions. They
balance, once everything is acked, as long as every event that is counted is published and every
entry is processed by one transaction (`balanced`).

* `received_eq` — what `received` is in every state: the entries of the stream, what running
  requests have still to publish, and what requests that ended have left out
-/

namespace Aggregator

open Infra

variable {Value Worker : Type}

/-- The events that the request has counted and not yet published. -/
def Request.owed (r : Request Value) : ℕ := if r.counted then r.rest.length else 0

namespace System

/-- What the running requests have still to publish. -/
def owed (s : System Value Worker) : ℕ := (s.requests.map Request.owed).sum

/-- The events that are counted and never published, because their request ends in this step. -/
def loses (s : System Value Worker) : Step Value Worker → ℕ
  | .finish k =>
    match s.requests[k]? with
    | some r => r.owed
    | none => 0
  | _ => 0

/-- Every request is over and every entry of the stream is acked. -/
def Drained (s : System Value Worker) : Prop :=
  s.requests = [] ∧ ∀ k < s.stream.values.length, s.stream.IsAcked k

instance (s : System Value Worker) [DecidableEq Value] : Decidable s.Drained :=
  inferInstanceAs (Decidable (_ ∧ _))

theorem sum_owed_eraseIdx {rs : List (Request Value)} {k : ℕ} {r : Request Value}
    (h : rs[k]? = some r) :
    (rs.map Request.owed).sum = r.owed + ((rs.eraseIdx k).map Request.owed).sum := by
  obtain ⟨hk, rfl⟩ := List.getElem?_eq_some_iff.mp h
  rw [← ((List.getElem_cons_eraseIdx_perm hk).map Request.owed).sum_eq, List.map_cons,
    List.sum_cons]

theorem sum_owed_set {rs : List (Request Value)} {k : ℕ} {r : Request Value}
    (h : rs[k]? = some r) (r' : Request Value) :
    ((rs.set k r').map Request.owed).sum = r'.owed + ((rs.eraseIdx k).map Request.owed).sum := by
  obtain ⟨hk, rfl⟩ := List.getElem?_eq_some_iff.mp h
  rw [((List.set_perm_cons_eraseIdx hk r').map Request.owed).sum_eq, List.map_cons, List.sum_cons]

variable [DecidableEq Worker] {s s' : System Value Worker}

/-- A turn of a worker leaves the requests, what is in the stream and `received` alone. -/
theorem Works.frame {w : Worker} {o : Outcome} {c : Option ℕ} (h : Works s w o c s') :
    s'.requests = s.requests ∧ s'.stream.values = s.stream.values ∧
      s'.db.received = s.db.received := by
  cases h with
  | idle p _ _ => exact ⟨rfl, rfl, rfl⟩
  | deliver ids p _ _ =>
    refine ⟨?_, values_deliver ids, ?_⟩
    all_goals
      unfold goTo System.deliver
      dsimp only
      split <;> rfl
  | process e p _ _ _ =>
    refine ⟨?_, congrArg ConsumerGroup.values (stream_process e.2), ?_⟩
    · unfold goTo System.process
      dsimp only
      split <;> rfl
    · unfold goTo System.process Database.processEvent
      dsimp only
      split_ifs <;> rfl
  | ack ids p _ _ _ =>
    refine ⟨?_, values_ack ids, ?_⟩
    all_goals
      unfold goTo System.ack
      dsimp only
      split <;> rfl

/-- Every step accounts for the events that are received. -/
theorem received_step {e : Step Value Worker} (hs : s.step e = some s') :
    s'.db.received + s.stream.values.length + s.owed =
      s.db.received + s'.stream.values.length + s'.owed + s.loses e := by
  cases e with
  | work w o claimed =>
    obtain ⟨hr, hv, hd⟩ := (works_of_work hs).frame
    simp only [owed, hr, hv, hd, loses, Nat.add_zero]
  | request events =>
    obtain rfl := step_request hs
    simp [owed, loses, Request.owed]
  | count k =>
    obtain ⟨rest, hk, rfl⟩ := step_count hs
    simp only [owed, loses, sum_owed_set hk, sum_owed_eraseIdx hk, Request.owed,
      Database.incrReceived]
    simp
    omega
  | publish k =>
    obtain ⟨ev, rest, hk, rfl⟩ := step_publish hs
    simp only [owed, loses, sum_owed_set hk, sum_owed_eraseIdx hk, Request.owed]
    simp
    omega
  | finish k =>
    obtain ⟨hlt, rfl⟩ := step_finish hs
    have hk := List.getElem?_eq_getElem hlt
    simp only [owed, loses, hk, sum_owed_eraseIdx hk]
    omega
  | start w =>
    obtain rfl := step_start hs
    rfl
  | crash w =>
    obtain rfl := Option.some.inj hs
    rfl

end System

namespace SystemRun

variable [DecidableEq Worker] (run : SystemRun Value Worker)

/-- The events that requests have counted and left out before time `i`. -/
def lost (i : ℕ) : ℕ := ((List.range i).map fun j => (run.state j).loses (run.event j)).sum

/-- **Where the received events are**: in the stream, with a running request, or left out. -/
theorem received_eq : ∀ i ≤ run.length, (run.state i).db.received =
    (run.state i).stream.values.length + (run.state i).owed + lost run i := by
  refine run.induction ?_ fun i hi ih => ?_
  · rw [run.state_zero]
    rfl
  · have hstep := System.received_step (run.state_succ i hi)
    have hlost : lost run (i + 1) = lost run i + (run.state i).loses (run.event i) := by
      unfold lost
      rw [List.range_succ, List.map_append, List.sum_append]
      simp
    omega

/-- **The counters balance once everything is drained**, when no request has left out an event that
it counted and no entry was processed by two transactions. -/
theorem balanced (hlost : ∀ j < run.length, (run.state j).loses (run.event j) = 0)
    (honce : (committed run run.length).Nodup) {i : ℕ} (hi : i ≤ run.length)
    (hdrained : (run.state i).Drained) :
    (run.state i).db.received =
      (run.state i).db.uniqueProcessed + (run.state i).db.duplicateDropped := by
  have h := consistent run i hi
  have hreceived := received_eq run i hi
  have howed : (run.state i).owed = 0 := by
    unfold System.owed
    rw [hdrained.1]
    rfl
  have hzero : lost run i = 0 := by
    refine List.sum_eq_zero fun x hx => ?_
    obtain ⟨j, hj, rfl⟩ := List.mem_map.mp hx
    exact hlost j ((List.mem_range.mp hj).trans_le hi)
  -- the processed entries are all the entries of the stream, each once
  have hperm : (committed run i).Perm (List.range (run.state i).stream.values.length) := by
    refine (List.perm_ext_iff_of_nodup (honce.sublist ?_) List.nodup_range).mpr fun k => ?_
    · exact (List.range_sublist.mpr hi).filterMap _
    · rw [List.mem_range]
      constructor
      · intro hk
        obtain ⟨ev, hev, -⟩ := h.stored k hk
        exact (List.getElem?_eq_some_iff.mp hev).1
      · exact fun hk => h.acked k (hdrained.2 k hk)
  have hlen := hperm.length_eq
  rw [List.length_range] at hlen
  have hcounted := h.counted
  omega

end SystemRun

/-! ## Runs that balance and runs that do not -/

/-- A request publishes an event twice, and a worker processes and acks both entries. -/
def repeatedSteps : List (Step Unit Bool) :=
  [.request [event "a", event "a"], .count 0, .publish 0, .publish 0, .finish 0, .start false,
    .work false .done [], .work false .done [], .work false .done [], .work false .done [],
    .work false .done [], .work false .done [], .work false .done []]

def repeated : SystemRun Unit Bool :=
  Run.ofEvents _ _ repeatedSteps (.finish 0) (by decide +kernel)

theorem balanced_repeated : (repeated.state 13).Drained ∧ (repeated.state 13).db.received =
    (repeated.state 13).db.uniqueProcessed + (repeated.state 13).db.duplicateDropped :=
  ⟨by decide +kernel, SystemRun.balanced repeated (by decide +kernel) (by decide +kernel) (i := 13)
    (by decide) (by decide +kernel)⟩

/-- A request counts two events and fails after it has published the first, which a worker processes
and acks. -/
def halfPublishedSteps : List (Step Unit Bool) :=
  [.request [event "a", event "b"], .count 0, .publish 0, .finish 0, .start false,
    .work false .done [], .work false .done [], .work false .done [], .work false .done [],
    .work false .done [], .work false .done []]

def halfPublished : SystemRun Unit Bool :=
  Run.ofEvents _ _ halfPublishedSteps (.finish 0) (by decide +kernel)

/-- With an event left out the counters stay behind `received`, and with an entry that is processed
twice they get ahead of it. -/
theorem unbalanced :
    ((halfPublished.state 11).Drained ∧ (halfPublished.state 11).db.received = 2 ∧
      (halfPublished.state 11).db.uniqueProcessed = 1 ∧
      (halfPublished.state 11).db.duplicateDropped = 0) ∧
    (redelivered.state 14).Drained ∧ (redelivered.state 14).db.received = 1 ∧
      (redelivered.state 14).db.uniqueProcessed = 1 ∧
      (redelivered.state 14).db.duplicateDropped = 1 :=
  ⟨⟨by decide +kernel, by decide +kernel, by decide +kernel, by decide +kernel⟩,
    by decide +kernel, by decide +kernel, by decide +kernel, by decide +kernel⟩

end Aggregator
