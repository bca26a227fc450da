import Terdistribusi.Uts.Service
import Terdistribusi.Uts.Properties.TimeOrder

/-!
# An event that cannot be added

`_worker` has no handler for what `add_if_new` raises: the `finally` marks the event as done and the
exception ends the task, which nothing starts again. So the worker survives only the failure of the
last event that is published (`survives_iff`).

`Progress` says for every state of a run which of the published events have been added, which one
the worker has, and which are in the queue. The worker comes to rest as soon as nothing more is
published (`exists_quiet`).
-/

namespace Uts

open Infra

variable {Payload : Type} {calls : ℕ → Outcome} {store : DedupStore Payload}

/-- The events that a step publishes. -/
def Step.published : Step Payload → List (Event Payload)
  | .publish events => events
  | _ => []

namespace AggregatorService

variable {s s' : AggregatorService Payload} {l : List (Event Payload)}

/-- The event that the worker has. -/
def held (s : AggregatorService Payload) : List (Event Payload) :=
  match s.workerTask with
  | .adding event => [event]
  | _ => []

theorem held_eq_nil (h : ∀ event, s.workerTask ≠ .adding event) : s.held = [] := by
  unfold held
  split
  · next event hworker => exact absurd hworker (h event)
  · rfl

/-- How far the service has come with the events `l` that have been published. -/
structure Progress (calls : ℕ → Outcome) (l : List (Event Payload))
    (s : AggregatorService Payload) : Prop where
  rest : l.drop s.added = s.held ++ s.queue
  le : s.added ≤ l.length
  started : s.workerTask ≠ .none
  alive : s.workerTask ≠ .done → ∀ n < s.added, calls n = .returns
  /-- A task that has ended has done so with the last call. -/
  ended : s.workerTask = .done →
    ∃ n, s.added = n + 1 ∧ (∀ m < n, calls m = .returns) ∧ calls n ≠ .returns
  stored : ∀ n < s.added, calls n = .returns → ∀ event, l[n]? = some event →
    event.key ∈ s.store.keys
  counted : s.uniqueProcessed + s.duplicateDropped =
    (List.range s.added).countP fun n => calls n = .returns

theorem publish_eq (events : List (Event Payload)) : ∀ s : AggregatorService Payload,
    s.publish events = { s with
      received := s.received + events.length
      queue := s.queue ++ events } := by
  induction events with
  | nil => intro s; simp [publish]
  | cons event events ih =>
    intro s
    show publish events { s with received := s.received + 1, queue := s.queue ++ [event] } = _
    rw [ih]
    simp [Nat.add_assoc, Nat.add_comm 1]

theorem Progress.publish (h : Progress calls l s) (events : List (Event Payload)) :
    Progress calls (l ++ events) (s.publish events) := by
  rw [publish_eq]
  refine ⟨?_, ?_, h.started, h.alive, h.ended, fun n hn hcall event hevent => ?_, h.counted⟩
  · rw [List.drop_append_of_le_length h.le, h.rest, List.append_assoc]
    rfl
  · rw [List.length_append]
    exact h.le.trans (Nat.le_add_right _ _)
  · rw [List.getElem?_append_left (hn.trans_le h.le)] at hevent
    exact h.stored n hn hcall event hevent

theorem Progress.take (h : Progress calls l s) (hs : s.take = some s') : Progress calls l s' := by
  unfold AggregatorService.take at hs
  split at hs
  · next event queue hworker hqueue =>
    cases hs
    have hrest := h.rest
    rw [held_eq_nil (by simp [hworker]), hqueue] at hrest
    exact ⟨hrest, h.le, by simp, fun _ => h.alive (by rw [hworker]; simp), by simp, h.stored,
      h.counted⟩
  · cases hs

/-- The event of the call that ends. -/
theorem Progress.getElem? (h : Progress calls l s) {event : Event Payload}
    (hworker : s.workerTask = .adding event) :
    l[s.added]? = some event ∧ l.drop (s.added + 1) = s.queue := by
  have hrest := h.rest
  unfold held at hrest
  rw [hworker] at hrest
  constructor
  · have hget := congrArg (fun x => x[0]?) hrest
    simpa using hget
  · have htail := congrArg List.tail hrest
    simpa using htail

/-- Every call before the one that ends has returned. -/
theorem Progress.alive_of_adding (h : Progress calls l s) {event : Event Payload}
    (hworker : s.workerTask = .adding event) : ∀ n < s.added, calls n = .returns :=
  h.alive (by rw [hworker]; simp)

/-- With nothing in the queue and no event held, every call has ended. -/
theorem Progress.added_eq (h : Progress calls l s) (hheld : s.held = []) (hqueue : s.queue = []) :
    s.added = l.length := by
  have hrest := h.rest
  rw [hheld, hqueue, List.append_nil, List.drop_eq_nil_iff] at hrest
  exact Nat.le_antisymm h.le hrest

theorem countP_range_succ (n : ℕ) :
    ((List.range (n + 1)).countP fun m => calls m = .returns) =
      ((List.range n).countP fun m => calls m = .returns) +
        if calls n = .returns then 1 else 0 := by
  rw [List.range_succ, List.countP_append, List.countP_singleton]
  simp

/-- `add_if_new` returns. -/
theorem Progress.add (h : Progress calls l s) {event : Event Payload}
    (hworker : s.workerTask = .adding event) (hcall : calls s.added = .returns)
    (now : List Char) : Progress calls l
      { s with
        store := (s.store.addIfNew event now).2
        uniqueProcessed :=
          if (s.store.addIfNew event now).1 then s.uniqueProcessed + 1 else s.uniqueProcessed
        duplicateDropped :=
          if (s.store.addIfNew event now).1 then s.duplicateDropped else s.duplicateDropped + 1
        workerTask := .waiting
        added := s.added + 1 } := by
  obtain ⟨hget, hdrop⟩ := h.getElem? hworker
  refine ⟨hdrop, (List.getElem?_eq_some_iff.mp hget).1, by simp, fun _ n hn => ?_, by simp,
    fun n hn hret ev hev => ?_, ?_⟩
  · rcases Nat.lt_succ_iff_lt_or_eq.mp hn with hlt | rfl
    · exact h.alive_of_adding hworker n hlt
    · exact hcall
  · rcases Nat.lt_succ_iff_lt_or_eq.mp hn with hlt | rfl
    · exact DedupStore.mem_keys_addIfNew.mpr (Or.inr (h.stored n hlt hret ev hev))
    · rw [hget] at hev
      cases hev
      exact DedupStore.mem_keys_addIfNew.mpr (Or.inl rfl)
  · have hcounted := h.counted
    dsimp only
    rw [countP_range_succ, if_pos hcall]
    split <;> omega

/-- `add_if_new` raises, whether or not the row is in the table. -/
theorem Progress.fail (h : Progress calls l s) {event : Event Payload}
    (hworker : s.workerTask = .adding event) (hcall : calls s.added ≠ .returns)
    {store : DedupStore Payload} (hkeys : ∀ key ∈ s.store.keys, key ∈ store.keys) :
    Progress calls l
      { s with store := store, workerTask := .done, added := s.added + 1 } := by
  obtain ⟨hget, hdrop⟩ := h.getElem? hworker
  have halive := h.alive_of_adding hworker
  refine ⟨hdrop, (List.getElem?_eq_some_iff.mp hget).1, by simp, by simp,
    fun _ => ⟨s.added, rfl, halive, hcall⟩, fun n hn hret ev hev => ?_, ?_⟩
  · rcases Nat.lt_succ_iff_lt_or_eq.mp hn with hlt | rfl
    · exact hkeys _ (h.stored n hlt hret ev hev)
    · exact absurd hret hcall
  · dsimp only
    rw [countP_range_succ, if_neg hcall]
    exact h.counted

theorem Progress.finish (h : Progress calls l s) {now : List Char}
    (hs : s.finish (calls s.added) now = some s') : Progress calls l s' := by
  unfold AggregatorService.finish at hs
  split at hs
  · next event hworker =>
    cases hcall : calls s.added with
    | returns =>
      rw [hcall] at hs
      cases hs
      exact h.add hworker hcall now
    | raises =>
      rw [hcall] at hs
      cases hs
      exact h.fail hworker (by simp [hcall]) fun _ => id
    | raisesLate =>
      rw [hcall] at hs
      cases hs
      exact h.fail hworker (by simp [hcall]) fun _ hkey =>
        DedupStore.mem_keys_addIfNew.mpr (Or.inr hkey)
  · cases hs

/-- **Every step makes progress.** -/
theorem Progress.step (h : Progress calls l s) {e : Step Payload} (hs : s.step calls e = some s') :
    Progress calls (l ++ e.published) s' := by
  cases e with
  | publish events =>
    cases hs
    exact h.publish events
  | take =>
    show Progress calls (l ++ []) s'
    rw [List.append_nil]
    exact h.take hs
  | finish now =>
    show Progress calls (l ++ []) s'
    rw [List.append_nil]
    exact h.finish hs

theorem Progress.initial : Progress calls [] (AggregatorService.start { store := store }) where
  rest := rfl
  le := Nat.le_refl 0
  started := by simp [AggregatorService.start]
  alive := fun _ _ hn => absurd hn (Nat.not_lt_zero _)
  ended := by simp [AggregatorService.start]
  stored := fun _ hn => absurd hn (Nat.not_lt_zero _)
  counted := rfl

/-! ## The worker comes to rest -/

/-- What the worker still has to do. -/
def work (s : AggregatorService Payload) : ℕ :=
  2 * s.queue.length + s.held.length

/-- All of the events are out of the queue, and those that can be added are stored and counted. -/
structure Survives (calls : ℕ → Outcome) (l : List (Event Payload))
    (s : AggregatorService Payload) : Prop where
  queue : s.queue = []
  stored : ∀ n event, l[n]? = some event → calls n = .returns → event.key ∈ s.store.keys
  counted : s.uniqueProcessed + s.duplicateDropped =
    (List.range l.length).countP fun n => calls n = .returns

/-- The worker waits for an event, or its task has ended. -/
theorem Progress.quiet_cases (h : Progress calls l s) (hq : s.Quiet) :
    (s.workerTask = .waiting ∧ s.queue = []) ∨ s.workerTask = .done := by
  cases hworker : s.workerTask with
  | none => exact absurd hworker h.started
  | waiting =>
    refine Or.inl ⟨rfl, ?_⟩
    cases hqueue : s.queue with
    | nil => rfl
    | cons event queue =>
      have htake := hq.1
      unfold AggregatorService.take at htake
      rw [hworker, hqueue] at htake
      cases htake
  | adding event =>
    have hfinish := hq.2 .returns []
    unfold AggregatorService.finish at hfinish
    rw [hworker] at hfinish
    cases hfinish
  | done => exact Or.inr rfl

/-- **With an empty queue everything has been added** that can be. -/
theorem Progress.survives (h : Progress calls l s) (hheld : s.held = []) (hqueue : s.queue = []) :
    Survives calls l s := by
  have hadded := h.added_eq hheld hqueue
  refine ⟨hqueue, fun n event hevent hcall => ?_, ?_⟩
  · exact h.stored n (hadded ▸ (List.getElem?_eq_some_iff.mp hevent).1) hcall event hevent
  · rw [h.counted, hadded]

theorem Progress.survives_iff_of_quiet (h : Progress calls l s) (hq : s.Quiet) :
    Survives calls l s ↔ ∀ n, n + 1 < l.length → calls n = .returns := by
  rcases h.quiet_cases hq with ⟨hworker, hqueue⟩ | hworker
  · have hheld : s.held = [] := held_eq_nil (by simp [hworker])
    have hadded := h.added_eq hheld hqueue
    exact iff_of_true (h.survives hheld hqueue) fun n hn =>
      h.alive (by rw [hworker]; simp) n (by omega)
  · have hheld : s.held = [] := held_eq_nil (by simp [hworker])
    have hrest := h.rest
    rw [hheld, List.nil_append] at hrest
    obtain ⟨n, hadded, hbefore, hraises⟩ := h.ended hworker
    constructor
    · intro hsurvives m hm
      rw [hsurvives.queue, List.drop_eq_nil_iff] at hrest
      exact hbefore m (by omega)
    · intro hcond
      refine h.survives hheld ?_
      rw [← hrest, List.drop_eq_nil_iff]
      by_contra hlt
      exact hraises (hcond n (by omega))

end AggregatorService

namespace ServiceRun

variable (run : ServiceRun calls store)

/-- The events that have been published before time `i`. -/
def published (i : ℕ) : List (Event Payload) :=
  (List.range i).flatMap fun j => (run.event j).published

theorem published_succ (i : ℕ) :
    published run (i + 1) = published run i ++ (run.event i).published := by
  unfold published
  rw [List.range_succ, List.flatMap_append]
  simp

theorem progress : ∀ i ≤ run.length,
    AggregatorService.Progress calls (published run i) (run.state i) := by
  refine run.induction ?_ fun i hi h => ?_
  · rw [run.state_zero]
    exact .initial
  · rw [published_succ]
    exact h.step (run.state_succ i hi)

/-- When the worker can make no further step, the queue is empty and every event that can be added
is stored and counted, exactly when no event but the last one that was published raises. -/
theorem survives_iff {i : ℕ} (hi : i ≤ run.length) (hquiet : (run.state i).Quiet) :
    AggregatorService.Survives calls (published run i) (run.state i) ↔
      ∀ n, n + 1 < (published run i).length → calls n = .returns :=
  (progress run i hi).survives_iff_of_quiet hquiet

end ServiceRun

/-! ## The last event fails, and the first one -/

/-- `add_if_new` raises in the `k`-th call. -/
def failsAt (k n : ℕ) : Outcome := if n = k then .raises else .returns

/-- A batch of two events, of which the second cannot be added. -/
def lastFails : ServiceRun (failsAt 1) (DedupStore.empty : DedupStore Unit) :=
  Run.ofEvents _ _ [.publish [nineEvent, tenEastEvent], .take, .finish [], .take, .finish []]
    .take rfl

theorem survives_lastFails :
    AggregatorService.Survives (failsAt 1) (ServiceRun.published lastFails 5)
      (lastFails.state 5) := by
  refine (ServiceRun.survives_iff lastFails (Nat.le_refl 5) ⟨rfl, fun _ _ => rfl⟩).mpr
    fun n hn => ?_
  have hzero : n = 0 := Nat.lt_one_iff.mp (Nat.lt_of_succ_lt_succ hn)
  rw [hzero]
  rfl

/-- The same batch when the first event cannot be added. -/
def firstFails : ServiceRun (failsAt 0) (DedupStore.empty : DedupStore Unit) :=
  Run.ofEvents _ _ [.publish [nineEvent, tenEastEvent], .take, .finish []] .take rfl

/-- The task of the worker has ended and the second event stays in the queue. -/
theorem not_survives_firstFails : (firstFails.state 3).Quiet ∧
    (firstFails.state 3).queue = [tenEastEvent] ∧ (firstFails.state 3).store.rows = [] ∧
    ¬ AggregatorService.Survives (failsAt 0) (ServiceRun.published firstFails 3)
      (firstFails.state 3) :=
  ⟨⟨rfl, fun _ _ => rfl⟩, rfl, rfl, fun h => by cases h.queue⟩

end Uts
