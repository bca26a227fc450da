import Terdistribusi.Uts.Lifetimes
import Terdistribusi.Uts.Properties.Survival

/-!
# Deduplication over restarts

The queue and the counters are lost with every restart, and the table is what is left. It remembers
the first event that was added under each key, in whichever lifetime that was.

* `DedupStore.mem_rows_addEach` — the rows after events have been added one after the other
* `AggregatorService.Accounted` — what the table, the queue and the counters come from
* `LifetimeRun.first_stored`
-/

namespace Uts

open Infra

variable {Payload : Type}

namespace DedupStore

variable {store : DedupStore Payload}

theorem addEach_append (events' : List (Event Payload × List Char)) :
    ∀ (events : List (Event Payload × List Char)) (store : DedupStore Payload),
      (store.addEach (events ++ events')).2 = ((store.addEach events).2.addEach events').2
  | [], _ => rfl
  | x :: events, store => addEach_append events' events (store.addIfNew x.1 x.2).2

@[simp] theorem addEach_singleton (event : Event Payload) (now : List Char) :
    (store.addEach [(event, now)]).2 = (store.addIfNew event now).2 := rfl

/-- The rows after an event has been added. -/
theorem mem_rows_addIfNew {event : Event Payload} {now : List Char} {row : Row Payload} :
    row ∈ (store.addIfNew event now).2.rows ↔
      row ∈ store.rows ∨ event.key ∉ store.keys ∧ row = event.row now := by
  rw [rows_addIfNew, List.mem_append]
  refine or_congr_right ?_
  split
  · next hnew => simp [addIfNew_fst.mp hnew]
  · next hold =>
    rw [addIfNew_fst, not_not] at hold
    simp [hold]

/-- The row is that of the first of the events with its key, and the store does not have the key. -/
def Adds (store : DedupStore Payload) (events : List (Event Payload × List Char))
    (row : Row Payload) : Prop :=
  ∃ pre event now post, events = pre ++ (event, now) :: post ∧ row = event.row now ∧
    event.key ∉ store.keys ∧ ∀ x ∈ pre, x.1.key ≠ event.key

/-- **The rows are the old ones and one for the first event of each new key.** -/
theorem mem_rows_addEach {row : Row Payload} : ∀ (events : List (Event Payload × List Char))
    (store : DedupStore Payload),
    row ∈ (store.addEach events).2.rows ↔ row ∈ store.rows ∨ store.Adds events row
  | [], store => by simp [addEach, Adds]
  | (event, now) :: rest, store => by
    refine (mem_rows_addEach rest (store.addIfNew event now).2).trans ?_
    rw [mem_rows_addIfNew]
    constructor
    · rintro ((hrow | ⟨hnew, rfl⟩) | ⟨pre, event', now', post, rfl, rfl, hkey, hpre⟩)
      · exact Or.inl hrow
      · exact Or.inr ⟨[], event, now, rest, rfl, rfl, hnew, by simp⟩
      · rw [mem_keys_addIfNew, not_or] at hkey
        refine Or.inr ⟨(event, now) :: pre, event', now', post, rfl, rfl, hkey.2, ?_⟩
        intro x hx
        rcases List.mem_cons.mp hx with rfl | hx
        · exact Ne.symm hkey.1
        · exact hpre x hx
    · rintro (hrow | ⟨pre, event', now', post, heq, rfl, hkey, hpre⟩)
      · exact Or.inl (Or.inl hrow)
      · cases pre with
        | nil =>
          cases heq
          exact Or.inl (Or.inr ⟨hkey, rfl⟩)
        | cons y pre =>
          cases heq
          refine Or.inr ⟨pre, event', now', post, rfl, rfl, ?_, fun x hx =>
            hpre x (List.mem_cons_of_mem _ hx)⟩
          rw [mem_keys_addIfNew, not_or]
          exact ⟨Ne.symm (hpre _ List.mem_cons_self), hkey⟩

end DedupStore

/-- The events that a step publishes. -/
def LifeStep.publishes : LifeStep Payload → List (Event Payload)
  | .publish events => events
  | _ => []

namespace AggregatorService

variable {s s' : AggregatorService Payload} {e : LifeStep Payload}

/-- The event that a step adds to the store, with the time. -/
def adds (s : AggregatorService Payload) : LifeStep Payload → List (Event Payload × List Char)
  | .finish .raises _ => []
  | .finish _ now | .restart (some now) => s.held.map fun event => (event, now)
  | _ => []

/-- The events that are neither counted nor in the queue: the one that the worker has, and the one
that has ended it. -/
def unsettled (s : AggregatorService Payload) : ℕ :=
  match s.workerTask with
  | .adding _ | .done => 1
  | _ => 0

/-- What the table, the queue and the counters come from. -/
structure Accounted (store : DedupStore Payload) (added : List (Event Payload × List Char))
    (published : List (Event Payload)) (s : AggregatorService Payload) : Prop where
  store : s.store = (store.addEach added).2
  order : (added.map Prod.fst ++ (s.held ++ s.queue)).Sublist published
  received : s.received = s.uniqueProcessed + s.duplicateDropped + s.queue.length + s.unsettled

variable {store : DedupStore Payload} {added : List (Event Payload × List Char)}
  {published : List (Event Payload)}

theorem Accounted.publish (h : Accounted store added published s) (events : List (Event Payload)) :
    Accounted store added (published ++ events) (s.publish events) := by
  rw [publish_eq]
  refine ⟨h.store, ?_, ?_⟩
  · show (added.map Prod.fst ++ (s.held ++ (s.queue ++ events))).Sublist _
    simpa using h.order.append_right events
  · have hreceived := h.received
    show s.received + events.length =
      s.uniqueProcessed + s.duplicateDropped + (s.queue ++ events).length + s.unsettled
    rw [List.length_append]
    omega

theorem Accounted.take (h : Accounted store added published s) (hs : s.take = some s') :
    Accounted store added published s' := by
  unfold AggregatorService.take at hs
  split at hs
  · next event queue hworker hqueue =>
    cases hs
    have horder := h.order
    have hreceived := h.received
    rw [held_eq_nil (by simp [hworker]), hqueue] at horder
    refine ⟨h.store, horder, ?_⟩
    simp only [unsettled, hworker, hqueue, List.length_cons] at hreceived ⊢
    omega
  · cases hs

/-- The event is out of the worker's hands, added or not. -/
theorem Accounted.order_of_adding (h : Accounted store added published s) {event : Event Payload}
    (hworker : s.workerTask = .adding event) (now : List Char) :
    (added.map Prod.fst ++ s.queue).Sublist published ∧
      ((added ++ [(event, now)]).map Prod.fst ++ s.queue).Sublist published := by
  have horder := h.order
  simp only [held, hworker] at horder
  constructor
  · exact ((List.sublist_append_right [event] s.queue).append_left _).trans horder
  · simpa using horder

theorem Accounted.finish (h : Accounted store added published s) {o : Outcome} {now : List Char}
    (hs : s.finish o now = some s') :
    Accounted store (added ++ s.adds (.finish o now)) published s' := by
  unfold AggregatorService.finish at hs
  split at hs
  · next event hworker =>
    obtain ⟨hdropped, hadded⟩ := h.order_of_adding hworker now
    have hstore := h.store
    have hreceived := h.received
    simp only [unsettled, hworker] at hreceived
    cases hs
    cases o with
    | returns =>
      refine ⟨?_, ?_, ?_⟩
      · simp [adds, held, hworker, DedupStore.addEach_append, ← hstore]
      · simpa [adds, held, hworker] using hadded
      · simp only [unsettled]
        split <;> omega
    | raises =>
      refine ⟨?_, ?_, ?_⟩
      · simpa [adds] using hstore
      · simpa [adds, held] using hdropped
      · simpa [unsettled] using hreceived
    | raisesLate =>
      refine ⟨?_, ?_, ?_⟩
      · simp [adds, held, hworker, DedupStore.addEach_append, ← hstore]
      · simpa [adds, held, hworker] using hadded
      · simpa [unsettled] using hreceived
  · cases hs

/-- A restart leaves the table and what may still come into it. -/
theorem restart_eq (inserted : Option (List Char)) (s : AggregatorService Payload) :
    s.restart inserted =
      { store := (s.store.addEach (s.adds (.restart inserted))).2, workerTask := .waiting } := by
  cases inserted with
  | none => rfl
  | some now => cases hworker : s.workerTask <;>
      simp [AggregatorService.restart, start, adds, held, hworker, DedupStore.addEach]

theorem Accounted.restart (h : Accounted store added published s) (inserted : Option (List Char)) :
    Accounted store (added ++ s.adds (.restart inserted)) published (s.restart inserted) := by
  rw [restart_eq]
  refine ⟨?_, ?_, rfl⟩
  · rw [DedupStore.addEach_append, ← h.store]
  · have hadds : ((s.adds (.restart inserted)).map Prod.fst).Sublist s.held := by
      cases inserted <;> simp [adds, Function.comp_def]
    have hheld := (hadds.trans (List.sublist_append_left s.held s.queue)).append_left
      (added.map Prod.fst)
    simpa [held] using hheld.trans h.order

/-- **Every step is accounted for.** -/
theorem Accounted.lifeStep (h : Accounted store added published s) (hs : s.lifeStep e = some s') :
    Accounted store (added ++ s.adds e) (published ++ e.publishes) s' := by
  cases e with
  | publish events =>
    cases hs
    simpa [adds, LifeStep.publishes] using h.publish events
  | take => simpa [adds, LifeStep.publishes] using h.take hs
  | finish o now => simpa [LifeStep.publishes] using h.finish hs
  | restart inserted =>
    cases hs
    simpa [LifeStep.publishes] using h.restart inserted

theorem rows_lifeStep (hs : s.lifeStep e = some s') : s.store.rows <+: s'.store.rows := by
  have hadd (event : Event Payload) (now : List Char) :
      s.store.rows <+: (s.store.addIfNew event now).2.rows := by
    rw [DedupStore.rows_addIfNew]
    exact List.prefix_append _ _
  cases e with
  | publish events =>
    cases hs
    rw [publish_eq]
  | take =>
    simp only [AggregatorService.lifeStep, AggregatorService.take] at hs
    split at hs
    · cases hs
      exact List.prefix_refl _
    · cases hs
  | finish o now =>
    simp only [AggregatorService.lifeStep, AggregatorService.finish] at hs
    split at hs
    · next event hworker =>
      cases hs
      cases o with
      | returns => exact hadd event now
      | raises => exact List.prefix_refl _
      | raisesLate => exact hadd event now
    · cases hs
  | restart inserted =>
    cases hs
    simp only [AggregatorService.restart, start]
    split
    · next now event _ => exact hadd event now
    · exact List.prefix_refl _

end AggregatorService

/-! ## Runs -/

namespace LifetimeRun

variable {store : DedupStore Payload} (run : LifetimeRun store)

/-- The events that have been added before time `i`, with the times, in all lifetimes. -/
def added (i : ℕ) : List (Event Payload × List Char) := run.history AggregatorService.adds i

/-- The events that have been published before time `i`, in all lifetimes. -/
def published (i : ℕ) : List (Event Payload) := run.history (fun _ e => e.publishes) i

theorem accounted : ∀ i ≤ run.length,
    AggregatorService.Accounted store (run.added i) (run.published i) (run.state i) := by
  refine run.induction ?_ fun i hi h => ?_
  · rw [run.state_zero]
    exact ⟨rfl, List.nil_sublist _, rfl⟩
  · unfold added published
    rw [run.history_succ, run.history_succ]
    exact h.lifeStep (run.state_succ i hi)

/-- **The table remembers the first of each key over all restarts.** What is added is added in the
order in which it was published. Besides the rows of the beginning the table has exactly one for the
first event that was added under each key that was not there, in whichever lifetime; no row is ever
changed or removed. And in each lifetime every event received is counted as new or as a duplicate,
is in the queue, is with the worker, or has ended it. -/
theorem first_stored : ∀ i ≤ run.length,
    ((run.added i).map Prod.fst).Sublist (run.published i) ∧
    (∀ row, row ∈ (run.state i).store.rows ↔
      row ∈ store.rows ∨ store.Adds (run.added i) row) ∧
    (∀ j ≤ i, (run.state j).store.rows <+: (run.state i).store.rows) ∧
    (run.state i).received = (run.state i).uniqueProcessed + (run.state i).duplicateDropped +
      (run.state i).queue.length + (run.state i).unsettled := by
  intro i hi
  have h := accounted run i hi
  refine ⟨(List.sublist_append_left _ _).trans h.order, fun row => ?_, fun j hj => ?_, h.received⟩
  · rw [h.store]
    exact DedupStore.mem_rows_addEach _ _
  · exact run.rel (R := fun s s' => s.store.rows <+: s'.store.rows) (fun _ => List.prefix_refl _)
      (fun _ _ _ => List.IsPrefix.trans)
      (fun k hk => AggregatorService.rows_lifeStep (run.state_succ k hk)) hj hi

end LifetimeRun

/-- The application ends while an event is added, and the event is published again. -/
def restarted : LifetimeRun (DedupStore.empty : DedupStore Unit) :=
  Run.ofEvents _ _ [.publish [nineEvent], .take, .restart (some []),
    .publish [nineEvent, tenEastEvent], .take, .finish .returns []] .take (by decide +kernel)

theorem first_stored_restarted : (restarted.state 6).duplicateDropped = 1 ∧
    (restarted.state 3).store.rows <+: (restarted.state 6).store.rows ∧
    (restarted.state 6).received = (restarted.state 6).uniqueProcessed +
      (restarted.state 6).duplicateDropped + (restarted.state 6).queue.length +
        (restarted.state 6).unsettled :=
  have h := LifetimeRun.first_stored restarted 6 (by decide)
  ⟨by decide +kernel, h.2.2.1 3 (by decide), h.2.2.2⟩

end Uts
