import Terdistribusi.Uts.Store
import Terdistribusi.Infra.Run

/-!
# The service with one worker

`AggregatorService` (`src/service.py`): `publish` puts events into a queue, and the task `_worker`
takes them out and adds them to the store. `start` is called once, when the application starts
(`lifespan` of `src/main.py`), before any request.

What the worker does between two awaits is one step. `add_if_new` runs in another thread and can
raise, before the row is in the table or after.
-/

namespace Uts

open Infra

variable {Payload : Type}

/-- Where the task `_worker` is. -/
inductive Worker (Payload : Type)
  /-- `start` has not been called. -/
  | none
  /-- at `queue.get` -/
  | waiting
  /-- at `add_if_new` of an event -/
  | adding (event : Event Payload)
  /-- The task has ended with an exception. -/
  | done

/-- How a call of `add_if_new` ends. -/
inductive Outcome
  | returns
  /-- It raises and has inserted nothing. -/
  | raises
  /-- It raises when the row is in the table. -/
  | raisesLate
  deriving DecidableEq

structure AggregatorService (Payload : Type) where
  store : DedupStore Payload
  queue : List (Event Payload) := []
  received : ℕ := 0
  uniqueProcessed : ℕ := 0
  duplicateDropped : ℕ := 0
  workerTask : Worker Payload := .none
  /-- How many calls of `add_if_new` have ended. -/
  added : ℕ := 0

namespace AggregatorService

/-- A task is started if there is none that runs. -/
def start (s : AggregatorService Payload) : AggregatorService Payload :=
  match s.workerTask with
  | .none | .done => { s with workerTask := .waiting }
  | _ => s

/-- The queue has no bound, so `put` does not wait. -/
def publish (events : List (Event Payload)) (s : AggregatorService Payload) :
    AggregatorService Payload :=
  events.foldl (fun s event =>
    { s with received := s.received + 1, queue := s.queue ++ [event] }) s

/-- `_worker` gets an event. -/
def take (s : AggregatorService Payload) : Option (AggregatorService Payload) :=
  match s.workerTask, s.queue with
  | .waiting, event :: queue => some { s with queue := queue, workerTask := .adding event }
  | _, _ => none

/-- `add_if_new` ends, and `_worker` goes on; an exception leaves the loop. -/
def finish (o : Outcome) (now : List Char) (s : AggregatorService Payload) :
    Option (AggregatorService Payload) :=
  match s.workerTask with
  | .adding event =>
    let added := s.store.addIfNew event now
    some (match o with
      | .returns =>
        { s with
          store := added.2
          uniqueProcessed := if added.1 then s.uniqueProcessed + 1 else s.uniqueProcessed
          duplicateDropped := if added.1 then s.duplicateDropped else s.duplicateDropped + 1
          workerTask := .waiting
          added := s.added + 1 }
      | .raises => { s with workerTask := .done, added := s.added + 1 }
      | .raisesLate =>
        { s with store := added.2, workerTask := .done, added := s.added + 1 })
  | _ => none

end AggregatorService

/-- What can happen while the application runs. -/
inductive Step (Payload : Type)
  /-- A request publishes a batch. -/
  | publish (events : List (Event Payload))
  | take
  | finish (now : List Char)

namespace AggregatorService

/-- The calls of `add_if_new` end as `calls` says, in the order of the calls. -/
def step (calls : ℕ → Outcome) (s : AggregatorService Payload) :
    Step Payload → Option (AggregatorService Payload)
  | .publish events => some (s.publish events)
  | .take => s.take
  | .finish now => s.finish (calls s.added) now

/-- The worker can make no further step. -/
def Quiet (s : AggregatorService Payload) : Prop :=
  s.take = none ∧ ∀ o now, s.finish o now = none

end AggregatorService

/-- A run of the service on a store, from its start. -/
abbrev ServiceRun (calls : ℕ → Outcome) (store : DedupStore Payload) :=
  Run (AggregatorService.step calls) (AggregatorService.start { store := store })

end Uts
