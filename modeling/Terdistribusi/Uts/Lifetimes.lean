import Terdistribusi.Uts.Service

/-!
# An application that is stopped and started again

`lifespan` (`src/main.py`) opens the store on its file and starts a new service; the queue and the
counters are in memory only. When the application stops or crashes while `add_if_new` runs in its
thread, the row may still come into the table.
-/

namespace Uts

open Infra

variable {Payload : Type}

/-- What can happen over several lifetimes. A call of `add_if_new` ends in any way. -/
inductive LifeStep (Payload : Type)
  | publish (events : List (Event Payload))
  | take
  | finish (o : Outcome) (now : List Char)
  /-- The application ends and starts again. An event at `add_if_new` has been inserted at a time,
  or not. -/
  | restart (inserted : Option (List Char))

namespace AggregatorService

/-- A new service on the table that the old one leaves. -/
def restart (inserted : Option (List Char)) (s : AggregatorService Payload) :
    AggregatorService Payload :=
  start
    { store :=
        match inserted, s.workerTask with
        | some now, .adding event => (s.store.addIfNew event now).2
        | _, _ => s.store }

def lifeStep (s : AggregatorService Payload) :
    LifeStep Payload → Option (AggregatorService Payload)
  | .publish events => some (s.publish events)
  | .take => s.take
  | .finish o now => s.finish o now
  | .restart inserted => some (s.restart inserted)

end AggregatorService

/-- A run over several lifetimes on one store. -/
abbrev LifetimeRun (store : DedupStore Payload) :=
  Run AggregatorService.lifeStep (AggregatorService.start { store := store })

end Uts
