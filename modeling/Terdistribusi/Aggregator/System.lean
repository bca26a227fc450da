import Terdistribusi.Infra.ConsumerGroup
import Terdistribusi.Infra.Run

/-!
# The aggregator

The Postgres tables (`app/db.py`), the Redis stream with its consumer group (`app/broker.py`), the
requests to `/publish` (`app/main.py`) and the workers (`app/consumer.py`).

What a worker and a request do between two awaits is one step. A transaction of Postgres and a
command of Redis are atomic; a call of one can raise an exception, before it has taken effect or
after. A worker that crashes, or whose task is cancelled, forgets where it was.
-/

namespace Aggregator

open Infra

variable {Value Worker : Type}

/-- What comes in the body of a request; the timestamp as `model_dump` writes it. -/
structure Event (Value : Type) where
  topic : String
  eventId : String
  timestamp : String
  source : String
  payload : Value
  deriving DecidableEq

/-- The columns of `uq_topic_event`. -/
def Event.key (ev : Event Value) : String × String := (ev.topic, ev.eventId)

/-! ## The database -/

inductive Action
  | processed
  | duplicate
  deriving DecidableEq

structure AuditRow (Worker : Type) where
  topic : String
  eventId : String
  action : Action
  worker : Worker
  deriving DecidableEq

/-- The tables, with a field for each row of `aggregator_stats`. -/
structure Database (Value Worker : Type) where
  processedEvents : List (Event Value) := []
  received : ℕ := 0
  uniqueProcessed : ℕ := 0
  duplicateDropped : ℕ := 0
  auditLog : List (AuditRow Worker) := []

namespace Database

def incrReceived (n : ℕ) (db : Database Value Worker) : Database Value Worker :=
  { db with received := db.received + n }

/-- The transaction of `process_event`, with what it returns: whether the insert was free of a
conflict. -/
def processEvent (ev : Event Value) (worker : Worker) (db : Database Value Worker) :
    Bool × Database Value Worker :=
  let isNew := ev.key ∉ db.processedEvents.map Event.key
  let row action : AuditRow Worker :=
    { topic := ev.topic, eventId := ev.eventId, action := action, worker := worker }
  if isNew then
    (true,
      { db with
        processedEvents := db.processedEvents ++ [ev]
        uniqueProcessed := db.uniqueProcessed + 1
        auditLog := db.auditLog ++ [row .processed] })
  else
    (false,
      { db with
        duplicateDropped := db.duplicateDropped + 1
        auditLog := db.auditLog ++ [row .duplicate] })

end Database

/-! ## Requests and workers -/

/-- A request to `/publish` after its body has been parsed: whether `incr_received` is done, and the
events that are still to be published. -/
structure Request (Value : Type) where
  counted : Bool := false
  rest : List (Event Value)
  deriving DecidableEq

/-- An entry as `read_group` and `claim_stale` return it. -/
abbrev Entry (Value : Type) := ℕ × Event Value

/-- Where `worker_loop` is; `idle` is `idle_cycles` where it is read again. -/
inductive Position (Value : Type)
  /-- before the start, and after the end -/
  | stopped
  /-- at the head of the loop -/
  | top (idle : ℕ)
  /-- in the loop over `claimed`, before the next entry is processed -/
  | claiming (idle : ℕ) (rest : List (Entry Value))
  /-- in the loop over `claimed`, before the ack of an entry -/
  | acking (idle : ℕ) (msgId : ℕ) (rest : List (Entry Value))
  /-- before `read_group` -/
  | reading (idle : ℕ)
  /-- in the loop over `msgs` -/
  | processing (rest : List (Entry Value)) (ackIds : List ℕ)
  /-- before the ack of a batch -/
  | ackingAll (ackIds : List ℕ)
  /-- in the handler of an exception, asleep -/
  | sleeping (idle : ℕ)
  deriving DecidableEq

/-- How a call of a worker to Postgres or Redis ends. -/
inductive Outcome
  /-- It takes effect and returns. -/
  | done
  /-- It raises an exception and has no effect. -/
  | failed
  /-- It takes effect and raises an exception, since the answer is lost. -/
  | unanswered
  deriving DecidableEq

namespace Outcome

/-- The call takes effect. -/
def effective : Outcome → Bool
  | .failed => false
  | _ => true

/-- The call returns. -/
def returns : Outcome → Bool
  | .done => true
  | _ => false

end Outcome

structure System (Value Worker : Type) where
  db : Database Value Worker := {}
  stream : ConsumerGroup (Event Value) Worker := ConsumerGroup.empty
  requests : List (Request Value) := []
  workers : Worker → Position Value := fun _ => .stopped

/-- What can happen. Requests are named by their place in the list. -/
inductive Step (Value Worker : Type)
  /-- A request comes in and its body is a batch of valid events. -/
  | request (events : List (Event Value))
  /-- `incr_received` of a request -/
  | count (k : ℕ)
  /-- `broker.publish` of the next event of a request -/
  | publish (k : ℕ)
  /-- A request returns, or ends with an exception at any of its awaits. -/
  | finish (k : ℕ)
  | start (w : Worker)
  /-- A worker crashes, is cancelled, or sees the stop event. -/
  | crash (w : Worker)
  /-- The next call of a worker, or its next turn without one; `claimed` is what `claim_stale`
  finds. -/
  | work (w : Worker) (o : Outcome) (claimed : List ℕ)
  deriving DecidableEq

namespace System

variable [DecidableEq Worker]

def goTo (w : Worker) (p : Position Value) (s : System Value Worker) : System Value Worker :=
  { s with workers := Function.update s.workers w p }

/-- `process_event` by a worker. -/
def process (o : Outcome) (ev : Event Value) (w : Worker) (s : System Value Worker) :
    System Value Worker :=
  if o.effective then { s with db := (s.db.processEvent ev w).2 } else s

/-- `broker.ack` by a worker; without ids nothing is sent. -/
def ack (o : Outcome) (ids : List ℕ) (s : System Value Worker) : System Value Worker :=
  if o.effective then { s with stream := s.stream.ack ids } else s

/-- Entries of the stream are delivered to a worker. -/
def deliver (o : Outcome) (w : Worker) (ids : List ℕ) (s : System Value Worker) :
    System Value Worker :=
  if o.effective then { s with stream := s.stream.deliver w ids } else s

/-- The entries that `read_group` finds. -/
def toRead (s : System Value Worker) : List ℕ := s.stream.unread.take 50

/-- The next call of `worker_loop`. -/
def work (w : Worker) (o : Outcome) (claimed : List ℕ) (s : System Value Worker) :
    Option (System Value Worker) :=
  match s.workers w with
  | .stopped => none
  | .top idle =>
    if idle % 5 = 0 then
      if s.stream.Claimable 50 claimed then
        some ((s.deliver o w claimed).goTo w
          (if o.returns then .claiming idle (s.stream.entries claimed) else .sleeping idle))
      else none
    else some (s.goTo w (.reading idle))
  | .claiming idle [] => some (s.goTo w (.reading idle))
  | .claiming idle (e :: rest) =>
    some ((s.process o e.2 w).goTo w
      (if o.returns then .acking idle e.1 rest else .sleeping idle))
  | .acking idle msgId rest =>
    some ((s.ack o [msgId]).goTo w (if o.returns then .claiming idle rest else .sleeping idle))
  | .reading idle =>
    some ((s.deliver o w s.toRead).goTo w
      (if o.returns then
        if s.toRead = [] then .top (idle + 1) else .processing (s.stream.entries s.toRead) []
      else .sleeping idle))
  | .processing [] ackIds => some (s.goTo w (.ackingAll ackIds))
  | .processing (e :: rest) ackIds =>
    some ((s.process o e.2 w).goTo w
      (.processing rest (if o.returns then ackIds ++ [e.1] else ackIds)))
  | .ackingAll ackIds =>
    some ((s.ack o ackIds).goTo w (if o.returns then .top 0 else .sleeping 0))
  | .sleeping idle => some (s.goTo w (.top idle))

def step (s : System Value Worker) : Step Value Worker → Option (System Value Worker)
  | .request events =>
    if events = [] then none else some { s with requests := s.requests ++ [{ rest := events }] }
  | .count k =>
    match s.requests[k]? with
    | some { counted := false, rest } =>
      some { s with
        db := s.db.incrReceived rest.length
        requests := s.requests.set k { counted := true, rest := rest } }
    | _ => none
  | .publish k =>
    match s.requests[k]? with
    | some { counted := true, rest := ev :: rest } =>
      some { s with
        stream := s.stream.add ev
        requests := s.requests.set k { counted := true, rest := rest } }
    | _ => none
  | .finish k =>
    if k < s.requests.length then some { s with requests := s.requests.eraseIdx k } else none
  | .start w =>
    match s.workers w with
    | .stopped => some (s.goTo w (.top 0))
    | _ => none
  | .crash w => some (s.goTo w .stopped)
  | .work w o claimed => s.work w o claimed

variable {s s' : System Value Worker}

theorem step_request {events : List (Event Value)} (h : s.step (.request events) = some s') :
    s' = { s with requests := s.requests ++ [{ rest := events }] } := by
  simp only [step] at h
  split at h
  · cases h
  · exact (Option.some.inj h).symm

theorem step_count {k : ℕ} (h : s.step (.count k) = some s') :
    ∃ rest, s.requests[k]? = some { counted := false, rest := rest } ∧
      s' = { s with
        db := s.db.incrReceived rest.length
        requests := s.requests.set k { counted := true, rest := rest } } := by
  simp only [step] at h
  split at h
  · next rest hk => exact ⟨rest, hk, (Option.some.inj h).symm⟩
  · cases h

theorem step_publish {k : ℕ} (h : s.step (.publish k) = some s') :
    ∃ ev rest, s.requests[k]? = some { counted := true, rest := ev :: rest } ∧
      s' = { s with
        stream := s.stream.add ev
        requests := s.requests.set k { counted := true, rest := rest } } := by
  simp only [step] at h
  split at h
  · next ev rest hk => exact ⟨ev, rest, hk, (Option.some.inj h).symm⟩
  · cases h

theorem step_finish {k : ℕ} (h : s.step (.finish k) = some s') :
    k < s.requests.length ∧ s' = { s with requests := s.requests.eraseIdx k } := by
  simp only [step] at h
  split at h
  · next hk => exact ⟨hk, (Option.some.inj h).symm⟩
  · cases h

theorem step_start {w : Worker} (h : s.step (.start w) = some s') : s' = s.goTo w (.top 0) := by
  simp only [step] at h
  split at h
  · exact (Option.some.inj h).symm
  · cases h

end System

variable [DecidableEq Worker]

/-- A run from empty tables and an empty stream. -/
abbrev SystemRun (Value Worker : Type) [DecidableEq Worker] :=
  Run System.step ({} : System Value Worker)

end Aggregator
