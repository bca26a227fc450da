import Terdistribusi.Aggregator.System

/-!
# The publisher

`chunk` and `send_batches` (`publisher/publisher.py`), with the aggregator that handles the requests
and other clients that publish to it.

What the coroutine `one` of a batch does between two awaits is one step. `client.post` can raise at
any time, and the aggregator goes on with a request whose client has given it up. An answer with
another status than 200 comes from a handler that ends with an exception, or from before the
handler.
-/

namespace Aggregator

open Infra

variable {Value Worker : Type}

/-- `chunk`: the slices that start at the multiples of `size`. For a size of `0` the `range` raises.
-/
def chunk {α : Type} (items : List α) (size : ℕ) : Option (List (List α)) :=
  if size = 0 then none
  else some ((List.range ((items.length + size - 1) / size)).map fun i =>
    (items.drop (i * size)).take size)

/-- How `one` has ended. -/
inductive SendResult
  /-- An answer had the status 200. -/
  | accepted
  /-- The last attempt raised. -/
  | error
  /-- The last attempt was answered with another status, and nothing is counted. -/
  | exhausted
  deriving DecidableEq

/-- Where `one` is. -/
inductive SendPosition
  /-- at the semaphore -/
  | waiting
  /-- in `client.post`, before the request has come in -/
  | posting (attempt : ℕ)
  /-- in `client.post`, while the request is handled -/
  | awaiting (attempt : ℕ)
  /-- asleep after an attempt -/
  | asleep (attempt : ℕ)
  | done (result : SendResult)
  deriving DecidableEq

/-- It holds the semaphore. -/
def SendPosition.running : SendPosition → Bool
  | .waiting | .done _ => false
  | _ => true

/-- The coroutine `one(batch)`. -/
structure Sender (Value : Type) where
  batch : List (Event Value)
  position : SendPosition := .waiting
  deriving DecidableEq

/-- The dictionary `sent`. -/
structure Sent where
  accepted : ℕ := 0
  requests : ℕ := 0
  errors : ℕ := 0
  deriving DecidableEq

/-- The aggregator and its clients. -/
structure Deployment (Value Worker : Type) where
  system : System Value Worker := {}
  /-- for each request, the sender that waits for its answer -/
  clients : List (Option ℕ) := []
  senders : List (Sender Value)
  sent : Sent := {}

/-- What can happen. Senders and requests are named by their places. -/
inductive DeploymentStep (Value Worker : Type)
  /-- A sender gets the semaphore. -/
  | enter (b : ℕ)
  /-- The request of a sender comes in. -/
  | post (b : ℕ)
  /-- A sender gets an answer from before the handler, with another status than 200. -/
  | refuse (b : ℕ)
  /-- `client.post` of a sender raises, or reading the answer does. -/
  | raise (b : ℕ)
  /-- A sender wakes up after an attempt. -/
  | wake (b : ℕ)
  /-- The handler of a request returns. -/
  | respond (k : ℕ)
  /-- The handler of a request ends with an exception. -/
  | fail (k : ℕ)
  /-- Another client publishes. -/
  | foreign (events : List (Event Value))
  /-- A handler or a worker of the aggregator makes a step. -/
  | serve (e : Step Value Worker)

/-- A step inside the aggregator. -/
def Step.isInner : Step Value Worker → Bool
  | .request _ | .finish _ => false
  | _ => true

def DeploymentStep.isForeign : DeploymentStep Value Worker → Bool
  | .foreign _ => true
  | _ => false

namespace Deployment

/-- How many senders hold the semaphore. -/
def running (d : Deployment Value Worker) : ℕ := d.senders.countP fun x => x.position.running

/-- A sender goes on somewhere else. -/
def moveTo (b : ℕ) (x : Sender Value) (p : SendPosition) (d : Deployment Value Worker) :
    Deployment Value Worker :=
  { d with senders := d.senders.set b { x with position := p } }

/-- The sender no longer waits for an answer. -/
def forget (b : ℕ) (d : Deployment Value Worker) : Deployment Value Worker :=
  { d with clients := d.clients.map fun c => if c = some b then none else c }

/-- `except` in `one` -/
def raises (b : ℕ) (x : Sender Value) (attempt : ℕ) (d : Deployment Value Worker) :
    Deployment Value Worker :=
  if attempt = 4 then
    { (d.forget b).moveTo b x (.done .error) with
      sent := { d.sent with errors := d.sent.errors + 1 } }
  else (d.forget b).moveTo b x (.asleep attempt)

/-- The client of a request gets the answer with status 200. -/
def accept (client : Option ℕ) (d : Deployment Value Worker) : Deployment Value Worker :=
  match client with
  | none => d
  | some b =>
    match d.senders[b]? with
    | some { batch, position := .awaiting _ } =>
      { d.moveTo b { batch } (.done .accepted) with
        sent := { d.sent with
          accepted := d.sent.accepted + batch.length, requests := d.sent.requests + 1 } }
    | _ => d

/-- The client of a request gets an answer with another status. -/
def reject (client : Option ℕ) (d : Deployment Value Worker) : Deployment Value Worker :=
  match client with
  | none => d
  | some b =>
    match d.senders[b]? with
    | some { batch, position := .awaiting attempt } => d.moveTo b { batch } (.asleep attempt)
    | _ => d

variable [DecidableEq Worker]

/-- The handler of a request is over. -/
def close (k : ℕ) (d : Deployment Value Worker) : Option (Deployment Value Worker) :=
  (d.system.step (.finish k)).map fun system =>
    { d with system := system, clients := d.clients.eraseIdx k }

/-- A request comes in. -/
def arrive (events : List (Event Value)) (client : Option ℕ) (d : Deployment Value Worker) :
    Option (Deployment Value Worker) :=
  (d.system.step (.request events)).map fun system =>
    { d with system := system, clients := d.clients ++ [client] }

def step (concurrency : ℕ) (d : Deployment Value Worker) :
    DeploymentStep Value Worker → Option (Deployment Value Worker)
  | .enter b =>
    match d.senders[b]? with
    | some { batch, position := .waiting } =>
      if d.running < concurrency then some (d.moveTo b { batch } (.posting 0)) else none
    | _ => none
  | .post b =>
    match d.senders[b]? with
    | some { batch, position := .posting attempt } =>
      (d.arrive batch (some b)).map fun d => d.moveTo b { batch } (.awaiting attempt)
    | _ => none
  | .refuse b =>
    match d.senders[b]? with
    | some { batch, position := .posting attempt } =>
      some (d.moveTo b { batch } (.asleep attempt))
    | _ => none
  | .raise b =>
    match d.senders[b]? with
    | some { batch, position := .posting attempt } => some (d.raises b { batch } attempt)
    | some { batch, position := .awaiting attempt } => some (d.raises b { batch } attempt)
    | _ => none
  | .wake b =>
    match d.senders[b]? with
    | some { batch, position := .asleep attempt } =>
      some (d.moveTo b { batch }
        (if attempt + 1 < 5 then .posting (attempt + 1) else .done .exhausted))
    | _ => none
  | .respond k =>
    match d.system.requests[k]?, d.clients[k]? with
    | some { counted := true, rest := [] }, some client => (d.close k).map (accept client)
    | _, _ => none
  | .fail k =>
    match d.clients[k]? with
    | some client => (d.close k).map (reject client)
    | none => none
  | .foreign events => d.arrive events none
  | .serve e =>
    if e.isInner then (d.system.step e).map fun system => { d with system := system } else none

/-- `send_batches` is called. -/
def start (batches : List (List (Event Value))) : Deployment Value Worker :=
  { senders := batches.map fun batch => { batch := batch } }

end Deployment

/-- A run of the publisher on these batches, with the aggregator. -/
abbrev DeploymentRun (concurrency : ℕ) (batches : List (List (Event Value)))
    (Worker : Type) [DecidableEq Worker] :=
  Run (Deployment.step concurrency) (Deployment.start batches : Deployment Value Worker)

end Aggregator
