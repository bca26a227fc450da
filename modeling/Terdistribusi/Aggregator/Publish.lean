import Terdistribusi.Aggregator.System

/-!
# The request to publish

`_parse_events` and `publish` (`app/main.py`). What `Event(**item)` makes of an item of the body
(`validate`) and what `ev.model_dump(mode="json")` makes of that (`modelDump`) are parameters, each
with the text of the exception that it raises instead. The calls that the handler awaits are
numbered from `0` in their order, and each ends with an `Outcome`.
-/

namespace Aggregator

open Infra

variable {Item Model Value Worker : Type}

/-- A body that is JSON: a list, or anything else. -/
inductive Body (Item : Type)
  | list (items : List Item)
  | single (item : Item)
  deriving DecidableEq

/-- The items: a body that is not a list is the only one. -/
def Body.raw : Body Item → List Item
  | .list items => items
  | .single item => [item]

structure PublishResponse where
  accepted : ℕ
  rejected : ℕ
  detail : String
  deriving DecidableEq

/-- How a request is answered. -/
inductive Response
  | ok (content : PublishResponse)
  /-- An `HTTPException`. -/
  | failed (statusCode : ℕ) (detail : String)
  /-- Any other exception leaves the handler, and the framework answers for it. -/
  | raised
  deriving DecidableEq

def Response.statusCode : Response → ℕ
  | .ok _ => 200
  | .failed statusCode _ => statusCode
  | .raised => 500

/-- `_parse_events`, with what it raises. -/
def parseEvents (validate : Item → Except String Model) (body : Body Item) :
    Except Response (List Model) :=
  if body.raw.isEmpty then .error (.failed 422 "body kosong")
  else
    match body.raw.mapM validate with
    | .error e => .error (.failed 422 ("event invalid: " ++ e))
    | .ok events => .ok events

/-- The events of a request; `none` is a body for which `request.json()` raises. -/
def readEvents (validate : Item → Except String Model) :
    Option (Body Item) → Except Response (List Model)
  | none => .error (.failed 422 "body bukan JSON valid")
  | some body => parseEvents validate body

namespace System

/-- `db.incr_received` -/
def count (o : Outcome) (n : ℕ) (s : System Value Worker) : System Value Worker :=
  if o.effective then { s with db := s.db.incrReceived n } else s

/-- `broker.publish` -/
def append (o : Outcome) (ev : Event Value) (s : System Value Worker) : System Value Worker :=
  if o.effective then { s with stream := s.stream.add ev } else s

/-- The loop over `events`, whose next call has the number `k`, and whether it comes to its end. -/
def publishAll (modelDump : Model → Except String (Event Value)) (calls : ℕ → Outcome) :
    ℕ → List Model → System Value Worker → Bool × System Value Worker
  | _, [], s => (true, s)
  | k, model :: events, s =>
    match modelDump model with
    | .error _ => (false, s)
    | .ok ev =>
      let s := s.append (calls k) ev
      if (calls k).returns then s.publishAll modelDump calls (k + 1) events else (false, s)

/-- `publish`, with the answer. -/
def publish (validate : Item → Except String Model)
    (modelDump : Model → Except String (Event Value)) (calls : ℕ → Outcome)
    (body : Option (Body Item)) (s : System Value Worker) : Response × System Value Worker :=
  match readEvents validate body with
  | .error response => (response, s)
  | .ok events =>
    let s := s.count (calls 0) events.length
    if (calls 0).returns then
      match s.publishAll modelDump calls 1 events with
      | (true, s) => (.ok { accepted := events.length, rejected := 0, detail := "enqueued" }, s)
      | (false, s) => (.raised, s)
    else (.raised, s)

end System

end Aggregator
