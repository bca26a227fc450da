import Terdistribusi.Aggregator.Publish
import Terdistribusi.Aggregator.Properties.Balance

/-!
# What a request to publish leaves behind

* `exec_publish` — a request is made of steps of the system, so what holds of every run of the
  system holds of runs with requests
* `publish_cases` — the answer and the stream, for every body and every place where something raises

A body is accepted or refused as a whole. The calls that follow are not undone, so a call or a
`model_dump` that raises leaves an initial part of the batch in the stream; the publisher sends the
batch again, and the consumers drop what they have seen.
-/

namespace Aggregator

open Infra

variable {Item Model Value Worker : Type} {validate : Item → Except String Model}
  {modelDump : Model → Except String (Event Value)} {calls : ℕ → Outcome}

/-! ## The body -/

/-- A list of items is validated as a whole. -/
theorem mapM_eq_ok_iff {events : List Model} : ∀ {items : List Item},
    items.mapM validate = .ok events ↔
      List.Forall₂ (fun item ev => validate item = .ok ev) items events
  | [] => by
    rw [List.forall₂_nil_left_iff]
    exact ⟨fun h => by cases h; rfl, fun h => by rw [h]; rfl⟩
  | item :: items => by
    rw [List.mapM_cons, List.forall₂_cons_left_iff]
    constructor
    · intro h
      cases hitem : validate item with
      | error e =>
        rw [hitem] at h
        cases h
      | ok ev =>
        rw [hitem] at h
        cases hitems : items.mapM validate with
        | error e =>
          rw [hitems] at h
          cases h
        | ok rest =>
          rw [hitems] at h
          cases h
          exact ⟨ev, rest, rfl, mapM_eq_ok_iff.mp hitems, rfl⟩
    · rintro ⟨ev, rest, hitem, hrest, rfl⟩
      rw [hitem, mapM_eq_ok_iff.mpr hrest]
      rfl

/-- **A body is accepted as a whole**: when it has an item and every item is valid. -/
theorem readEvents_eq_ok_iff {body : Option (Body Item)} {events : List Model} :
    readEvents validate body = .ok events ↔ ∃ b, body = some b ∧ b.raw ≠ [] ∧
      List.Forall₂ (fun item ev => validate item = .ok ev) b.raw events := by
  rw [← exists_congr fun b => and_congr_right fun _ => and_congr_right fun _ => mapM_eq_ok_iff]
  cases body with
  | none => simp [readEvents]
  | some b =>
    simp only [readEvents, parseEvents, Option.some.injEq, exists_eq_left', ne_eq,
      List.isEmpty_iff]
    split
    · next hempty => simp [hempty]
    · next hne =>
      cases b.raw.mapM validate with
      | error e => simp
      | ok events' => simp [hne]

/-- A body that is not accepted is answered with 422. -/
theorem statusCode_of_readEvents {body : Option (Body Item)} {response : Response}
    (h : readEvents validate body = .error response) : response.statusCode = 422 := by
  cases body with
  | none =>
    cases h
    rfl
  | some body =>
    simp only [readEvents, parseEvents] at h
    split at h
    · cases h
      rfl
    · split at h
      · cases h
        rfl
      · cases h

namespace System

variable {s : System Value Worker} {events : List Model}

/-! ## The loop -/

/-- `model_dump` returns these events. -/
abbrev Dumped (modelDump : Model → Except String (Event Value)) (events : List Model)
    (dumped : List (Event Value)) : Prop :=
  List.Forall₂ (fun model ev => modelDump model = .ok ev) events dumped

/-- Events that are dumped, with calls that return, are in the stream before the others. -/
theorem publishAll_append (post : List Model) :
    ∀ {pre : List Model} {dumped : List (Event Value)} (k : ℕ) (s : System Value Worker),
    Dumped modelDump pre dumped → (∀ n < pre.length, calls (k + n) = .done) →
    s.publishAll modelDump calls k (pre ++ post) =
      publishAll modelDump calls (k + pre.length) post
        { s with stream := s.stream.addAll dumped }
  | [], _, _, _, .nil, _ => rfl
  | model :: pre, ev :: dumped, k, s, .cons hmodel hpre, h => by
    have hfirst : calls k = .done := h 0 (Nat.succ_pos _)
    have hrest := publishAll_append post (k + 1) (s.append (calls k) ev) hpre
      fun n hn => by
        rw [Nat.add_assoc, Nat.add_comm 1 n]
        exact h (n + 1) (Nat.succ_lt_succ hn)
    rw [List.cons_append, publishAll, hmodel]
    dsimp only
    rw [if_pos (by rw [hfirst]; rfl), hrest, hfirst, List.length_cons, Nat.add_assoc,
      Nat.add_comm 1]
    rfl

/-- Nothing raises, or there is a first event for which something does. -/
theorem publishAll_cases (modelDump : Model → Except String (Event Value)) (calls : ℕ → Outcome) :
    ∀ (events : List Model) (k : ℕ),
    (∃ dumped, Dumped modelDump events dumped ∧ ∀ n < events.length, calls (k + n) = .done) ∨
      ∃ pre model post dumped, events = pre ++ model :: post ∧ Dumped modelDump pre dumped ∧
        (∀ n < pre.length, calls (k + n) = .done) ∧
        ((∃ e, modelDump model = .error e) ∨
          ∃ ev, modelDump model = .ok ev ∧ calls (k + pre.length) ≠ .done)
  | [], _ => Or.inl ⟨[], .nil, by simp⟩
  | model :: events, k => by
    cases hmodel : modelDump model with
    | error e => exact Or.inr ⟨[], model, events, [], rfl, .nil, by simp, Or.inl ⟨e, hmodel⟩⟩
    | ok ev =>
      by_cases hk : calls k = .done
      · have hcalls : ∀ {l : List Model}, (∀ n < l.length, calls (k + 1 + n) = .done) →
            ∀ n < (model :: l).length, calls (k + n) = .done := by
          intro l hl n hn
          cases n with
          | zero => exact hk
          | succ n =>
            rw [Nat.add_comm n, ← Nat.add_assoc]
            exact hl n (Nat.lt_of_succ_lt_succ hn)
        rcases publishAll_cases modelDump calls events (k + 1) with
          ⟨dumped, hd, hdone⟩ | ⟨pre, model', post, dumped, rfl, hd, hdone, hraises⟩
        · exact Or.inl ⟨ev :: dumped, .cons hmodel hd, hcalls hdone⟩
        · refine Or.inr ⟨model :: pre, model', post, ev :: dumped, rfl, .cons hmodel hd,
            hcalls hdone, ?_⟩
          rw [List.length_cons, Nat.add_comm pre.length, ← Nat.add_assoc]
          exact hraises
      · exact Or.inr ⟨[], model, events, [], rfl, .nil, by simp, Or.inr ⟨ev, hmodel, hk⟩⟩

variable {body : Option (Body Item)}

theorem publish_of_error {response : Response} (h : readEvents validate body = .error response) :
    s.publish validate modelDump calls body = (response, s) := by
  unfold publish
  rw [h]

theorem publish_of_count_raises (h : readEvents validate body = .ok events)
    (hraises : calls 0 ≠ .done) :
    s.publish validate modelDump calls body = (.raised, s.count (calls 0) events.length) := by
  have hreturns : (calls 0).returns = false := by
    cases hc : calls 0 with
    | done => exact absurd hc hraises
    | failed => rfl
    | unanswered => rfl
  unfold publish
  simp [h, hreturns]

/-- The answer is 200 when nothing raises. -/
theorem publish_of_done (h : readEvents validate body = .ok events)
    {dumped : List (Event Value)} (hd : Dumped modelDump events dumped)
    (hdone : ∀ n ≤ events.length, calls n = .done) : s.publish validate modelDump calls body =
      (.ok { accepted := events.length, rejected := 0, detail := "enqueued" },
        { s with
          db := s.db.incrReceived events.length
          stream := s.stream.addAll dumped }) := by
  have hall := publishAll_append [] 1 (s.count .done events.length) hd fun n hn => by
    rw [Nat.add_comm]
    exact hdone (n + 1) hn
  rw [List.append_nil] at hall
  unfold publish
  simp only [h, hdone 0 (Nat.zero_le _), hall, publishAll, Outcome.returns, if_true]
  rfl

section

variable {pre post : List Model} {model : Model} {dumped : List (Event Value)}

/-- `model_dump` raises for the event behind `pre`. -/
theorem publish_of_dump_raises (h : readEvents validate body = .ok (pre ++ model :: post))
    (hd : Dumped modelDump pre dumped) (hdone : ∀ n ≤ pre.length, calls n = .done) {e : String}
    (he : modelDump model = .error e) : s.publish validate modelDump calls body =
      (.raised, { s with
        db := s.db.incrReceived (pre ++ model :: post).length
        stream := s.stream.addAll dumped }) := by
  have hall := publishAll_append (model :: post) 1
    (s.count .done (pre ++ model :: post).length) hd fun n hn => by
      rw [Nat.add_comm]
      exact hdone (n + 1) hn
  unfold publish
  simp only [h, hdone 0 (Nat.zero_le _), hall, publishAll, he, Outcome.returns, if_true]
  rfl

/-- The `broker.publish` of the event behind `pre` raises. -/
theorem publish_of_publish_raises (h : readEvents validate body = .ok (pre ++ model :: post))
    (hd : Dumped modelDump pre dumped) (hdone : ∀ n ≤ pre.length, calls n = .done)
    {ev : Event Value} (hev : modelDump model = .ok ev) (hraises : calls (pre.length + 1) ≠ .done) :
    s.publish validate modelDump calls body = (.raised, { s with
      db := s.db.incrReceived (pre ++ model :: post).length
      stream := s.stream.addAll
        (if (calls (pre.length + 1)).effective then dumped ++ [ev] else dumped) }) := by
  have hall := publishAll_append (model :: post) 1
    (s.count .done (pre ++ model :: post).length) hd fun n hn => by
      rw [Nat.add_comm]
      exact hdone (n + 1) hn
  unfold publish
  simp only [h, hdone 0 (Nat.zero_le _), hall, publishAll, hev, Outcome.returns, if_true,
    Nat.add_comm 1 pre.length]
  cases hc : calls (pre.length + 1) with
  | done => exact absurd hc hraises
  | failed => rfl
  | unanswered =>
    simp [append, count, Outcome.effective, ConsumerGroup.addAll_concat]

end

/-- What a request can come to when its body is accepted. -/
theorem publish_outcomes (modelDump : Model → Except String (Event Value)) (calls : ℕ → Outcome)
    (events : List Model) : calls 0 ≠ .done ∨
      (∃ dumped, Dumped modelDump events dumped ∧ ∀ n ≤ events.length, calls n = .done) ∨
      ∃ pre model post dumped, events = pre ++ model :: post ∧ Dumped modelDump pre dumped ∧
        (∀ n ≤ pre.length, calls n = .done) ∧
        ((∃ e, modelDump model = .error e) ∨
          ∃ ev, modelDump model = .ok ev ∧ calls (pre.length + 1) ≠ .done) := by
  by_cases h0 : calls 0 = .done
  · refine Or.inr ?_
    have hcalls : ∀ {l : List Model}, (∀ n < l.length, calls (1 + n) = .done) →
        ∀ n ≤ l.length, calls n = .done := by
      intro l hl n hn
      cases n with
      | zero => exact h0
      | succ n =>
        rw [Nat.add_comm]
        exact hl n hn
    rcases publishAll_cases modelDump calls events 1 with
      ⟨dumped, hd, hdone⟩ | ⟨pre, model, post, dumped, rfl, hd, hdone, hraises⟩
    · exact Or.inl ⟨dumped, hd, hcalls hdone⟩
    · rw [Nat.add_comm] at hraises
      exact Or.inr ⟨pre, model, post, dumped, rfl, hd, hcalls hdone, hraises⟩
  · exact Or.inl h0

/-- The request is answered with 200 and all of its events are in the stream, in order, and counted,
or it is not and nothing has changed. -/
def AllOrNothing (validate : Item → Except String Model)
    (modelDump : Model → Except String (Event Value)) (calls : ℕ → Outcome)
    (body : Option (Body Item)) (s : System Value Worker) : Prop :=
  let r := s.publish validate modelDump calls body
  (r.1.statusCode = 200 ∧ ∃ events dumped, readEvents validate body = .ok events ∧
    Dumped modelDump events dumped ∧ r.2.stream = s.stream.addAll dumped ∧
      r.2.db.received = s.db.received + events.length) ∨
  (r.1.statusCode ≠ 200 ∧ r.2.stream = s.stream ∧ r.2.db.received = s.db.received)

theorem ne_nil_of_readEvents (h : readEvents validate body = .ok events) : events ≠ [] := by
  rintro rfl
  obtain ⟨b, -, hraw, hvalid⟩ := readEvents_eq_ok_iff.mp h
  exact hraw (List.forall₂_nil_right_iff.mp hvalid)

/-- A request that is counted and not answered with 200 has changed something. -/
theorem not_allOrNothing {s' : System Value Worker} (h : readEvents validate body = .ok events)
    (hr : s.publish validate modelDump calls body = (.raised, s'))
    (hreceived : s'.db.received = s.db.received + events.length) :
    ¬ s.AllOrNothing validate modelDump calls body := by
  have hpos := List.length_pos_iff.mpr (ne_nil_of_readEvents h)
  unfold AllOrNothing
  rw [hr]
  rintro (⟨h200, -⟩ | ⟨-, -, hsame⟩)
  · cases h200
  · dsimp only at hsame
    omega

/-- **A request is all or nothing exactly when its body is not accepted, nothing raises, or
`incr_received` raises without effect.** -/
theorem allOrNothing_iff : s.AllOrNothing validate modelDump calls body ↔
    ∀ events, readEvents validate body = .ok events → calls 0 = .failed ∨
      (∃ dumped, Dumped modelDump events dumped ∧ ∀ n ≤ events.length, calls n = .done) := by
  constructor
  · intro hall events h
    by_contra hnot
    obtain ⟨hfailed, hdone⟩ := not_or.mp hnot
    rcases publish_outcomes modelDump calls events with hraises | hok |
      ⟨pre, model, post, dumped, rfl, hd, hbefore, ⟨e, he⟩ | ⟨ev, hev, hraises⟩⟩
    · refine not_allOrNothing h (publish_of_count_raises h hraises) ?_ hall
      cases hc : calls 0 with
      | done => exact absurd hc hraises
      | failed => exact absurd hc hfailed
      | unanswered => rfl
    · exact hdone hok
    · exact not_allOrNothing h (publish_of_dump_raises h hd hbefore he) rfl hall
    · exact not_allOrNothing h (publish_of_publish_raises h hd hbefore hev hraises) rfl hall
  · intro hcond
    unfold AllOrNothing
    cases h : readEvents validate body with
    | error response =>
      rw [publish_of_error h]
      refine Or.inr ⟨?_, rfl, rfl⟩
      rw [statusCode_of_readEvents h]
      decide
    | ok events =>
      rcases hcond events h with hfailed | ⟨dumped, hd, hdone⟩
      · rw [publish_of_count_raises h (by rw [hfailed]; simp), hfailed]
        refine Or.inr ⟨?_, rfl, rfl⟩
        show 500 ≠ 200
        decide
      · rw [publish_of_done h hd hdone]
        exact Or.inl ⟨rfl, events, dumped, rfl, hd, rfl, rfl⟩

/-- A body that is not accepted is answered with 422 and leaves everything as it was, and for one
that is the answer is 200 exactly when every call returns and every event is dumped. Then all events
are in the stream, in order, and counted. When `incr_received` raises, the stream is as it was, and
so is the counter unless the call took effect. When `model_dump` or `broker.publish` raises for an
event, the stream has the events before it, and its own if its `broker.publish` took effect. -/
theorem publish_cases (validate : Item → Except String Model)
    (modelDump : Model → Except String (Event Value)) (calls : ℕ → Outcome)
    (body : Option (Body Item)) (s : System Value Worker) :
    (∀ response, readEvents validate body = .error response →
      (s.publish validate modelDump calls body).1.statusCode = 422 ∧
        (s.publish validate modelDump calls body).2 = s) ∧
    ∀ events, readEvents validate body = .ok events →
      ((s.publish validate modelDump calls body).1.statusCode = 200 ↔
        (∃ dumped, Dumped modelDump events dumped) ∧ ∀ n ≤ events.length, calls n = .done) ∧
      (∀ dumped, Dumped modelDump events dumped → (∀ n ≤ events.length, calls n = .done) →
        (s.publish validate modelDump calls body).2.stream = s.stream.addAll dumped ∧
          (s.publish validate modelDump calls body).2.db.received =
            s.db.received + events.length) ∧
      (calls 0 ≠ .done → (s.publish validate modelDump calls body).2.stream = s.stream ∧
        (calls 0 = .failed →
          (s.publish validate modelDump calls body).2.db.received = s.db.received)) ∧
      ∀ pre model post dumped, events = pre ++ model :: post → Dumped modelDump pre dumped →
        (∀ n ≤ pre.length, calls n = .done) →
          (∀ e, modelDump model = .error e →
            (s.publish validate modelDump calls body).2.stream = s.stream.addAll dumped) ∧
          ∀ ev, modelDump model = .ok ev → calls (pre.length + 1) ≠ .done →
            (s.publish validate modelDump calls body).2.stream = s.stream.addAll
              (if (calls (pre.length + 1)).effective then dumped ++ [ev] else dumped) := by
  refine ⟨fun response h => ?_, fun events h => ⟨⟨fun h200 => ?_, ?_⟩, fun dumped hd hdone => ?_,
    fun hraises => ?_, ?_⟩⟩
  · rw [publish_of_error h]
    exact ⟨statusCode_of_readEvents h, rfl⟩
  · rcases publish_outcomes modelDump calls events with hraises | ⟨dumped, hd, hdone⟩ |
      ⟨pre, model, post, dumped, rfl, hd, hbefore, ⟨e, he⟩ | ⟨ev, hev, hraises⟩⟩
    · rw [publish_of_count_raises h hraises] at h200
      cases h200
    · exact ⟨⟨dumped, hd⟩, hdone⟩
    · rw [publish_of_dump_raises h hd hbefore he] at h200
      cases h200
    · rw [publish_of_publish_raises h hd hbefore hev hraises] at h200
      cases h200
  · rintro ⟨⟨dumped, hd⟩, hdone⟩
    rw [publish_of_done h hd hdone]
    rfl
  · rw [publish_of_done h hd hdone]
    exact ⟨rfl, rfl⟩
  · rw [publish_of_count_raises h hraises]
    refine ⟨?_, fun hfailed => ?_⟩
    · unfold count
      dsimp only
      split <;> rfl
    · rw [hfailed]
      rfl
  · rintro pre model post dumped rfl hd hbefore
    refine ⟨fun e he => ?_, fun ev hev hraises => ?_⟩
    · rw [publish_of_dump_raises h hd hbefore he]
    · rw [publish_of_publish_raises h hd hbefore hev hraises]

/-! ## A request as steps of the system -/

/-- The same tables, stream and workers with other requests. -/
def withRequests (rs : List (Request Value)) (s : System Value Worker) : System Value Worker :=
  { s with requests := rs }

/-- The loop does not look at the requests. -/
theorem publishAll_withRequests (modelDump : Model → Except String (Event Value))
    (calls : ℕ → Outcome) (rs : List (Request Value)) :
    ∀ (events : List Model) (k : ℕ) (s : System Value Worker),
      publishAll modelDump calls k events (s.withRequests rs) =
        ((publishAll modelDump calls k events s).1,
          (publishAll modelDump calls k events s).2.withRequests rs)
  | [], _, _ => rfl
  | model :: events, k, s => by
    cases hmodel : modelDump model with
    | error e => simp only [publishAll, hmodel]
    | ok ev =>
      have happend : (s.withRequests rs).append (calls k) ev =
          (s.append (calls k) ev).withRequests rs := by
        unfold append
        split <;> rfl
      simp only [publishAll, hmodel, happend]
      split
      · exact publishAll_withRequests modelDump calls rs events (k + 1) (s.append (calls k) ev)
      · rfl

variable [DecidableEq Worker]

/-- The step `publish` of the request that came in last. -/
theorem step_publish_last (rs : List (Request Value)) (ev : Event Value)
    (rest : List (Event Value)) (s : System Value Worker) :
    (s.withRequests (rs ++ [{ counted := true, rest := ev :: rest }])).step (.publish rs.length) =
      some ((s.append .done ev).withRequests (rs ++ [{ counted := true, rest := rest }])) := by
  simp [step, withRequests, append, Outcome.effective]

/-- The events of a request in the system. For one that `model_dump` raises for any other will do,
since it is never published. -/
def toPublish (other : Event Value) (modelDump : Model → Except String (Event Value))
    (events : List Model) : List (Event Value) :=
  events.map fun model => match modelDump model with
    | .ok ev => ev
    | .error _ => other

/-- The loop of `publish` as steps. -/
theorem exec_publishAll (other : Event Value)
    (modelDump : Model → Except String (Event Value)) (calls : ℕ → Outcome)
    (rs : List (Request Value)) :
    ∀ (events : List Model) (k : ℕ) (s : System Value Worker), ∃ es rest,
      exec step (s.withRequests
          (rs ++ [{ counted := true, rest := toPublish other modelDump events }])) es =
        some ((publishAll modelDump calls k events s).2.withRequests
          (rs ++ [{ counted := true, rest := rest }]))
  | [], _, _ => ⟨[], [], rfl⟩
  | model :: events, k, s => by
    cases hmodel : modelDump model with
    | error e =>
      exact ⟨[], toPublish other modelDump (model :: events), by simp [publishAll, hmodel]⟩
    | ok ev =>
      have hnext : toPublish other modelDump (model :: events) =
          ev :: toPublish other modelDump events := by
        simp [toPublish, hmodel]
      have hstep := step_publish_last rs ev (toPublish other modelDump events) s
      unfold publishAll
      simp only [hmodel, hnext]
      cases hk : calls k with
      | done =>
        obtain ⟨es, rest, hes⟩ :=
          exec_publishAll other modelDump calls rs events (k + 1) (s.append .done ev)
        exact ⟨.publish rs.length :: es, rest, by rw [exec_cons, hstep]; exact hes⟩
      | failed => exact ⟨[], ev :: toPublish other modelDump events, rfl⟩
      | unanswered =>
        exact ⟨[.publish rs.length], toPublish other modelDump events, by
          rw [exec_cons, hstep]
          rfl⟩

theorem step_finish_last (rs : List (Request Value)) (r : Request Value)
    (s : System Value Worker) : (s.withRequests (rs ++ [r])).step (.finish rs.length) =
      some (s.withRequests rs) := by
  simp [step, withRequests, List.eraseIdx_append_of_length_le]

/-- The request comes in and is counted. -/
theorem exec_count {events : List (Event Value)} (h : events ≠ []) (s : System Value Worker) :
    exec step s [.request events, .count s.requests.length] =
      some ((s.count .done events.length).withRequests
        (s.requests ++ [{ counted := true, rest := events }])) := by
  simp [exec_cons, step, h, withRequests, count, Outcome.effective]

/-- **A request is made of steps of the system**: whatever its calls do, what it leaves is what its
steps leave. -/
theorem exec_publish [Nonempty Value] (validate : Item → Except String Model)
    (modelDump : Model → Except String (Event Value)) (calls : ℕ → Outcome)
    (body : Option (Body Item)) (s : System Value Worker) :
    ∃ es, exec step s es = some (s.publish validate modelDump calls body).2 := by
  cases h : readEvents validate body with
  | error response => exact ⟨[], by rw [publish_of_error h, exec_nil]⟩
  | ok events =>
    obtain ⟨value⟩ := ‹Nonempty Value›
    let other : Event Value := ⟨"", "", "", "", value⟩
    have hlen : (toPublish other modelDump events).length = events.length := List.length_map _
    have hne : toPublish other modelDump events ≠ [] := by
      rw [← List.length_pos_iff, hlen]
      exact List.length_pos_iff.mpr (ne_nil_of_readEvents h)
    have hcount := exec_count hne s
    rw [hlen] at hcount
    cases h0 : calls 0 with
    | done =>
      obtain ⟨es, rest, hes⟩ := exec_publishAll other modelDump calls s.requests events 1
        (s.count .done events.length)
      have hleft : (s.publish validate modelDump calls body).2 =
          (publishAll modelDump calls 1 events (s.count .done events.length)).2 := by
        unfold publish
        simp only [h, h0, Outcome.returns, if_true]
        split <;> next heq => rw [heq]
      have hrequests := congrArg Prod.snd
        (publishAll_withRequests modelDump calls s.requests events 1
          (s.count .done events.length))
      -- the request comes in, is counted and published as far as it gets, and ends
      refine ⟨[.request (toPublish other modelDump events), .count s.requests.length] ++ es ++
        [.finish s.requests.length], ?_⟩
      rw [exec_append, exec_append, hcount, Option.bind_some, hes, Option.bind_some, exec_cons,
        step_finish_last, hleft]
      exact congrArg some hrequests.symm
    | failed =>
      refine ⟨[], ?_⟩
      rw [exec_nil, publish_of_count_raises h (by rw [h0]; simp), h0]
      rfl
    | unanswered =>
      refine ⟨[.request (toPublish other modelDump events), .count s.requests.length] ++
        [.finish s.requests.length], ?_⟩
      rw [exec_append, hcount, Option.bind_some, exec_cons, step_finish_last,
        publish_of_count_raises h (by rw [h0]; simp), h0]
      rfl

end System

/-! ## A call that raises -/

/-- A batch of two events. -/
def twoEvents : Option (Body (Event Unit)) := some (.list [event "a", event "b"])

/-- The second `broker.publish` raises. -/
def secondRaises (n : ℕ) : Outcome := if n = 2 then .failed else .done

theorem publish_cases_secondRaises :
    (System.publish Except.ok Except.ok secondRaises twoEvents ({} : System Unit Bool)).2.stream =
      ConsumerGroup.empty.addAll [event "a"] :=
  (((System.publish_cases Except.ok Except.ok secondRaises twoEvents {}).2 [event "a", event "b"]
    rfl).2.2.2 [event "a"] (event "b") [] [event "a"] rfl (.cons rfl .nil) (by decide)).2
      (event "b")
      rfl (by decide)

/-- The first event is in the stream and both are counted, and the request fails. -/
theorem not_allOrNothing_secondRaises :
    ¬ System.AllOrNothing Except.ok Except.ok secondRaises twoEvents ({} : System Unit Bool) := by
  rintro (⟨h200, -⟩ | ⟨-, hstream, -⟩)
  · exact absurd h200 (by decide)
  · have hvalues := congrArg ConsumerGroup.values hstream
    exact absurd hvalues (by decide)

end Aggregator
