import Terdistribusi.Aggregator.Publisher
import Terdistribusi.Aggregator.Properties.Audit
import Mathlib.Data.List.Dedup
import Mathlib.Algebra.Order.BigOperators.Group.List

/-!
# From the publisher to the table

The publisher sends a batch again until it is answered, so that a batch can come in many times, and
of requests that failed midway a part is in the stream as well. What its summary says is still true:
if all events are accepted, each of them is stored once when the stream is drained.

* `flatten_chunk` — the batches are the data set
* `Serves` — what a step inside the aggregator does to the requests
* `Tracked` — what a running request has left, and what `sent` counts
* `published_once`
-/

namespace Aggregator

open Infra

variable {Value Worker : Type}

/-! ## The batches -/

theorem flatten_slices {α : Type} (items : List α) (size n : ℕ) :
    ((List.range n).map fun i => (items.drop (i * size)).take size).flatten =
      items.take (n * size) := by
  induction n with
  | zero => simp
  | succ n ih =>
    rw [List.range_succ, List.map_append, List.flatten_append, ih, Nat.succ_mul, List.take_add]
    simp

/-- Nothing is left out and nothing is there twice. -/
theorem flatten_chunk {α : Type} {items : List α} {size : ℕ} {batches : List (List α)}
    (h : chunk items size = some batches) : batches.flatten = items := by
  unfold chunk at h
  split at h
  · cases h
  · next hsize =>
    obtain rfl := Option.some.inj h
    rw [flatten_slices]
    refine List.take_of_length_le ?_
    have hdiv := Nat.div_add_mod (items.length + size - 1) size
    have hmod := Nat.mod_lt (items.length + size - 1) (Nat.pos_of_ne_zero hsize)
    rw [Nat.mul_comm] at hdiv
    omega

/-! ## Inside the aggregator -/

namespace System

/-- Requests stay where they are, and what a request has no longer to publish is in the stream. -/
structure Serves (s s' : System Value Worker) : Prop where
  length : s'.requests.length = s.requests.length
  values : s.stream.values.Sublist s'.stream.values
  rests : ∀ (k : ℕ) (r' : Request Value), s'.requests[k]? = some r' →
    ∃ (r : Request Value) (pre : List (Event Value)), s.requests[k]? = some r ∧
      r.rest = pre ++ r'.rest ∧ (s.stream.values ++ pre).Sublist s'.stream.values

theorem Serves.of_eq {s s' : System Value Worker} (hr : s'.requests = s.requests)
    (hv : s'.stream.values = s.stream.values) : Serves s s' := by
  refine ⟨by rw [hr], by rw [hv], fun k r' hk => ⟨r', [], ?_, rfl, ?_⟩⟩
  · rwa [← hr]
  · rw [List.append_nil, hv]

variable [DecidableEq Worker] {s s' : System Value Worker}

theorem serves_step {e : Step Value Worker} (he : e.isInner = true) (h : s.step e = some s') :
    Serves s s' := by
  cases e with
  | work w o claimed =>
    obtain ⟨hr, hv, -⟩ := (works_of_work h).frame
    exact .of_eq hr hv
  | start w =>
    obtain rfl := step_start h
    exact .of_eq rfl rfl
  | crash w =>
    obtain rfl := Option.some.inj h
    exact .of_eq rfl rfl
  | count k =>
    obtain ⟨rest, hk, rfl⟩ := step_count h
    refine ⟨List.length_set, List.Sublist.refl _, fun j r' hj => ?_⟩
    by_cases hjk : k = j
    · subst hjk
      rw [List.getElem?_set_self (List.getElem?_eq_some_iff.mp hk).1] at hj
      obtain rfl := Option.some.inj hj
      exact ⟨_, [], hk, rfl, by simp⟩
    · rw [List.getElem?_set_ne hjk] at hj
      exact ⟨r', [], hj, rfl, by simp⟩
  | publish k =>
    obtain ⟨ev, rest, hk, rfl⟩ := step_publish h
    refine ⟨List.length_set, List.sublist_append_left _ _, fun j r' hj => ?_⟩
    by_cases hjk : k = j
    · subst hjk
      rw [List.getElem?_set_self (List.getElem?_eq_some_iff.mp hk).1] at hj
      obtain rfl := Option.some.inj hj
      -- the event goes from the rest of the request to the stream
      exact ⟨_, [ev], hk, rfl, List.Sublist.refl _⟩
    · rw [List.getElem?_set_ne hjk] at hj
      refine ⟨r', [], hj, rfl, ?_⟩
      rw [List.append_nil]
      exact List.sublist_append_left _ _
  | request events => cases he
  | finish k => cases he

end System

/-! ## The summary -/

/-- What a sender has added to `accepted`. -/
def Sender.weight (x : Sender Value) : ℕ :=
  if x.position = .done .accepted then x.batch.length else 0

/-- What the senders have counted. -/
def summary (senders : List (Sender Value)) : Sent where
  accepted := (senders.map Sender.weight).sum
  requests := senders.countP fun x => x.position = .done .accepted
  errors := senders.countP fun x => x.position = .done .error

theorem sum_map_set {α : Type} {f : α → ℕ} : ∀ {l : List α} {b : ℕ} {x : α} (y : α),
    l[b]? = some x → ((l.set b y).map f).sum + f x = (l.map f).sum + f y
  | a :: l, 0, x, y, h => by
    obtain rfl : a = x := by simpa using h
    simp
    omega
  | a :: l, b + 1, x, y, h => by
    have ih := sum_map_set (f := f) y (l := l) (b := b) (by simpa using h)
    simp only [List.set_cons_succ, List.map_cons, List.sum_cons]
    omega

theorem countP_set_of_not {α : Type} {p : α → Bool} {l : List α} {b : ℕ} {x y : α}
    (h : l[b]? = some x) (hx : p x = false) :
    (l.set b y).countP p = l.countP p + if p y then 1 else 0 := by
  obtain ⟨hb, rfl⟩ := List.getElem?_eq_some_iff.mp h
  rw [List.countP_set hb, hx]
  simp

/-- A sender that has not ended goes on: only its end is counted. -/
theorem summary_set {senders : List (Sender Value)} {b : ℕ} {x : Sender Value}
    (hx : senders[b]? = some x) (hrunning : ∀ result, x.position ≠ .done result)
    (p : SendPosition) :
    summary (senders.set b { x with position := p }) =
      { accepted := (summary senders).accepted + if p = .done .accepted then x.batch.length else 0
        requests := (summary senders).requests + if p = .done .accepted then 1 else 0
        errors := (summary senders).errors + if p = .done .error then 1 else 0 } := by
  have hweight := sum_map_set (f := Sender.weight) { x with position := p } hx
  have hzero : x.weight = 0 := by simp [Sender.weight, hrunning]
  unfold summary
  rw [countP_set_of_not hx (by simp [hrunning]), countP_set_of_not hx (by simp [hrunning])]
  simp only [hzero, Nat.add_zero] at hweight
  rw [hweight]
  simp [Sender.weight]

/-! ## What is kept -/

namespace Deployment

variable {batches : List (List (Event Value))} {d d' : Deployment Value Worker}

/-- The part of a batch that a running request has published is in the stream, so that an accepted
batch is, and `sent` is right. -/
structure Tracked (batches : List (List (Event Value))) (d : Deployment Value Worker) : Prop where
  senders : d.senders.map Sender.batch = batches
  clients : d.clients.length = d.system.requests.length
  published : ∀ (k b : ℕ) (r : Request Value), d.clients[k]? = some (some b) →
    d.system.requests[k]? = some r →
      ∃ pre, batches[b]? = some (pre ++ r.rest) ∧ pre.Sublist d.system.stream.values
  accepted : ∀ x ∈ d.senders, x.position = .done .accepted →
    x.batch.Sublist d.system.stream.values
  sent : d.sent = summary d.senders

theorem Tracked.initial : Tracked batches (start batches : Deployment Value Worker) where
  senders := by simp [start, Function.comp_def]
  clients := rfl
  published := fun k b r hk => by simp [start] at hk
  accepted := fun x hx hp => by
    obtain ⟨batch, -, rfl⟩ := List.mem_map.mp hx
    cases hp
  sent := by
    have hweight : (batches.map fun batch => ({ batch } : Sender Value).weight) =
        batches.map fun _ => 0 := by
      refine List.map_congr_left fun batch _ => ?_
      simp [Sender.weight]
    simp [start, summary, List.countP_map, Function.comp_def, hweight]

/-- The batch of a sender. -/
theorem Tracked.batch (h : Tracked batches d) {b : ℕ} {x : Sender Value}
    (hx : d.senders[b]? = some x) : batches[b]? = some x.batch := by
  rw [← h.senders, List.getElem?_map, hx]
  rfl

/-- A sender goes on, and `sent` counts its end. -/
theorem Tracked.moveTo (h : Tracked batches d) {b : ℕ} {x : Sender Value} {p : SendPosition}
    {sent : Sent} (hx : d.senders[b]? = some x) (hrunning : ∀ result, x.position ≠ .done result)
    (hp : p = .done .accepted → x.batch.Sublist d.system.stream.values)
    (hsent : sent =
      { accepted := d.sent.accepted + if p = .done .accepted then x.batch.length else 0
        requests := d.sent.requests + if p = .done .accepted then 1 else 0
        errors := d.sent.errors + if p = .done .error then 1 else 0 }) :
    Tracked batches { d.moveTo b x p with sent := sent } where
  senders := by
    rw [← h.senders]
    refine List.ext_getElem? fun j => ?_
    simp only [Deployment.moveTo, List.getElem?_map, List.getElem?_set]
    by_cases hj : b = j
    · subst hj
      rw [if_pos rfl, if_pos (List.getElem?_eq_some_iff.mp hx).1, hx]
      rfl
    · rw [if_neg hj]
  clients := h.clients
  published := h.published
  accepted := by
    intro y hy hpos
    rcases List.mem_or_eq_of_mem_set hy with hold | rfl
    · exact h.accepted y hold hpos
    · exact hp hpos
  sent := by
    rw [hsent, h.sent]
    exact (summary_set hx hrunning p).symm

/-- A sender goes on and is not at its end. -/
theorem Tracked.moveTo_of_running (h : Tracked batches d) {b : ℕ} {x : Sender Value}
    {p : SendPosition} (hx : d.senders[b]? = some x)
    (hrunning : ∀ result, x.position ≠ .done result) (hp : ∀ result, p ≠ .done result) :
    Tracked batches (d.moveTo b x p) := by
  show Tracked batches { d.moveTo b x p with sent := d.sent }
  exact h.moveTo hx hrunning (fun h => absurd h (hp _)) (by simp [hp])

theorem Tracked.forget (h : Tracked batches d) (b : ℕ) : Tracked batches (d.forget b) := by
  refine { h with clients := ?_, published := fun k b' r hk hr => ?_ }
  · simpa [Deployment.forget] using h.clients
  · refine h.published k b' r ?_ hr
    simp only [Deployment.forget, List.getElem?_map] at hk
    obtain ⟨c, hc, hif⟩ := Option.map_eq_some_iff.mp hk
    split at hif
    · cases hif
    · rw [hc, hif]

theorem Tracked.raises (h : Tracked batches d) {b attempt : ℕ} {x : Sender Value}
    (hx : d.senders[b]? = some x) (hrunning : ∀ result, x.position ≠ .done result) :
    Tracked batches (d.raises b x attempt) := by
  unfold Deployment.raises
  split
  · exact (h.forget b).moveTo hx hrunning (fun hp => by cases hp) (by simp [Deployment.forget])
  · exact (h.forget b).moveTo_of_running hx hrunning (by simp)

/-- The aggregator goes on, and a request is where it was. -/
theorem Tracked.serve (h : Tracked batches d) {system : System Value Worker}
    (hs : System.Serves d.system system) : Tracked batches { d with system := system } where
  senders := h.senders
  clients := h.clients.trans hs.length.symm
  published := by
    intro k b r' hk hr'
    obtain ⟨r, pre', hr, hrest, hsub⟩ := hs.rests k r' hr'
    obtain ⟨pre, hbatch, hpre⟩ := h.published k b r hk hr
    refine ⟨pre ++ pre', ?_, ?_⟩
    · rw [hbatch, hrest, List.append_assoc]
    · exact (hpre.append (List.Sublist.refl pre')).trans hsub
  accepted := fun x hx hp => (h.accepted x hx hp).trans hs.values
  sent := h.sent

variable [DecidableEq Worker]

/-- A request comes in, and nothing of it is published. -/
theorem Tracked.arrive (h : Tracked batches d) {events : List (Event Value)} {client : Option ℕ}
    (hbatch : ∀ b, client = some b → batches[b]? = some events)
    (ha : d.arrive events client = some d') : Tracked batches d' := by
  obtain ⟨system, hsystem, rfl⟩ := Option.map_eq_some_iff.mp ha
  obtain rfl := System.step_request hsystem
  refine { h with clients := by simp [h.clients], published := fun k b r hk hr => ?_ }
  rcases Nat.lt_trichotomy k d.clients.length with hlt | rfl | hgt
  · rw [List.getElem?_append_left hlt] at hk
    rw [List.getElem?_append_left (h.clients ▸ hlt)] at hr
    exact h.published k b r hk hr
  · rw [List.getElem?_concat_length] at hk
    rw [h.clients, List.getElem?_concat_length] at hr
    obtain rfl := Option.some.inj hr
    exact ⟨[], hbatch b (Option.some.inj hk), List.nil_sublist _⟩
  · rw [List.getElem?_eq_none (by simp; omega)] at hk
    cases hk

/-- A request is over. -/
theorem Tracked.close (h : Tracked batches d) {k : ℕ} (hc : d.close k = some d') :
    Tracked batches d' ∧ d'.senders = d.senders ∧ d'.system.stream = d.system.stream := by
  obtain ⟨system, hsystem, rfl⟩ := Option.map_eq_some_iff.mp hc
  obtain ⟨hk, rfl⟩ := System.step_finish hsystem
  refine ⟨{ h with clients := ?_, published := fun j b r hj hr => ?_ }, rfl, rfl⟩
  · rw [List.length_eraseIdx_of_lt (h.clients ▸ hk), List.length_eraseIdx_of_lt hk, h.clients]
  · rw [List.getElem?_eraseIdx] at hj hr
    split at hj
    · next hlt => exact h.published j b r hj (by simpa [hlt] using hr)
    · next hlt => exact h.published (j + 1) b r hj (by simpa [hlt] using hr)

omit [DecidableEq Worker] in
theorem Tracked.accept (h : Tracked batches d) {client : Option ℕ}
    (hbatch : ∀ b batch, client = some b → batches[b]? = some batch →
      batch.Sublist d.system.stream.values) : Tracked batches (d.accept client) := by
  unfold Deployment.accept
  split
  · exact h
  · next b =>
    split
    · next batch attempt hx =>
      have hsub := hbatch b batch rfl (h.batch hx)
      exact h.moveTo (x := { batch, position := .awaiting attempt }) (p := .done .accepted) hx
        (by simp) (fun _ => hsub) (by simp)
    · exact h

omit [DecidableEq Worker] in
theorem Tracked.reject (h : Tracked batches d) (client : Option ℕ) :
    Tracked batches (d.reject client) := by
  unfold Deployment.reject
  split
  · exact h
  · split
    · next batch attempt hx =>
      exact h.moveTo_of_running (x := { batch, position := .awaiting attempt }) hx (by simp)
        (by simp)
    · exact h

/-- **Every step of the publisher and the aggregator keeps track.** -/
theorem Tracked.step {concurrency : ℕ} {e : DeploymentStep Value Worker} (h : Tracked batches d)
    (hs : d.step concurrency e = some d') : Tracked batches d' := by
  cases e with
  | enter b =>
    simp only [Deployment.step] at hs
    split at hs
    · next batch hx =>
      split at hs
      · cases hs
        exact h.moveTo_of_running hx (by simp) (by simp)
      · cases hs
    · cases hs
  | post b =>
    simp only [Deployment.step] at hs
    split at hs
    · next batch attempt hx =>
      obtain ⟨d₁, harrive, rfl⟩ := Option.map_eq_some_iff.mp hs
      have h₁ := h.arrive (fun b' hb' => Option.some.inj hb' ▸ h.batch hx) harrive
      obtain ⟨system, -, rfl⟩ := Option.map_eq_some_iff.mp harrive
      exact h₁.moveTo_of_running (x := { batch, position := .posting attempt }) hx (by simp)
        (by simp)
    · cases hs
  | refuse b =>
    simp only [Deployment.step] at hs
    split at hs
    · next batch attempt hx =>
      cases hs
      exact h.moveTo_of_running (x := { batch, position := .posting attempt }) hx (by simp)
        (by simp)
    · cases hs
  | raise b =>
    simp only [Deployment.step] at hs
    split at hs
    · next batch attempt hx =>
      cases hs
      exact h.raises (x := { batch, position := .posting attempt }) hx (by simp)
    · next batch attempt hx =>
      cases hs
      exact h.raises (x := { batch, position := .awaiting attempt }) hx (by simp)
    · cases hs
  | wake b =>
    simp only [Deployment.step] at hs
    split at hs
    · next batch attempt hx =>
      cases hs
      split
      · exact h.moveTo_of_running (x := { batch, position := .asleep attempt }) hx (by simp)
          (by simp)
      · -- nothing is counted
        exact h.moveTo (x := { batch, position := .asleep attempt }) hx (by simp) (by simp)
          (by simp)
    · cases hs
  | respond k =>
    simp only [Deployment.step] at hs
    split at hs
    · next client hr hc =>
      obtain ⟨d₁, hclose, rfl⟩ := Option.map_eq_some_iff.mp hs
      obtain ⟨h₁, -, hstream⟩ := h.close hclose
      refine h₁.accept fun b batch hb hbatch => ?_
      -- the request has published all of the batch
      obtain ⟨pre, hpre, hsub⟩ := h.published k b _ (hb ▸ hc) hr
      rw [hbatch, List.append_nil] at hpre
      rwa [Option.some.inj hpre, hstream]
    · cases hs
  | fail k =>
    simp only [Deployment.step] at hs
    split at hs
    · obtain ⟨d₁, hclose, rfl⟩ := Option.map_eq_some_iff.mp hs
      exact (h.close hclose).1.reject _
    · cases hs
  | foreign events => exact h.arrive (by simp) hs
  | serve e =>
    simp only [Deployment.step] at hs
    split at hs
    · next he =>
      obtain ⟨system, hsystem, rfl⟩ := Option.map_eq_some_iff.mp hs
      exact h.serve (System.serves_step he hsystem)
    · cases hs

omit [DecidableEq Worker] in
theorem system_accept (client : Option ℕ) : (d.accept client).system = d.system := by
  unfold accept
  split
  · rfl
  · split <;> rfl

omit [DecidableEq Worker] in
theorem system_reject (client : Option ℕ) : (d.reject client).system = d.system := by
  unfold reject
  split
  · rfl
  · split <;> rfl

omit [DecidableEq Worker] in
theorem system_raises {b attempt : ℕ} {x : Sender Value} :
    (d.raises b x attempt).system = d.system := by
  unfold raises
  split <;> rfl

/-- **For the aggregator a step is one of its own**, or it does not see it. What comes in is a batch
of a sender or of another client. -/
theorem system_step {concurrency : ℕ} {e : DeploymentStep Value Worker}
    (hs : d.step concurrency e = some d') :
    d'.system = d.system ∨ ∃ e', d.system.step e' = some d'.system ∧
      ∀ events, e' = .request events → e = .foreign events ∨ ∃ x ∈ d.senders, x.batch = events := by
  cases e with
  | enter b =>
    simp only [Deployment.step] at hs
    split at hs
    · split at hs
      · cases hs
        exact Or.inl rfl
      · cases hs
    · cases hs
  | post b =>
    simp only [Deployment.step] at hs
    split at hs
    · next batch attempt hx =>
      obtain ⟨d₁, harrive, rfl⟩ := Option.map_eq_some_iff.mp hs
      obtain ⟨system, hsystem, rfl⟩ := Option.map_eq_some_iff.mp harrive
      -- the batch of a sender comes in as a request
      refine Or.inr ⟨.request batch, hsystem,
        fun events he => Or.inr ⟨_, List.mem_of_getElem? hx, ?_⟩⟩
      cases he
      rfl
    · cases hs
  | refuse b =>
    simp only [Deployment.step] at hs
    split at hs
    · cases hs
      exact Or.inl rfl
    · cases hs
  | raise b =>
    simp only [Deployment.step] at hs
    split at hs
    · cases hs
      exact Or.inl system_raises
    · cases hs
      exact Or.inl system_raises
    · cases hs
  | wake b =>
    simp only [Deployment.step] at hs
    split at hs
    · cases hs
      exact Or.inl rfl
    · cases hs
  | respond k =>
    simp only [Deployment.step] at hs
    split at hs
    · obtain ⟨d₁, hclose, rfl⟩ := Option.map_eq_some_iff.mp hs
      obtain ⟨system, hsystem, rfl⟩ := Option.map_eq_some_iff.mp hclose
      -- an answer ends the request, and so does a failure
      rw [system_accept]
      exact Or.inr ⟨.finish k, hsystem, fun events he => by cases he⟩
    · cases hs
  | fail k =>
    simp only [Deployment.step] at hs
    split at hs
    · obtain ⟨d₁, hclose, rfl⟩ := Option.map_eq_some_iff.mp hs
      obtain ⟨system, hsystem, rfl⟩ := Option.map_eq_some_iff.mp hclose
      rw [system_reject]
      exact Or.inr ⟨.finish k, hsystem, fun events he => by cases he⟩
    · cases hs
  | foreign events =>
    obtain ⟨system, hsystem, rfl⟩ := Option.map_eq_some_iff.mp hs
    exact Or.inr ⟨.request events, hsystem, fun events he => Or.inl (by cases he; rfl)⟩
  | serve e =>
    simp only [Deployment.step] at hs
    split at hs
    · next he =>
      obtain ⟨system, hsystem, rfl⟩ := Option.map_eq_some_iff.mp hs
      refine Or.inr ⟨e, hsystem, fun events h => ?_⟩
      subst h
      cases he
    · cases hs

end Deployment

/-! ## Where the entries come from -/

namespace System

/-- All that is published, or is still to be, is in the list. -/
structure Owned (items : List (Event Value)) (s : System Value Worker) : Prop where
  values : ∀ ev ∈ s.stream.values, ev ∈ items
  rests : ∀ r ∈ s.requests, ∀ ev ∈ r.rest, ev ∈ items

variable [DecidableEq Worker] {items : List (Event Value)} {s s' : System Value Worker}

theorem Owned.step {e : Step Value Worker} (h : Owned items s)
    (he : ∀ events, e = .request events → ∀ ev ∈ events, ev ∈ items) (hs : s.step e = some s') :
    Owned items s' := by
  cases e with
  | work w o claimed =>
    obtain ⟨hr, hv, -⟩ := (works_of_work hs).frame
    exact ⟨hv ▸ h.values, hr ▸ h.rests⟩
  | request events =>
    obtain rfl := step_request hs
    refine ⟨h.values, fun r hr ev hev => ?_⟩
    rcases List.mem_append.mp hr with hold | hnew
    · exact h.rests r hold ev hev
    · obtain rfl := List.mem_singleton.mp hnew
      exact he events rfl ev hev
  | count k =>
    obtain ⟨rest, hk, rfl⟩ := step_count hs
    refine ⟨h.values, fun r hr => ?_⟩
    rcases List.mem_or_eq_of_mem_set hr with hold | rfl
    · exact h.rests r hold
    · exact fun ev => h.rests { rest := rest } (List.mem_of_getElem? hk) ev
  | publish k =>
    -- what is published was in the rest of its request
    obtain ⟨ev, rest, hk, rfl⟩ := step_publish hs
    have hold := h.rests _ (List.mem_of_getElem? hk)
    refine ⟨fun x hx => ?_, fun r hr x hx => ?_⟩
    · rcases List.mem_append.mp hx with hx | hx
      · exact h.values x hx
      · obtain rfl := List.mem_singleton.mp hx
        exact hold x List.mem_cons_self
    · rcases List.mem_or_eq_of_mem_set hr with hr | rfl
      · exact h.rests r hr x hx
      · exact hold x (List.mem_cons_of_mem ev hx)
  | finish k =>
    obtain ⟨-, rfl⟩ := step_finish hs
    exact ⟨h.values, fun r hr => h.rests r (List.mem_of_mem_eraseIdx hr)⟩
  | start w =>
    obtain rfl := step_start hs
    exact ⟨h.values, h.rests⟩
  | crash w =>
    obtain rfl := Option.some.inj hs
    exact ⟨h.values, h.rests⟩

end System

/-! ## Runs -/

/-- Numbers that add up to as much as larger ones are the same. -/
theorem eq_of_sum_map_eq {α : Type} {f g : α → ℕ} : ∀ {l : List α}, (∀ x ∈ l, f x ≤ g x) →
    (l.map f).sum = (l.map g).sum → ∀ x ∈ l, f x = g x
  | [], _, _ => fun _ hx => (List.not_mem_nil hx).elim
  | a :: l, hle, hsum => by
    have ha := hle a List.mem_cons_self
    have hl : (l.map f).sum ≤ (l.map g).sum :=
      List.sum_le_sum fun x hx => hle x (List.mem_cons_of_mem a hx)
    simp only [List.map_cons, List.sum_cons] at hsum
    intro x hx
    rcases List.mem_cons.mp hx with rfl | hx
    · omega
    · exact eq_of_sum_map_eq (fun y hy => hle y (List.mem_cons_of_mem a hy)) (by omega) x hx

namespace DeploymentRun

variable [DecidableEq Worker] {concurrency : ℕ} {batches : List (List (Event Value))}
  (run : DeploymentRun concurrency batches Worker)

theorem tracked : ∀ i ≤ run.length, Deployment.Tracked batches (run.state i) :=
  run.invariant .initial fun _ _ _ h hs => h.step hs

theorem sum_batches {i : ℕ} (hi : i ≤ run.length) :
    ((run.state i).senders.map fun x => x.batch.length).sum = batches.flatten.length := by
  have h := congrArg (List.map List.length) (tracked run i hi).senders
  rw [List.map_map] at h
  rw [List.length_flatten, ← h]
  rfl

/-- What the aggregator does in this run is a run of it. -/
theorem exists_systemRun : ∃ (run' : SystemRun Value Worker) (time : ℕ → ℕ),
    ∀ i ≤ run.length, time i ≤ run'.length ∧ run'.state (time i) = (run.state i).system := by
  have href : Refinement (Deployment.step concurrency) System.step (fun _ => True)
      (Deployment.system : Deployment Value Worker → System Value Worker) := by
    refine ⟨fun _ _ _ _ _ => trivial, fun d e d' _ hs => ?_⟩
    rcases Deployment.system_step hs with heq | ⟨e', he', -⟩
    · exact Or.inl heq
    · exact Or.inr ⟨e', he'⟩
  have : Nonempty (Step Value Worker) := ⟨.finish 0⟩
  obtain ⟨run', time, -, h⟩ := href.simulation.exists_run run ⟨trivial, rfl⟩
  exact ⟨run', time, fun i hi => ⟨(h i hi).1, (h i hi).2.2⟩⟩

/-- When nobody else publishes, only events of the batches are in the stream. -/
theorem owned {i : ℕ} (hi : i ≤ run.length)
    (hown : ∀ j < i, (run.event j).isForeign = false) :
    System.Owned batches.flatten (run.state i).system := by
  induction i with
  | zero =>
    rw [run.state_zero]
    exact ⟨fun _ hev => (List.not_mem_nil hev).elim, fun _ hr => (List.not_mem_nil hr).elim⟩
  | succ i ih =>
    have h := ih (by omega) fun j hj => hown j (by omega)
    have hstep := run.state_succ i hi
    rcases Deployment.system_step hstep with heq | ⟨e', he', hrequest⟩
    · rw [heq]
      exact h
    · refine h.step (fun events he ev hev => ?_) he'
      rcases hrequest events he with hforeign | ⟨x, hx, rfl⟩
      · have hnot := hown i (Nat.lt_succ_self i)
        rw [hforeign] at hnot
        cases hnot
      · refine List.mem_flatten.mpr ⟨x.batch, ?_, hev⟩
        have hbatches := (tracked run i (Nat.le_of_succ_le hi)).senders
        exact hbatches ▸ List.mem_map_of_mem hx

/-- **Each event is stored once.** In every run of the publisher on the batches of a data set, with
requests and answers that are lost, handlers that fail midway, workers that crash and other clients,
it counts no more events as accepted than there are. When it counts all of them, they are in the
stream, and once every entry is acked each of their keys is stored once; if nobody else has
published, `unique_processed` is then the number of different keys of the data set. -/
theorem published_once {dataset : List (Event Value)} {size : ℕ}
    (hchunk : chunk dataset size = some batches) {i : ℕ} (hi : i ≤ run.length) :
    (run.state i).sent.accepted ≤ dataset.length ∧
    ((run.state i).sent.accepted = dataset.length →
      (∀ ev ∈ dataset, ev ∈ (run.state i).system.stream.values) ∧
      ((∀ k < (run.state i).system.stream.values.length, (run.state i).system.stream.IsAcked k) →
        (∀ ev ∈ dataset,
          ((run.state i).system.db.processedEvents.map Event.key).count ev.key = 1) ∧
        ((∀ j < i, (run.event j).isForeign = false) →
          (run.state i).system.db.uniqueProcessed = (dataset.map Event.key).dedup.length))) := by
  have h := tracked run i hi
  have hflatten := flatten_chunk hchunk
  have hsum := sum_batches run hi
  have hweight : ∀ x ∈ (run.state i).senders, x.weight ≤ x.batch.length := by
    intro x _
    unfold Sender.weight
    split
    · exact Nat.le_refl _
    · exact Nat.zero_le _
  rw [hflatten] at hsum
  rw [h.sent, ← hsum]
  refine ⟨List.sum_le_sum hweight, fun htotal => ?_⟩
  -- every batch that is not empty is accepted
  have hin : ∀ ev ∈ dataset, ev ∈ (run.state i).system.stream.values := by
    intro ev hev
    rw [← hflatten] at hev
    obtain ⟨batch, hbatch, hev⟩ := List.mem_flatten.mp hev
    obtain ⟨x, hx, hxbatch⟩ : ∃ x ∈ (run.state i).senders, x.batch = batch := by
      have hmem := h.senders ▸ hbatch
      exact List.mem_map.mp hmem
    have heq := eq_of_sum_map_eq hweight htotal x hx
    have hpos : 0 < x.batch.length := List.length_pos_of_mem (hxbatch ▸ hev)
    have haccepted : x.position = .done .accepted := by
      by_contra hnot
      rw [Sender.weight, if_neg hnot] at heq
      omega
    exact (h.accepted x hx haccepted).subset (hxbatch ▸ hev)
  refine ⟨hin, fun hacked => ?_⟩
  obtain ⟨run', time, hsystem⟩ := exists_systemRun run
  obtain ⟨htime, hstate⟩ := hsystem i hi
  have htables := (SystemRun.consistent run' _ htime).tables
  have hstored : ∀ ev ∈ (run'.state (time i)).stream.values,
      ev.key ∈ (run'.state (time i)).db.processedEvents.map Event.key :=
    fun ev => SystemRun.key_mem_of_acked run' htime (by rwa [hstate])
  have hpublished : ∀ key ∈ (run'.state (time i)).db.processedEvents.map Event.key,
      key ∈ (run'.state (time i)).stream.values.map Event.key :=
    fun key => SystemRun.key_mem_values run' htime
  rw [hstate] at hstored hpublished htables
  refine ⟨fun ev hev => List.count_eq_one_of_mem htables.nodup (hstored ev (hin ev hev)),
    fun hown => ?_⟩
  -- both lists have the same keys, each once
  rw [htables.rows, ← List.length_map (f := Event.key)]
  refine List.Perm.length_eq ((List.perm_ext_iff_of_nodup htables.nodup
    (List.nodup_dedup _)).mpr fun key => ?_)
  rw [List.mem_dedup, ← hflatten]
  constructor
  · intro hkey
    obtain ⟨ev, hev, rfl⟩ := List.mem_map.mp (hpublished key hkey)
    exact List.mem_map_of_mem ((owned run hi hown).values ev hev)
  · intro hkey
    obtain ⟨ev, hev, rfl⟩ := List.mem_map.mp hkey
    exact hstored ev (hin ev (hflatten ▸ hev))

end DeploymentRun

/-! ## A batch that comes in twice -/

/-- The events of the example run; the last one is a duplicate of the first. -/
def logLines : List (Event Unit) := [event "a", event "b", event "a"]

/-- The client of the first batch gives up while the batch is published and sends it again. Then the
second batch is sent, and a worker processes what is in the stream. -/
def sentTwiceSteps : List (DeploymentStep Unit Bool) :=
  [.enter 0, .post 0, .serve (.count 0), .serve (.publish 0), .raise 0, .fail 0, .wake 0, .post 0,
    .serve (.count 0), .serve (.publish 0), .serve (.publish 0), .respond 0, .enter 1, .post 1,
    .serve (.count 0), .serve (.publish 0), .respond 0, .serve (.start true),
    .serve (.work true .done []), .serve (.work true .done []), .serve (.work true .done []),
    .serve (.work true .done []), .serve (.work true .done []), .serve (.work true .done []),
    .serve (.work true .done []), .serve (.work true .done []), .serve (.work true .done [])]

def sentTwice : DeploymentRun 1 [[event "a", event "b"], [event "a"]] Bool :=
  Run.ofEvents _ _ sentTwiceSteps (.wake 0) (by decide +kernel)

theorem published_once_sentTwice :
    ((sentTwice.state 27).sent.accepted = 3 ∧
      (sentTwice.state 27).system.stream.values.length = 4) ∧
    (∀ ev ∈ logLines,
      ((sentTwice.state 27).system.db.processedEvents.map Event.key).count ev.key = 1) ∧
    (sentTwice.state 27).system.db.uniqueProcessed = (logLines.map Event.key).dedup.length := by
  have haccepted : (sentTwice.state 27).sent.accepted = 3 := by decide +kernel
  have hchunk : chunk logLines 2 = some [[event "a", event "b"], [event "a"]] := by decide +kernel
  have h := DeploymentRun.published_once sentTwice hchunk (i := 27) (by decide)
  have hstored := (h.2 haccepted).2 (by decide +kernel)
  exact ⟨⟨haccepted, by decide +kernel⟩, hstored.1, hstored.2 (by decide +kernel)⟩

end Aggregator
