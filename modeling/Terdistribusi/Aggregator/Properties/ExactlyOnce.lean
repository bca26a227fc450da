import Terdistribusi.Aggregator.System
import Mathlib.Data.List.Nodup

/-!
# Every event takes effect once

An entry of the stream can be processed many times: it is delivered again when its ack is lost or
its worker crashes. `process_event` makes that harmless for the table of events, and the counters
and the audit log follow the table because they are written in the same transaction.

* `Works` — what one turn of a worker does, in four cases
* `Consistent` — the invariant of the tables, the stream and the workers, with the list of the
  entries that transactions have processed so far
* `exactly_once`
-/

namespace Aggregator

open Infra

variable {Value Worker : Type}

/-! ## The tables -/

namespace Database

/-- No key is stored twice, and the counters are the numbers of rows. -/
structure Ok (db : Database Value Worker) : Prop where
  nodup : (db.processedEvents.map Event.key).Nodup
  rows : db.uniqueProcessed = db.processedEvents.length
  processed : db.uniqueProcessed = db.auditLog.countP fun row => row.action = .processed
  duplicate : db.duplicateDropped = db.auditLog.countP fun row => row.action = .duplicate

theorem Ok.initial : ({} : Database Value Worker).Ok :=
  ⟨List.nodup_nil, rfl, rfl, rfl⟩

theorem Ok.incrReceived {db : Database Value Worker} (h : db.Ok) (n : ℕ) :
    (db.incrReceived n).Ok :=
  ⟨h.nodup, h.rows, h.processed, h.duplicate⟩

/-- **The transaction keeps the tables consistent**, whether or not the event is new. -/
theorem Ok.processEvent {db : Database Value Worker} (h : db.Ok) (ev : Event Value) (w : Worker) :
    (db.processEvent ev w).2.Ok := by
  unfold Database.processEvent
  dsimp only
  split
  · next hnew =>
    refine ⟨?_, ?_, ?_, ?_⟩
    · rw [List.map_append, List.map_singleton]
      exact List.nodup_append'.mpr
        ⟨h.nodup, List.nodup_singleton _, List.disjoint_singleton.mpr hnew⟩
    · simp [h.rows]
    · simp [h.processed]
    · simp [h.duplicate]
  · refine ⟨h.nodup, h.rows, ?_, ?_⟩
    · simp [h.processed]
    · simp [h.duplicate]

theorem key_mem_processEvent (db : Database Value Worker) (ev : Event Value) (w : Worker) :
    ev.key ∈ (db.processEvent ev w).2.processedEvents.map Event.key := by
  unfold processEvent
  dsimp only
  split
  · simp
  · next hold => exact not_not.mp hold

theorem keys_subset_processEvent (db : Database Value Worker) (ev : Event Value) (w : Worker) :
    db.processedEvents.map Event.key ⊆
      (db.processEvent ev w).2.processedEvents.map Event.key := by
  unfold processEvent
  dsimp only
  split
  · rw [List.map_append]
    exact List.subset_append_left _ _
  · exact List.Subset.refl _

/-- Every transaction is counted once. -/
theorem counted_processEvent (db : Database Value Worker) (ev : Event Value) (w : Worker) :
    (db.processEvent ev w).2.uniqueProcessed + (db.processEvent ev w).2.duplicateDropped =
      db.uniqueProcessed + db.duplicateDropped + 1 := by
  unfold processEvent
  dsimp only
  split
  · dsimp only
    omega
  · dsimp only
    omega

end Database

/-! ## The turns of a worker -/

namespace Position

/-- The entries that a worker has still to process. -/
def entries : Position Value → List (Entry Value)
  | .claiming _ rest => rest
  | .acking _ _ rest => rest
  | .processing rest _ => rest
  | _ => []

/-- The entry that the next call processes. -/
def next : Position Value → Option (Entry Value)
  | .claiming _ (e :: _) => some e
  | .processing (e :: _) _ => some e
  | _ => none

theorem mem_entries_of_next {p : Position Value} {e : Entry Value} (h : p.next = some e) :
    e ∈ p.entries := by
  unfold next at h
  split at h
  · cases h
    exact List.mem_cons_self
  · cases h
    exact List.mem_cons_self
  · cases h

/-- The entries that a worker has processed and has still to ack. -/
def toAck : Position Value → List ℕ
  | .acking _ msgId _ => [msgId]
  | .processing _ ackIds => ackIds
  | .ackingAll ackIds => ackIds
  | _ => []

/-- A worker that an exception sends to sleep has nothing to process. -/
theorem entries_or_sleeping (c : Prop) [Decidable c] (p : Position Value) (idle : ℕ) :
    (if c then p else .sleeping idle).entries ⊆ p.entries := by
  split
  · exact fun _ => id
  · exact List.nil_subset _

/-- Nor has it anything to ack. -/
theorem toAck_or_sleeping (c : Prop) [Decidable c] (p : Position Value) (idle : ℕ) :
    (if c then p else .sleeping idle).toAck ⊆ p.toAck := by
  split
  · exact fun _ => id
  · exact List.nil_subset _

end Position

namespace System

/-- The entry that a transaction processes in this step. -/
def commits (s : System Value Worker) : Step Value Worker → Option ℕ
  | .work w o _ =>
    match (s.workers w).next with
    | some e => if o.effective then some e.1 else none
    | none => none
  | _ => none

variable [DecidableEq Worker]

/-- What a turn of worker `w` does, with the entry that a transaction processes in it. -/
inductive Works (s : System Value Worker) (w : Worker) (o : Outcome) :
    Option ℕ → System Value Worker → Prop
  | idle (p : Position Value) : p.entries ⊆ (s.workers w).entries →
      p.toAck ⊆ (s.workers w).toAck → Works s w o none (s.goTo w p)
  | deliver (ids : List ℕ) (p : Position Value) : p.entries ⊆ s.stream.entries ids →
      p.toAck = [] → Works s w o none ((s.deliver o w ids).goTo w p)
  | process (e : Entry Value) (p : Position Value) : e ∈ (s.workers w).entries →
      p.entries ⊆ (s.workers w).entries →
      (∀ i ∈ p.toAck, i ∈ (s.workers w).toAck ∨ i = e.1 ∧ o.effective = true) →
      Works s w o (if o.effective then some e.1 else none) ((s.process o e.2 w).goTo w p)
  | ack (ids : List ℕ) (p : Position Value) : ids ⊆ (s.workers w).toAck →
      p.entries ⊆ (s.workers w).entries → p.toAck = [] →
      Works s w o none ((s.ack o ids).goTo w p)

variable {s s' : System Value Worker} {w : Worker} {o : Outcome} {claimed : List ℕ}

omit [DecidableEq Worker] in
@[simp] theorem values_deliver (ids : List ℕ) :
    (s.deliver o w ids).stream.values = s.stream.values := by
  unfold deliver
  split <;> rfl

omit [DecidableEq Worker] in
@[simp] theorem values_ack (ids : List ℕ) : (s.ack o ids).stream.values = s.stream.values := by
  unfold ack
  split <;> rfl

omit [DecidableEq Worker] in
@[simp] theorem stream_process (ev : Event Value) : (s.process o ev w).stream = s.stream := by
  unfold process
  split <;> rfl

open Position in
/-- **The turns of `worker_loop` have the cases of `Works` and no others.** -/
theorem works_of_work (h : s.work w o claimed = some s') :
    Works s w o (s.commits (.work w o claimed)) s' := by
  unfold work at h
  show Works s w o (match (s.workers w).next with
    | some e => if o.effective then some e.1 else none
    | none => none) s'
  cases hp : s.workers w with
  | stopped =>
    rw [hp] at h
    cases h
  | top idle =>
    rw [hp] at h
    dsimp only at h
    split at h
    · split at h
      · cases h
        exact .deliver claimed _ (entries_or_sleeping _ (.claiming idle _) idle)
          (List.subset_nil.mp (toAck_or_sleeping _ (.claiming idle _) idle))
      · cases h
    · cases h
      exact .idle (.reading idle) (List.nil_subset _) (List.nil_subset _)
  | claiming idle rest =>
    rw [hp] at h
    cases rest with
    | nil =>
      cases h
      exact .idle (.reading idle) (List.nil_subset _) (List.nil_subset _)
    | cons e rest =>
      cases h
      refine .process e _ ?_ ?_ ?_
      · rw [hp]
        exact List.mem_cons_self
      · rw [hp]
        exact List.Subset.trans (entries_or_sleeping _ (.acking idle e.1 rest) idle)
          (List.subset_cons_self e rest)
      · intro i hi
        cases o with
        | done => exact Or.inr ⟨List.mem_singleton.mp hi, rfl⟩
        | failed => cases hi
        | unanswered => cases hi
  | acking idle msgId rest =>
    rw [hp] at h
    cases h
    refine .ack [msgId] _ ?_ ?_
      (List.subset_nil.mp (toAck_or_sleeping _ (.claiming idle rest) idle))
    · rw [hp]
      exact fun _ => id
    · rw [hp]
      exact entries_or_sleeping _ (.claiming idle rest) idle
  | reading idle =>
    rw [hp] at h
    cases h
    -- an empty batch leads back to the head of the loop
    refine .deliver s.toRead _ (List.Subset.trans (entries_or_sleeping _ _ idle) ?_)
      (List.subset_nil.mp (List.Subset.trans (toAck_or_sleeping _ _ idle) ?_))
    · split
      · exact List.nil_subset _
      · exact fun _ => id
    · split <;> exact List.nil_subset _
  | processing rest ackIds =>
    rw [hp] at h
    cases rest with
    | nil =>
      cases h
      refine .idle (.ackingAll ackIds) (List.nil_subset _) ?_
      rw [hp]
      exact fun _ => id
    | cons e rest =>
      cases h
      refine .process e _ ?_ ?_ ?_
      · rw [hp]
        exact List.mem_cons_self
      · rw [hp]
        exact List.subset_cons_self e rest
      · intro i hi
        rw [hp]
        cases o with
        | done =>
          rcases List.mem_append.mp hi with hold | hnew
          · exact Or.inl hold
          · exact Or.inr ⟨List.mem_singleton.mp hnew, rfl⟩
        | failed => exact Or.inl hi
        | unanswered => exact Or.inl hi
  | ackingAll ackIds =>
    rw [hp] at h
    cases h
    refine .ack ackIds _ ?_
      (List.Subset.trans (entries_or_sleeping _ (.top 0) 0) (List.nil_subset _))
      (List.subset_nil.mp (toAck_or_sleeping _ (.top 0) 0))
    rw [hp]
    exact fun _ => id
  | sleeping idle =>
    rw [hp] at h
    cases h
    exact .idle (.top idle) (List.nil_subset _) (List.nil_subset _)

/-! ## The invariant -/

/-- The tables, the stream and the workers fit together, when `l` lists the entries that
transactions have processed so far. -/
structure Consistent (l : List ℕ) (s : System Value Worker) : Prop where
  tables : s.db.Ok
  /-- What a worker is going to process is in the stream. -/
  held : ∀ w, ∀ e ∈ (s.workers w).entries, s.stream.values[e.1]? = some e.2
  toAck : ∀ w, ∀ i ∈ (s.workers w).toAck, i ∈ l
  acked : ∀ i, s.stream.IsAcked i → i ∈ l
  stored : ∀ i ∈ l, ∃ ev, s.stream.values[i]? = some ev ∧
    ev.key ∈ s.db.processedEvents.map Event.key
  counted : s.db.uniqueProcessed + s.db.duplicateDropped = l.length

omit [DecidableEq Worker] in
theorem Consistent.initial : Consistent [] ({} : System Value Worker) where
  tables := Database.Ok.initial
  held := fun _ _ he => by cases he
  toAck := fun _ _ hi => by cases hi
  acked := fun _ hi => by cases hi
  stored := fun _ hi => by cases hi
  counted := rfl

variable {l : List ℕ}

/-- A worker may go to where it has only entries of the stream, and acks only processed ones. -/
theorem Consistent.goTo (h : Consistent l s) {p : Position Value}
    (hentries : ∀ e ∈ p.entries, s.stream.values[e.1]? = some e.2) (hack : ∀ i ∈ p.toAck, i ∈ l) :
    Consistent l (s.goTo w p) := by
  refine { h with held := fun x e he => ?_, toAck := fun x i hi => ?_ }
  · by_cases hx : x = w
    · subst hx
      refine hentries e ?_
      simpa [System.goTo] using he
    · refine h.held x e ?_
      simpa [System.goTo, Function.update_of_ne hx] using he
  · by_cases hx : x = w
    · subst hx
      refine hack i ?_
      simpa [System.goTo] using hi
    · refine h.toAck x i ?_
      simpa [System.goTo, Function.update_of_ne hx] using hi

omit [DecidableEq Worker] in
theorem Consistent.deliver (h : Consistent l s) (ids : List ℕ) :
    Consistent l (s.deliver o w ids) := by
  unfold System.deliver
  split
  · exact { h with acked := fun i hi => h.acked i (ConsumerGroup.isAcked_deliver hi) }
  · exact h

omit [DecidableEq Worker] in
theorem Consistent.ack (h : Consistent l s) {ids : List ℕ} (hids : ids ⊆ l) :
    Consistent l (s.ack o ids) := by
  unfold System.ack
  split
  · refine { h with acked := fun i hi => ?_ }
    rcases ConsumerGroup.isAcked_ack hi with hnew | hold
    · exact hids hnew
    · exact h.acked i hold
  · exact h

omit [DecidableEq Worker] in
theorem Consistent.process (h : Consistent l s) {e : Entry Value}
    (he : s.stream.values[e.1]? = some e.2) :
    Consistent (l ++ (if o.effective then some e.1 else none).toList) (s.process o e.2 w) := by
  unfold System.process
  split
  · next hv =>
    refine ⟨h.tables.processEvent e.2 w, h.held, fun x i hi => ?_, fun i hi => ?_, fun i hi => ?_,
      ?_⟩
    · exact List.mem_append_left _ (h.toAck x i hi)
    · exact List.mem_append_left _ (h.acked i hi)
    · rcases List.mem_append.mp hi with hold | hnew
      · obtain ⟨ev, hev, hkey⟩ := h.stored i hold
        exact ⟨ev, hev, Database.keys_subset_processEvent s.db e.2 w hkey⟩
      · obtain rfl := List.mem_singleton.mp hnew
        exact ⟨e.2, he, Database.key_mem_processEvent s.db e.2 w⟩
    · rw [Database.counted_processEvent, h.counted]
      simp
  · rw [Option.toList_none, List.append_nil]
    exact h

/-- **A turn of a worker keeps everything consistent.** -/
theorem Consistent.works {c : Option ℕ} (h : Consistent l s) (hw : Works s w o c s') :
    Consistent (l ++ c.toList) s' := by
  cases hw with
  | idle p hentries hack =>
    rw [Option.toList_none, List.append_nil]
    exact h.goTo (fun e he => h.held w e (hentries he)) fun i hi => h.toAck w i (hack hi)
  | deliver ids p hentries hack =>
    rw [Option.toList_none, List.append_nil]
    refine (h.deliver ids).goTo (fun e he => ?_) (by simp [hack])
    rw [values_deliver]
    exact (ConsumerGroup.mem_entries.mp (hentries he)).2
  | process e p he hentries hack =>
    refine (h.process (h.held w e he)).goTo (fun x hx => ?_) fun i hi => ?_
    · rw [stream_process]
      exact h.held w x (hentries hx)
    · rcases hack i hi with hold | ⟨rfl, hv⟩
      · exact List.mem_append_left _ (h.toAck w i hold)
      · rw [if_pos hv]
        exact List.mem_append_right _ (List.mem_singleton.mpr rfl)
  | ack ids p hids hentries hack =>
    rw [Option.toList_none, List.append_nil]
    refine (h.ack fun i hi => h.toAck w i (hids hi)).goTo (fun e he => ?_) (by simp [hack])
    rw [values_ack]
    exact h.held w e (hentries he)

omit [DecidableEq Worker] in
theorem Consistent.publish (h : Consistent l s) (ev : Event Value) (rs : List (Request Value)) :
    Consistent l { s with stream := s.stream.add ev, requests := rs } := by
  have hkeep : ∀ {i : ℕ} {v : Event Value}, s.stream.values[i]? = some v →
      (s.stream.add ev).values[i]? = some v := by
    intro i v hi
    rw [ConsumerGroup.add_values, List.getElem?_append_left (List.getElem?_eq_some_iff.mp hi).1]
    exact hi
  refine { h with held := fun w e he => ?_, acked := fun i hi => ?_, stored := fun i hi => ?_ }
  · exact hkeep (h.held w e he)
  · exact h.acked i (ConsumerGroup.isAcked_add hi)
  · obtain ⟨v, hv, hkey⟩ := h.stored i hi
    exact ⟨v, hkeep hv, hkey⟩

omit [DecidableEq Worker] in
/-- A step that processes nothing. -/
theorem Consistent.of_eq_none (h : Consistent l s') {c : Option ℕ} (hc : c = none) :
    Consistent (l ++ c.toList) s' := by
  rw [hc, Option.toList_none, List.append_nil]
  exact h

/-- **Every step keeps everything consistent**, with the entry that is processed in it. -/
theorem Consistent.step {e : Step Value Worker} (h : Consistent l s) (hs : s.step e = some s') :
    Consistent (l ++ (s.commits e).toList) s' := by
  cases e with
  | work w o claimed => exact h.works (works_of_work hs)
  | request events =>
    obtain rfl := step_request hs
    refine .of_eq_none ?_ rfl
    exact { h with }
  | count k =>
    obtain ⟨rest, -, rfl⟩ := step_count hs
    refine .of_eq_none ?_ rfl
    exact { h with tables := h.tables.incrReceived rest.length }
  | publish k =>
    obtain ⟨ev, rest, -, rfl⟩ := step_publish hs
    exact (h.publish ev _).of_eq_none rfl
  | finish k =>
    obtain ⟨-, rfl⟩ := step_finish hs
    refine .of_eq_none ?_ rfl
    exact { h with }
  | start w =>
    obtain rfl := step_start hs
    exact (h.goTo (fun _ he => by cases he) fun _ hi => by cases hi).of_eq_none rfl
  | crash w =>
    obtain rfl := Option.some.inj hs
    exact (h.goTo (fun _ he => by cases he) fun _ hi => by cases hi).of_eq_none rfl

end System

/-! ## Runs -/

namespace SystemRun

variable [DecidableEq Worker] (run : SystemRun Value Worker)

/-- The entries that transactions have processed before time `i`, one for each transaction. -/
def committed (i : ℕ) : List ℕ :=
  (List.range i).filterMap fun j => (run.state j).commits (run.event j)

theorem committed_succ (i : ℕ) : committed run (i + 1) =
    committed run i ++ ((run.state i).commits (run.event i)).toList := by
  unfold committed
  rw [List.range_succ, List.filterMap_append]
  congr 1

theorem consistent : ∀ i ≤ run.length, System.Consistent (committed run i) (run.state i) := by
  refine run.induction ?_ fun i hi h => ?_
  · rw [run.state_zero]
    exact .initial
  · rw [committed_succ]
    exact h.step (run.state_succ i hi)

/-- **Every event takes effect once**: the key of an acked entry is stored, no key is stored twice,
and the counters are the numbers of rows in the table of events and in the audit log. -/
theorem exactly_once {i : ℕ} (hi : i ≤ run.length) :
    (∀ k ev, (run.state i).stream.values[k]? = some ev → (run.state i).stream.IsAcked k →
      ev.key ∈ (run.state i).db.processedEvents.map Event.key) ∧
    ((run.state i).db.processedEvents.map Event.key).Nodup ∧
    (run.state i).db.uniqueProcessed = (run.state i).db.processedEvents.length ∧
    (run.state i).db.uniqueProcessed =
      (run.state i).db.auditLog.countP (fun row => row.action = .processed) ∧
    (run.state i).db.duplicateDropped =
      (run.state i).db.auditLog.countP (fun row => row.action = .duplicate) := by
  have h := consistent run i hi
  refine ⟨fun k ev hk hacked => ?_, h.tables.nodup, h.tables.rows, h.tables.processed,
    h.tables.duplicate⟩
  obtain ⟨v, hv, hkey⟩ := h.stored k (h.acked k hacked)
  rw [hk] at hv
  rwa [Option.some.inj hv]

end SystemRun

/-! ## An event that is processed twice -/

/-- An event of the example runs. -/
def event (eventId : String) : Event Unit :=
  { topic := "logs", eventId := eventId, timestamp := "2024-01-01T00:00:00Z", source := "app",
    payload := () }

/-- A request publishes an event. The first worker processes it and crashes before the ack; the
second one claims the entry, processes it again and acks it. -/
def redeliveredSteps : List (Step Unit Bool) :=
  [.request [event "a"], .count 0, .publish 0, .finish 0, .start false, .work false .done [],
    .work false .done [], .work false .done [], .work false .done [], .crash false, .start true,
    .work true .done [0], .work true .done [], .work true .done []]

def redelivered : SystemRun Unit Bool :=
  Run.ofEvents _ _ redeliveredSteps (.finish 0) (by decide +kernel)

theorem exactly_once_redelivered : (redelivered.state 14).stream.IsAcked 0 ∧
    (∀ k ev, (redelivered.state 14).stream.values[k]? = some ev →
      (redelivered.state 14).stream.IsAcked k →
      ev.key ∈ (redelivered.state 14).db.processedEvents.map Event.key) ∧
    ((redelivered.state 14).db.processedEvents.map Event.key).Nodup ∧
    (redelivered.state 14).db.uniqueProcessed =
      (redelivered.state 14).db.processedEvents.length ∧
    (redelivered.state 14).db.uniqueProcessed =
      (redelivered.state 14).db.auditLog.countP (fun row => row.action = .processed) ∧
    (redelivered.state 14).db.duplicateDropped =
      (redelivered.state 14).db.auditLog.countP (fun row => row.action = .duplicate) :=
  ⟨by decide +kernel, SystemRun.exactly_once redelivered (i := 14) (by decide)⟩

end Aggregator
