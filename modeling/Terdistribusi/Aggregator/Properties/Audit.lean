import Terdistribusi.Aggregator.Properties.Balance

/-!
# The audit log explains the tables

A transaction of `process_event` writes into the table of events, the counters and the audit log.
What is in the table and the log is determined by the transactions alone, whichever workers ran them
and however often an entry was delivered.

* `Audited` — the table and the log after a list of transactions
* `db_step` — a step changes them by the transactions it does
* `audit_trail`
-/

namespace Aggregator

open Infra

variable {Value Worker : Type}

def AuditRow.key (row : AuditRow Worker) : String × String := (row.topic, row.eventId)

/-- What a transaction processes, and the worker that runs it. -/
abbrev Transaction (Value Worker : Type) := Event Value × Worker

/-- The transactions of the list that have this key. -/
def withKey (key : String × String) (ts : List (Transaction Value Worker)) :
    List (Transaction Value Worker) :=
  ts.filter fun t => t.1.key = key

theorem withKey_concat_self (ts : List (Transaction Value Worker)) (ev : Event Value) (w : Worker) :
    withKey ev.key (ts ++ [(ev, w)]) = withKey ev.key ts ++ [(ev, w)] := by
  simp [withKey]

theorem withKey_concat_ne {key : String × String} {ev : Event Value} (h : ev.key ≠ key)
    (ts : List (Transaction Value Worker)) (w : Worker) :
    withKey key (ts ++ [(ev, w)]) = withKey key ts := by
  simp [withKey, h]

/-- What the log says about `n` transactions with one key. -/
def actions : ℕ → List Action
  | 0 => []
  | n + 1 => .processed :: List.replicate n .duplicate

theorem actions_succ_succ (n : ℕ) : actions (n + 2) = actions (n + 1) ++ [.duplicate] := by
  simp [actions, List.replicate_succ']

namespace Database

/-! ## The tables after a list of transactions -/

/-- The tables after the transactions `ts`, in this order. -/
structure Audited (ts : List (Transaction Value Worker)) (db : Database Value Worker) : Prop where
  /-- one row for each transaction, which names its worker -/
  rows : db.auditLog.map (fun row => (row.key, row.worker)) = ts.map fun t => (t.1.key, t.2)
  actions : ∀ key, ((db.auditLog.filter fun row => row.key = key).map AuditRow.action) =
    Aggregator.actions (withKey key ts).length
  /-- The event of the first transaction is the one that is kept. -/
  stored : ∀ key, (db.processedEvents.filter fun ev => ev.key = key) =
    (withKey key ts).head?.toList.map Prod.fst

theorem Audited.initial : Audited [] ({} : Database Value Worker) :=
  ⟨rfl, fun _ => rfl, fun _ => rfl⟩

theorem Audited.incrReceived {ts : List (Transaction Value Worker)} {db : Database Value Worker}
    (h : Audited ts db) (n : ℕ) : Audited ts (db.incrReceived n) :=
  ⟨h.rows, h.actions, h.stored⟩

/-- A key is in the table when a transaction has had it. -/
theorem Audited.key_mem_iff {ts : List (Transaction Value Worker)} {db : Database Value Worker}
    (h : Audited ts db) {key : String × String} :
    key ∈ db.processedEvents.map Event.key ↔ withKey key ts ≠ [] := by
  have hstored := h.stored key
  constructor
  · intro hkey hnil
    obtain ⟨ev, hev, rfl⟩ := List.mem_map.mp hkey
    rw [hnil] at hstored
    exact List.filter_eq_nil_iff.mp hstored ev hev (by simp)
  · intro hne
    obtain ⟨t, rest, hts⟩ := List.exists_cons_of_ne_nil hne
    rw [hts] at hstored
    have hmem : t.1 ∈ db.processedEvents.filter fun ev => ev.key = key := by
      rw [hstored]
      simp
    obtain ⟨hev, hkey⟩ := List.mem_filter.mp hmem
    exact List.mem_map.mpr ⟨t.1, hev, by simpa using hkey⟩

/-- **One more transaction** adds a row to the log, and to the table when its key is new. -/
theorem Audited.processEvent {ts : List (Transaction Value Worker)} {db : Database Value Worker}
    (h : Audited ts db) (ev : Event Value) (w : Worker) :
    Audited (ts ++ [(ev, w)]) (db.processEvent ev w).2 := by
  unfold Database.processEvent
  dsimp only
  split
  · next hnew =>
    -- no transaction has had this key
    have hnil : withKey ev.key ts = [] := by
      by_contra hne
      exact hnew (h.key_mem_iff.mpr hne)
    refine ⟨?_, fun key => ?_, fun key => ?_⟩
    · rw [List.map_append, List.map_append, h.rows]
      rfl
    · by_cases hkey : ev.key = key
      · subst hkey
        have hold := h.actions ev.key
        rw [hnil] at hold
        rw [withKey_concat_self, hnil, List.filter_append, List.map_append, hold]
        simp [AuditRow.key, Event.key, Aggregator.actions]
      · rw [withKey_concat_ne hkey, ← h.actions key, List.filter_append]
        have hrow : ((ev.topic, ev.eventId) : String × String) ≠ key := hkey
        simp [AuditRow.key, hrow]
    · by_cases hkey : ev.key = key
      · subst hkey
        have hold := h.stored ev.key
        rw [hnil] at hold
        rw [withKey_concat_self, hnil, List.filter_append, hold]
        simp
      · rw [withKey_concat_ne hkey, ← h.stored key, List.filter_append]
        simp [hkey]
  · next hold =>
    obtain ⟨t, rest, hts⟩ := List.exists_cons_of_ne_nil (h.key_mem_iff.mp (not_not.mp hold))
    refine ⟨?_, fun key => ?_, fun key => ?_⟩
    · rw [List.map_append, List.map_append, h.rows]
      rfl
    · by_cases hkey : ev.key = key
      · subst hkey
        rw [withKey_concat_self, List.filter_append, List.map_append, h.actions, hts]
        simp [AuditRow.key, Event.key, actions_succ_succ]
      · rw [withKey_concat_ne hkey, ← h.actions key, List.filter_append]
        have hrow : ((ev.topic, ev.eventId) : String × String) ≠ key := hkey
        simp [AuditRow.key, hrow]
    · by_cases hkey : ev.key = key
      · subst hkey
        rw [withKey_concat_self, h.stored, hts]
        simp
      · rw [withKey_concat_ne hkey, h.stored key]

/-! ## Nothing is rewritten -/

/-- `db'` has the rows of `db`, in the same places. -/
structure Extends (db db' : Database Value Worker) : Prop where
  processedEvents : db.processedEvents <+: db'.processedEvents
  auditLog : db.auditLog <+: db'.auditLog

theorem Extends.refl (db : Database Value Worker) : db.Extends db :=
  ⟨List.prefix_refl _, List.prefix_refl _⟩

theorem Extends.trans {db db' db'' : Database Value Worker} (h : db.Extends db')
    (h' : db'.Extends db'') : db.Extends db'' :=
  ⟨h.processedEvents.trans h'.processedEvents, h.auditLog.trans h'.auditLog⟩

theorem extends_processEvent (db : Database Value Worker) (ev : Event Value) (w : Worker) :
    db.Extends (db.processEvent ev w).2 := by
  unfold processEvent
  dsimp only
  split
  · exact ⟨List.prefix_append _ _, List.prefix_append _ _⟩
  · exact ⟨List.prefix_refl _, List.prefix_append _ _⟩

end Database

/-! ## The transactions of a run -/

namespace System

/-- The transaction of this step, if it does one. -/
def transaction (s : System Value Worker) : Step Value Worker → List (Transaction Value Worker)
  | .work w o _ =>
    match (s.workers w).next with
    | some e => if o.effective then [(e.2, w)] else []
    | none => []
  | _ => []

variable [DecidableEq Worker] {s s' : System Value Worker}

omit [DecidableEq Worker] in
theorem db_deliver (o : Outcome) (w : Worker) (ids : List ℕ) : (s.deliver o w ids).db = s.db := by
  unfold deliver
  split <;> rfl

omit [DecidableEq Worker] in
theorem db_ack (o : Outcome) (ids : List ℕ) : (s.ack o ids).db = s.db := by
  unfold ack
  split <;> rfl

/-- A turn of a worker changes the tables by `process_event` of the next entry. -/
theorem db_work {w : Worker} {o : Outcome} {claimed : List ℕ} (h : s.work w o claimed = some s') :
    s'.db = ((s.workers w).next.elim s fun e => s.process o e.2 w).db := by
  unfold work at h
  cases hp : s.workers w with
  | stopped =>
    rw [hp] at h
    cases h
  | top idle =>
    rw [hp] at h
    dsimp only at h
    split at h
    · split at h
      · cases h
        exact db_deliver o w claimed
      · cases h
    · cases h
      rfl
  | claiming idle rest =>
    rw [hp] at h
    cases rest with
    | nil =>
      cases h
      rfl
    | cons e rest =>
      cases h
      rfl
  | acking idle msgId rest =>
    rw [hp] at h
    cases h
    exact db_ack o [msgId]
  | reading idle =>
    rw [hp] at h
    cases h
    exact db_deliver o w s.toRead
  | processing rest ackIds =>
    rw [hp] at h
    cases rest with
    | nil =>
      cases h
      rfl
    | cons e rest =>
      cases h
      rfl
  | ackingAll ackIds =>
    rw [hp] at h
    cases h
    exact db_ack o ackIds
  | sleeping idle =>
    rw [hp] at h
    cases h
    rfl

/-- **A step adds its transaction** to those that made the tables. -/
theorem audited_step {ts : List (Transaction Value Worker)} {e : Step Value Worker}
    (h : s.db.Audited ts) (hs : s.step e = some s') : s'.db.Audited (ts ++ s.transaction e) := by
  cases e with
  | work w o claimed =>
    rw [db_work hs]
    cases hnext : (s.workers w).next with
    | none => simpa [transaction, hnext] using h
    | some entry =>
      by_cases ho : o.effective = true
      · simpa [transaction, hnext, process, ho] using h.processEvent entry.2 w
      · simpa [transaction, hnext, process, ho] using h
  | request events =>
    obtain rfl := step_request hs
    simpa [transaction] using h
  | count k =>
    obtain ⟨rest, -, rfl⟩ := step_count hs
    simpa [transaction] using h.incrReceived rest.length
  | publish k =>
    obtain ⟨ev, rest, -, rfl⟩ := step_publish hs
    simpa [transaction] using h
  | finish k =>
    obtain ⟨-, rfl⟩ := step_finish hs
    simpa [transaction] using h
  | start w =>
    obtain rfl := step_start hs
    simpa [transaction, goTo] using h
  | crash w =>
    obtain rfl := Option.some.inj hs
    simpa [transaction, goTo] using h

theorem extends_step {e : Step Value Worker} (hs : s.step e = some s') : s.db.Extends s'.db := by
  cases e with
  | work w o claimed =>
    rw [db_work hs]
    cases hnext : (s.workers w).next with
    | none => exact .refl s.db
    | some entry =>
      by_cases ho : o.effective = true
      · simpa [process, ho] using s.db.extends_processEvent entry.2 w
      · simpa [process, ho] using Database.Extends.refl s.db
  | request events => rw [step_request hs]; exact .refl s.db
  | count k =>
    obtain ⟨rest, -, rfl⟩ := step_count hs
    exact ⟨List.prefix_refl _, List.prefix_refl _⟩
  | publish k =>
    obtain ⟨ev, rest, -, rfl⟩ := step_publish hs
    exact .refl s.db
  | finish k =>
    obtain ⟨-, rfl⟩ := step_finish hs
    exact .refl s.db
  | start w => rw [step_start hs]; exact .refl s.db
  | crash w =>
    obtain rfl := Option.some.inj hs
    exact .refl s.db

omit [DecidableEq Worker] in
/-- What a transaction processes is an entry that the worker holds. -/
theorem mem_entries_of_transaction {t : Transaction Value Worker} {e : Step Value Worker}
    (h : t ∈ s.transaction e) : ∃ entry ∈ (s.workers t.2).entries, entry.2 = t.1 := by
  cases e with
  | work w o claimed =>
    unfold transaction at h
    cases hp : s.workers w with
    | claiming idle rest =>
      cases rest with
      | nil => simp [hp, Position.next] at h
      | cons e rest =>
        simp only [hp, Position.next] at h
        split at h
        · obtain rfl := List.mem_singleton.mp h
          exact ⟨e, by simp [hp, Position.entries], rfl⟩
        · cases h
    | processing rest ackIds =>
      cases rest with
      | nil => simp [hp, Position.next] at h
      | cons e rest =>
        simp only [hp, Position.next] at h
        split at h
        · obtain rfl := List.mem_singleton.mp h
          exact ⟨e, by simp [hp, Position.entries], rfl⟩
        · cases h
    | stopped => simp [hp, Position.next] at h
    | top idle => simp [hp, Position.next] at h
    | acking idle msgId rest => simp [hp, Position.next] at h
    | reading idle => simp [hp, Position.next] at h
    | ackingAll ackIds => simp [hp, Position.next] at h
    | sleeping idle => simp [hp, Position.next] at h
  | request events => cases h
  | count k => cases h
  | publish k => cases h
  | finish k => cases h
  | start w => cases h
  | crash w => cases h

/-- Nothing leaves the stream. -/
theorem values_isPrefix_step {e : Step Value Worker} (h : s.step e = some s') :
    s.stream.values <+: s'.stream.values := by
  cases e with
  | work w o claimed => rw [(works_of_work h).frame.2.1]
  | request events => rw [step_request h]
  | count k =>
    obtain ⟨rest, -, rfl⟩ := step_count h
    exact List.prefix_rfl
  | publish k =>
    obtain ⟨ev, rest, -, rfl⟩ := step_publish h
    exact List.prefix_append _ _
  | finish k =>
    obtain ⟨-, rfl⟩ := step_finish h
    exact List.prefix_rfl
  | start w =>
    rw [step_start h]
    exact List.prefix_rfl
  | crash w =>
    obtain rfl := Option.some.inj h
    exact List.prefix_rfl

end System

namespace SystemRun

variable [DecidableEq Worker] (run : SystemRun Value Worker)

/-- The transactions before time `i`, in order. -/
def transactions (i : ℕ) : List (Transaction Value Worker) := run.history System.transaction i

theorem audited : ∀ i ≤ run.length, (run.state i).db.Audited (transactions run i) := by
  refine run.induction ?_ fun i hi ih => ?_
  · rw [run.state_zero]
    exact .initial
  · rw [transactions, Run.history_succ]
    exact System.audited_step ih (run.state_succ i hi)

/-- Only entries of the stream are processed. -/
theorem mem_values_of_mem_transactions : ∀ i ≤ run.length, ∀ t ∈ transactions run i,
    t.1 ∈ (run.state i).stream.values := by
  refine run.induction ?_ fun i hi ih t ht => ?_
  · simp [transactions]
  · rw [transactions, Run.history_succ] at ht
    refine (System.values_isPrefix_step (run.state_succ i hi)).subset ?_
    rcases List.mem_append.mp ht with hold | hnew
    · exact ih t hold
    · obtain ⟨entry, hentry, heq⟩ := System.mem_entries_of_transaction hnew
      rw [← heq]
      exact List.mem_of_getElem? ((consistent run i (Nat.le_of_lt hi)).held t.2 entry hentry)

/-- Nothing is stored that was not published. -/
theorem key_mem_values {i : ℕ} (hi : i ≤ run.length) {key : String × String}
    (h : key ∈ (run.state i).db.processedEvents.map Event.key) :
    key ∈ (run.state i).stream.values.map Event.key := by
  obtain ⟨t, rest, hts⟩ := List.exists_cons_of_ne_nil ((audited run i hi).key_mem_iff.mp h)
  have ht : t ∈ withKey key (transactions run i) := hts ▸ List.mem_cons_self
  obtain ⟨ht, hkey⟩ := List.mem_filter.mp ht
  exact List.mem_map.mpr ⟨t.1, mem_values_of_mem_transactions run i hi t ht, by simpa using hkey⟩

/-- When every entry is acked, all that is published is stored. -/
theorem key_mem_of_acked {i : ℕ} (hi : i ≤ run.length)
    (hacked : ∀ k < (run.state i).stream.values.length, (run.state i).stream.IsAcked k)
    {ev : Event Value} (hev : ev ∈ (run.state i).stream.values) :
    ev.key ∈ (run.state i).db.processedEvents.map Event.key := by
  have h := consistent run i hi
  obtain ⟨k, hk, rfl⟩ := List.getElem_of_mem hev
  obtain ⟨v, hv, hkey⟩ := h.stored k (h.acked k (hacked k hk))
  rw [List.getElem?_eq_getElem hk] at hv
  rwa [Option.some.inj hv]

theorem db_extends {i j : ℕ} (hij : i ≤ j) (hj : j ≤ run.length) :
    (run.state i).db.Extends (run.state j).db :=
  run.rel (R := fun s s' => s.db.Extends s'.db) (fun s => .refl s.db)
    (fun _ _ _ h h' => h.trans h') (fun k hk => System.extends_step (run.state_succ k hk)) hij hj

/-- **The audit log explains the tables.** There is one row for each transaction, in their order,
with its key and its worker, and each was of an entry of the stream. The first transaction with a
key is logged as `processed` and the others as `duplicate`, and the event of the first one is what
is stored under the key. Rows are never changed or removed. -/
theorem audit_trail {i : ℕ} (hi : i ≤ run.length) :
    ((run.state i).db.auditLog.map fun row => (row.key, row.worker)) =
      (transactions run i).map (fun t => (t.1.key, t.2)) ∧
    (∀ t ∈ transactions run i, t.1 ∈ (run.state i).stream.values) ∧
    (∀ key, (((run.state i).db.auditLog.filter fun row => row.key = key).map AuditRow.action) =
        actions (withKey key (transactions run i)).length ∧
      ((run.state i).db.processedEvents.filter fun ev => ev.key = key) =
        (withKey key (transactions run i)).head?.toList.map Prod.fst) ∧
    ∀ j, i ≤ j → j ≤ run.length →
      (run.state i).db.processedEvents <+: (run.state j).db.processedEvents ∧
        (run.state i).db.auditLog <+: (run.state j).db.auditLog := by
  have h := audited run i hi
  refine ⟨h.rows, mem_values_of_mem_transactions run i hi, fun key => ⟨h.actions key, h.stored key⟩,
    fun j hij hj => ?_⟩
  have hext := db_extends run hij hj
  exact ⟨hext.processedEvents, hext.auditLog⟩

end SystemRun

/-- The run in which an entry is claimed from a worker that crashed before its ack. -/
theorem audit_trail_redelivered :
    SystemRun.transactions redelivered 14 = [(event "a", false), (event "a", true)] ∧
    ((redelivered.state 14).db.auditLog.map fun row => (row.key, row.worker)) =
      (SystemRun.transactions redelivered 14).map (fun t => (t.1.key, t.2)) ∧
    (((redelivered.state 14).db.auditLog.filter fun row => row.key = ("logs", "a")).map
      AuditRow.action) = [.processed, .duplicate] := by
  have htransactions :
      SystemRun.transactions redelivered 14 = [(event "a", false), (event "a", true)] := by
    decide +kernel
  have h := SystemRun.audit_trail redelivered (i := 14) (by decide)
  refine ⟨htransactions, h.1, ?_⟩
  rw [(h.2.2.1 ("logs", "a")).1, htransactions]
  rfl

end Aggregator
