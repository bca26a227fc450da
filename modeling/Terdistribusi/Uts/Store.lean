import Terdistribusi.Infra.DateTime
import Mathlib.Data.List.Sort

/-!
# The store of processed events

`DedupStore` (`src/store.py`) with the `Event` of `src/models.py`: a table in SQLite whose primary
key is `(topic, event_id)`. A text is a list of characters where its order matters. A payload is
kept as what `json.loads` makes of the column.
-/

namespace Uts

open Infra

variable {Payload : Type}

structure Event (Payload : Type) where
  topic : String
  eventId : String
  timestamp : DateTime
  source : String
  payload : Payload

/-- The primary key. -/
structure Key where
  topic : String
  eventId : String
  deriving DecidableEq

def Event.key (event : Event Payload) : Key := ⟨event.topic, event.eventId⟩

/-- A row of `processed_events`. -/
structure Row (Payload : Type) where
  topic : String
  eventId : String
  timestamp : List Char
  source : String
  payload : Payload
  processedAt : List Char

def Row.key (row : Row Payload) : Key := ⟨row.topic, row.eventId⟩

/-- What is inserted for an event at a time. -/
def Event.row (event : Event Payload) (now : List Char) : Row Payload :=
  { topic := event.topic, eventId := event.eventId, timestamp := event.timestamp.isoformat,
    source := event.source, payload := event.payload, processedAt := now }

@[simp] theorem Event.key_row (event : Event Payload) (now : List Char) :
    (event.row now).key = event.key := rfl

structure DedupStore (Payload : Type) where
  rows : List (Row Payload)
  primaryKey : (rows.map Row.key).Nodup

namespace DedupStore

/-- A table without rows. -/
def empty : DedupStore Payload := ⟨[], List.nodup_nil⟩

def keys (store : DedupStore Payload) : List Key := store.rows.map Row.key

/-- `INSERT OR IGNORE`, with whether a row was inserted; `now` is `CURRENT_TIMESTAMP`. -/
def addIfNew (event : Event Payload) (now : List Char) (store : DedupStore Payload) :
    Bool × DedupStore Payload :=
  if h : event.key ∈ store.keys then (false, store)
  else
    (true,
      { rows := store.rows ++ [event.row now]
        primaryKey := by
          rw [List.map_append, List.map_singleton, Event.key_row]
          exact List.nodup_append'.mpr ⟨store.primaryKey, List.nodup_singleton _,
            List.disjoint_singleton.mpr h⟩ })

/-- `WHERE topic = ?`, which is left out for no topic and for the empty one. -/
def listed (topic : Option String) (rowTopic : String) : Bool :=
  match topic with
  | none | some "" => true
  | some topic => rowTopic = topic

/-- `ORDER BY timestamp ASC, processed_at ASC` -/
def OrderBy (row row' : Row Payload) : Prop :=
  List.Lex CodeLT row.timestamp row'.timestamp ∨
    row.timestamp = row'.timestamp ∧ TextLE row.processedAt row'.processedAt

instance (row row' : Row Payload) : Decidable (OrderBy row row') :=
  inferInstanceAs (Decidable (_ ∨ _))

/-- `list_events`. Rows that are equal in the order stay as they were inserted. -/
def listEvents (topic : Option String) (store : DedupStore Payload) : List (Row Payload) :=
  (store.rows.filter fun row => listed topic row.topic).insertionSort OrderBy

/-! ## Adding -/

variable {event : Event Payload} {now : List Char} {store : DedupStore Payload}

theorem addIfNew_of_mem (h : event.key ∈ store.keys) : store.addIfNew event now = (false, store) :=
  dif_pos h

theorem addIfNew_fst : (store.addIfNew event now).1 = true ↔ event.key ∉ store.keys := by
  unfold addIfNew
  split
  · next h => simp [h]
  · next h => simp [h]

theorem rows_addIfNew : (store.addIfNew event now).2.rows =
    store.rows ++ if (store.addIfNew event now).1 then [event.row now] else [] := by
  unfold addIfNew
  split
  · exact (List.append_nil _).symm
  · rfl

/-- The key of the event is there, and every key that was. -/
theorem mem_keys_addIfNew {key : Key} :
    key ∈ (store.addIfNew event now).2.keys ↔ key = event.key ∨ key ∈ store.keys := by
  by_cases h : event.key ∈ store.keys
  · rw [addIfNew_of_mem h]
    exact ⟨Or.inr, fun hkey => hkey.elim (fun heq => heq ▸ h) id⟩
  · have hnew : (store.addIfNew event now).1 = true := addIfNew_fst.mpr h
    unfold keys
    rw [rows_addIfNew, if_pos hnew, List.map_append, List.mem_append, or_comm]
    simp

/-! ## Listing -/

instance : Std.Total (α := Row Payload) OrderBy where
  total row row' := by
    unfold OrderBy
    rcases trichotomous_of (List.Lex CodeLT) row.timestamp row'.timestamp with h | h | h
    · exact Or.inl (Or.inl h)
    · rcases TextLE.total row.processedAt row'.processedAt with hle | hle
      · exact Or.inl (Or.inr ⟨h, hle⟩)
      · exact Or.inr (Or.inr ⟨h.symm, hle⟩)
    · exact Or.inr (Or.inl h)

instance : IsTrans (Row Payload) OrderBy where
  trans row row' row'' := by
    unfold OrderBy
    rintro (h | ⟨h, hle⟩) (h' | ⟨h', hle'⟩)
    · exact Or.inl (List.lex_trans Nat.lt_trans h h')
    · exact Or.inl (h' ▸ h)
    · exact Or.inl (h ▸ h')
    · exact Or.inr ⟨h.trans h', hle.trans hle'⟩

theorem mem_listEvents {topic : Option String} {row : Row Payload} :
    row ∈ store.listEvents topic ↔ row ∈ store.rows ∧ listed topic row.topic = true := by
  unfold listEvents
  rw [List.mem_insertionSort, List.mem_filter]

theorem pairwise_listEvents (topic : Option String) (store : DedupStore Payload) :
    (store.listEvents topic).Pairwise OrderBy :=
  List.pairwise_insertionSort _ _

end DedupStore

end Uts
