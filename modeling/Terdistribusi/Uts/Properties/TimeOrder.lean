import Terdistribusi.Uts.Store
import Mathlib.Data.List.Pairwise

/-!
# The order in which events are listed

`list_events` orders by the text of the timestamps, which is the order of the local times
(`Infra.DateTime.lex_isoformat_iff`). That is the order of the instants as long as the offsets
differ by no more than the local times (`listEvents_timeOrdered_iff`), as they do when all
timestamps have one offset (`agree_of_offset_eq`).
-/

namespace Uts

open Infra

variable {Payload : Type}

/-! ## Local times and instants -/

/-- The local times and the offsets put `a` before `b` only where the instants do: the offsets
differ by no more than the local times, and for one local time an offset that is not negative is not
the smaller one. -/
def Agree (a b : DateTime) : Prop :=
  (a.localTime < b.localTime → b.offset - a.offset ≤ b.localTime - a.localTime) ∧
    (a.localTime = b.localTime → 0 ≤ a.offset → b.offset ≤ a.offset)

instance (a b : DateTime) : Decidable (Agree a b) := inferInstanceAs (Decidable (_ ∧ _))

/-- **When a smaller text stands for no later instant.** -/
theorem agree_iff {a b : DateTime} :
    Agree a b ↔ (List.Lex CodeLT a.isoformat b.isoformat → a.instant ≤ b.instant) := by
  rw [DateTime.lex_isoformat_iff]
  unfold Agree DateTime.OffsetLT DateTime.instant
  omega

/-- Timestamps with one offset agree. -/
theorem agree_of_offset_eq {a b : DateTime} (h : a.offset = b.offset) : Agree a b := by
  unfold Agree
  omega

theorem instant_eq {a b : DateTime} (h : a.isoformat = b.isoformat) : a.instant = b.instant := by
  obtain ⟨hlocal, hoffset⟩ := DateTime.instant_eq_of_isoformat h
  unfold DateTime.instant
  rw [hlocal, hoffset]

/-- The rows stand for instants that are not decreasing. -/
def TimeOrdered (rows : List (Row Payload)) : Prop :=
  rows.Pairwise fun row row' => ∀ a b : DateTime,
    a.isoformat = row.timestamp → b.isoformat = row'.timestamp → a.instant ≤ b.instant

/-- Of two members of a list one is listed first. -/
theorem rel_or_rel {α : Type} {R : α → α → Prop} {l : List α} (h : l.Pairwise R) {a b : α}
    (ha : a ∈ l) (hb : b ∈ l) (hne : a ≠ b) : R a b ∨ R b a := by
  have hsymm : Std.Symm fun a b : α => R a b ∨ R b a := ⟨fun _ _ => Or.symm⟩
  have hor : l.Pairwise fun a b => R a b ∨ R b a := h.imp Or.inl
  exact hor.forall ha hb hne

/-- **Rows in the order of their texts are in the order of time** exactly when their timestamps
agree. -/
theorem timeOrdered_iff {rows : List (Row Payload)} (h : rows.Pairwise DedupStore.OrderBy) :
    TimeOrdered rows ↔ ∀ row ∈ rows, ∀ row' ∈ rows, ∀ a b : DateTime,
      a.isoformat = row.timestamp → b.isoformat = row'.timestamp → Agree a b := by
  constructor
  · intro htime row hrow row' hrow' a b ha hb
    rw [agree_iff, ha, hb]
    intro hlex
    have hne : row ≠ row' := by
      rintro rfl
      exact List.lex_irrefl not_codeLT_self _ hlex
    -- one of the two is listed first, and it cannot be the one with the greater text
    have hboth := rel_or_rel (h.and htime) hrow hrow' hne
    rcases hboth with ⟨-, hle⟩ | ⟨horder, -⟩
    · exact hle a b ha hb
    · rcases horder with hgt | ⟨heq, -⟩
      · exact absurd hgt (asymm hlex)
      · rw [heq] at hlex
        exact absurd hlex (List.lex_irrefl not_codeLT_self _)
  · intro hagree
    refine h.imp_of_mem fun {row row'} hrow hrow' horder a b ha hb => ?_
    rcases horder with hlex | ⟨heq, -⟩
    · rw [← ha, ← hb] at hlex
      exact agree_iff.mp (hagree row hrow row' hrow' a b ha hb) hlex
    · exact (instant_eq (ha.trans (heq.trans hb.symm))).le

namespace DedupStore

/-- Events are added at given times: those that were new, and the store afterwards. -/
def addEach : List (Event Payload × List Char) → DedupStore Payload →
    List (Event Payload) × DedupStore Payload
  | [], store => ([], store)
  | (event, now) :: rest, store =>
    let added := store.addIfNew event now
    let r := addEach rest added.2
    (if added.1 then event :: r.1 else r.1, r.2)

/-- The rows are those of the new events. -/
theorem timestamps_addEach : ∀ (events : List (Event Payload × List Char))
    (store : DedupStore Payload),
    ((store.addEach events).2.rows.map fun row => (row.topic, row.timestamp)) =
      (store.rows.map fun row => (row.topic, row.timestamp)) ++
        (store.addEach events).1.map fun event => (event.topic, event.timestamp.isoformat)
  | [], store => by simp [addEach]
  | (event, now) :: rest, store => by
    have ih := timestamps_addEach rest (store.addIfNew event now).2
    rw [rows_addIfNew] at ih
    unfold addEach
    dsimp only
    rw [ih]
    split
    · simp [Event.row]
    · simp

/-- The texts that are listed are those of the new events. -/
theorem exists_row_iff {events : List (Event Payload × List Char)} {topic : Option String}
    {text : List Char} :
    (∃ row ∈ ((empty.addEach events).2.listEvents topic), row.timestamp = text) ↔
      ∃ event ∈ (empty.addEach events).1, listed topic event.topic = true ∧
        event.timestamp.isoformat = text := by
  have hmem (t : String) : (t, text) ∈
      ((empty.addEach events).2.rows.map fun row => (row.topic, row.timestamp)) ↔
      (t, text) ∈
        ((empty.addEach events).1.map fun event => (event.topic, event.timestamp.isoformat)) := by
    rw [timestamps_addEach events empty]
    rfl
  simp only [List.mem_map, Prod.mk.injEq] at hmem
  constructor
  · rintro ⟨row, hrow, htext⟩
    obtain ⟨hrow, hlisted⟩ := mem_listEvents.mp hrow
    obtain ⟨event, hevent, htopic, htext⟩ := (hmem row.topic).mp ⟨row, hrow, rfl, htext⟩
    exact ⟨event, hevent, htopic ▸ hlisted, htext⟩
  · rintro ⟨event, hevent, hlisted, htext⟩
    obtain ⟨row, hrow, htopic, htext⟩ := (hmem event.topic).mpr ⟨event, hevent, rfl, htext⟩
    exact ⟨row, mem_listEvents.mpr ⟨hrow, htopic ▸ hlisted⟩, htext⟩

/-- What `list_events` returns is in the order of time exactly when the timestamps of the stored
events that it lists agree. -/
theorem listEvents_timeOrdered_iff (events : List (Event Payload × List Char))
    (topic : Option String) : TimeOrdered ((empty.addEach events).2.listEvents topic) ↔
      ∀ event ∈ (empty.addEach events).1, listed topic event.topic = true →
        ∀ event' ∈ (empty.addEach events).1, listed topic event'.topic = true →
          Agree event.timestamp event'.timestamp := by
  rw [timeOrdered_iff (pairwise_listEvents topic _)]
  constructor
  · intro h event hevent hlisted event' hevent' hlisted'
    obtain ⟨row, hrow, htext⟩ := exists_row_iff.mpr ⟨event, hevent, hlisted, rfl⟩
    obtain ⟨row', hrow', htext'⟩ := exists_row_iff.mpr ⟨event', hevent', hlisted', rfl⟩
    exact h row hrow row' hrow' _ _ htext.symm htext'.symm
  · intro h row hrow row' hrow' a b ha hb
    obtain ⟨event, hevent, hlisted, htext⟩ := exists_row_iff.mp ⟨row, hrow, rfl⟩
    obtain ⟨event', hevent', hlisted', htext'⟩ := exists_row_iff.mp ⟨row', hrow', rfl⟩
    have hsame := DateTime.instant_eq_of_isoformat (ha.trans htext.symm)
    have hsame' := DateTime.instant_eq_of_isoformat (hb.trans htext'.symm)
    have hagree := h event hevent hlisted event' hevent' hlisted'
    unfold Agree at hagree ⊢
    rwa [hsame.1, hsame.2, hsame'.1, hsame'.2]

end DedupStore

/-! ## Two offsets -/

/-- Nine o'clock in UTC. -/
def nine : DateTime where
  year := 2024
  month := 1
  day := 1
  hour := 9
  minute := 0
  second := 0
  microsecond := 0
  offset := 0
  hdate := ⟨by decide, by decide, by decide⟩
  hhour := by decide
  hminute := by decide
  hsecond := by decide
  hmicrosecond := by decide
  hoffset := by decide

/-- Ten o'clock two hours east of it, an hour earlier. -/
def tenEast : DateTime :=
  { nine with
    hour := 10
    offset := 7200000000
    hhour := by decide
    hoffset := by decide }

example : tenEast.isoformat = "2024-01-01T10:00:00+02:00".toList := by decide +kernel

def nineEvent : Event Unit :=
  { topic := "logs", eventId := "a", timestamp := nine, source := "app", payload := () }

def tenEastEvent : Event Unit := { nineEvent with eventId := "b", timestamp := tenEast }

theorem not_timeOrdered_tenEast : ¬ TimeOrdered
    ((DedupStore.empty.addEach [(nineEvent, []), (tenEastEvent, [])]).2.listEvents none) := by
  have hlist : (DedupStore.empty.addEach [(nineEvent, []), (tenEastEvent, [])]).2.listEvents none =
      [nineEvent.row [], tenEastEvent.row []] := by
    rfl
  rw [hlist]
  intro h
  have hle := (List.pairwise_cons.mp h).1 _ (List.mem_singleton.mpr rfl) nine tenEast rfl rfl
  exact absurd hle (by decide +kernel)

end Uts
