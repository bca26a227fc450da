import Terdistribusi.Infra.Dict
import Terdistribusi.Infra.Network

/-!
# The message bus

`MessageBus` (`src/communication/message_passing.py`) with the inboxes of the registered nodes. A
message is dropped when a side is partitioned, the receiver is not registered or its inbox is full,
and only the result of `send` says so.

A node does not ask for a delay, so a `send` is one atomic step.
-/

namespace Communication

open Infra

structure MessageBus (NodeId Payload : Type) where
  channels : Dict NodeId (List (Message NodeId Payload)) := Dict.empty
  partitions : Finset NodeId := ∅

namespace MessageBus

variable {NodeId Payload : Type} [DecidableEq NodeId]

/-- `asyncio.Queue(maxsize=10000)` -/
def maxsize : ℕ := 10000

/-- A node that is registered again keeps its inbox. -/
def registerNode (a : NodeId) (bus : MessageBus NodeId Payload) : MessageBus NodeId Payload :=
  match bus.channels.get? a with
  | some _ => bus
  | none => { bus with channels := bus.channels.set a [] }

def partitionNodes (nodeIds : List NodeId) (bus : MessageBus NodeId Payload) :
    MessageBus NodeId Payload :=
  { bus with partitions := bus.partitions ∪ nodeIds.toFinset }

omit [DecidableEq NodeId] in
def healPartition (bus : MessageBus NodeId Payload) : MessageBus NodeId Payload :=
  { bus with partitions := ∅ }

/-- The messages that wait for node `a`. -/
def inbox (bus : MessageBus NodeId Payload) (a : NodeId) : List (Message NodeId Payload) :=
  (bus.channels.get? a).getD []

/-- `send`, with what it returns. -/
def send (m : Message NodeId Payload) (bus : MessageBus NodeId Payload) :
    Bool × MessageBus NodeId Payload :=
  if m.senderId ∈ bus.partitions ∨ m.receiverId ∈ bus.partitions then (false, bus)
  else
    match bus.channels.get? m.receiverId with
    | none => (false, bus)
    | some q =>
      if q.length < maxsize then
        (true, { bus with channels := bus.channels.set m.receiverId (q ++ [m]) })
      else (false, bus)

/-- Messages are sent one after the other, and nobody looks at the results. -/
def sendAll (ms : List (Message NodeId Payload)) (bus : MessageBus NodeId Payload) :
    MessageBus NodeId Payload :=
  ms.foldl (fun bus m => (bus.send m).2) bus

/-- The messages for which `send` returns `True`. -/
def accepted : List (Message NodeId Payload) → MessageBus NodeId Payload →
    List (Message NodeId Payload)
  | [], _ => []
  | m :: ms, bus =>
    if (bus.send m).1 then m :: accepted ms (bus.send m).2 else accepted ms (bus.send m).2

/-- The next message of node `a`, taken out of its inbox. -/
def receive (a : NodeId) (bus : MessageBus NodeId Payload) :
    Option (Message NodeId Payload × MessageBus NodeId Payload) :=
  match bus.channels.get? a with
  | none => none
  | some [] => none
  | some (m :: q) => some (m, { bus with channels := bus.channels.set a q })

/-! ## Which messages are taken -/

/-- A message from `a` to `b` would be taken. -/
def Accepts (bus : MessageBus NodeId Payload) (a b : NodeId) : Prop :=
  a ∉ bus.partitions ∧ b ∉ bus.partitions ∧ b ∈ bus.channels.keys ∧
    (bus.inbox b).length < maxsize

instance (bus : MessageBus NodeId Payload) (a b : NodeId) : Decidable (bus.Accepts a b) :=
  inferInstanceAs (Decidable (_ ∧ _ ∧ _ ∧ _))

/-- **The two outcomes of `send`.** -/
theorem send_cases (m : Message NodeId Payload) (bus : MessageBus NodeId Payload) :
    bus.Accepts m.senderId m.receiverId ∧ bus.send m = (true, { bus with
        channels := bus.channels.set m.receiverId (bus.inbox m.receiverId ++ [m]) }) ∨
      ¬ bus.Accepts m.senderId m.receiverId ∧ bus.send m = (false, bus) := by
  unfold send Accepts inbox
  split
  · next hp => exact Or.inr ⟨fun h => hp.elim h.1 h.2.1, rfl⟩
  · next hp =>
    obtain ⟨hs, hr⟩ := not_or.mp hp
    cases hq : bus.channels.get? m.receiverId with
    | none => exact Or.inr ⟨fun h => Dict.get?_eq_none_iff.mp hq h.2.2.1, rfl⟩
    | some q =>
      rw [Option.getD_some]
      dsimp only
      split
      · next hlen => exact Or.inl ⟨⟨hs, hr, Dict.mem_keys_of_get? hq, hlen⟩, rfl⟩
      · next hlen => exact Or.inr ⟨fun h => hlen h.2.2.2, rfl⟩

@[simp] theorem inbox_registerNode (a b : NodeId) (bus : MessageBus NodeId Payload) :
    (bus.registerNode a).inbox b = bus.inbox b := by
  unfold registerNode inbox
  split
  · rfl
  · next hnone =>
    dsimp only
    rw [Dict.get?_set]
    split
    · next hab =>
      subst hab
      rw [hnone]
      rfl
    · rfl

theorem inbox_set (bus : MessageBus NodeId Payload) (a b : NodeId)
    (q : List (Message NodeId Payload)) :
    ({ bus with channels := bus.channels.set a q } : MessageBus NodeId Payload).inbox b =
      if a = b then q else bus.inbox b := by
  unfold inbox
  rw [Dict.get?_set]
  split <;> rfl

/-- A `send` puts the message behind the others of its receiver, or changes nothing. -/
theorem inbox_send (m : Message NodeId Payload) (bus : MessageBus NodeId Payload) (b : NodeId) :
    (bus.send m).2.inbox b = if bus.Accepts m.senderId m.receiverId ∧ m.receiverId = b
      then bus.inbox b ++ [m] else bus.inbox b := by
  rcases send_cases m bus with ⟨hacc, h⟩ | ⟨hno, h⟩
  · rw [h, inbox_set]
    by_cases hb : m.receiverId = b
    · rw [if_pos hb, if_pos ⟨hacc, hb⟩, hb]
    · rw [if_neg hb, if_neg fun hc => hb hc.2]
  · rw [h, if_neg fun hc => hno hc.1]

theorem accepts_send {m : Message NodeId Payload} {bus : MessageBus NodeId Payload} {a b : NodeId}
    (h : bus.Accepts a b) (hne : m.receiverId ≠ b) : (bus.send m).2.Accepts a b := by
  obtain ⟨ha, hb, hkey, hlen⟩ := h
  have hlen' : ((bus.send m).2.inbox b).length < maxsize := by
    rw [inbox_send, if_neg fun hc => hne hc.2]
    exact hlen
  rcases send_cases m bus with ⟨-, hs⟩ | ⟨-, hs⟩
  · rw [hs] at hlen' ⊢
    exact ⟨ha, hb, Dict.mem_keys_set.mpr (Or.inr hkey), hlen'⟩
  · rw [hs]
    exact ⟨ha, hb, hkey, hlen⟩

/-! ## Many messages -/

theorem subset_inbox_sendAll : ∀ (ms : List (Message NodeId Payload))
    (bus : MessageBus NodeId Payload) (b : NodeId), bus.inbox b ⊆ (bus.sendAll ms).inbox b
  | [], _, _ => fun _ => id
  | m :: ms, bus, b => by
    refine List.Subset.trans ?_ (subset_inbox_sendAll ms (bus.send m).2 b)
    rw [inbox_send]
    split
    · exact List.subset_append_left _ _
    · exact fun _ => id

theorem mem_inbox_sendAll {b : NodeId} {x : Message NodeId Payload} :
    ∀ (ms : List (Message NodeId Payload)) (bus : MessageBus NodeId Payload),
      x ∈ (bus.sendAll ms).inbox b → x ∈ bus.inbox b ∨ x ∈ ms ∧ x.receiverId = b
  | [], _, h => Or.inl h
  | m :: ms, bus, h => by
    rcases mem_inbox_sendAll ms (bus.send m).2 h with hold | ⟨hin, hb⟩
    · rw [inbox_send] at hold
      split at hold
      · next hc =>
        rcases List.mem_append.mp hold with hold | hnew
        · exact Or.inl hold
        · obtain rfl := List.mem_singleton.mp hnew
          exact Or.inr ⟨List.mem_cons_self, hc.2⟩
      · exact Or.inl hold
    · exact Or.inr ⟨List.mem_cons_of_mem _ hin, hb⟩

theorem accepted_sublist : ∀ (ms : List (Message NodeId Payload)) (bus : MessageBus NodeId Payload),
    (bus.accepted ms).Sublist ms
  | [], _ => .slnil
  | m :: ms, bus => by
    rw [accepted]
    split
    · exact (accepted_sublist ms _).cons_cons m
    · exact (accepted_sublist ms _).cons m

/-- **What many messages do**: those for which `send` returns `True` are put behind the others of
their receiver, in order. -/
theorem inbox_sendAll (b : NodeId) : ∀ (ms : List (Message NodeId Payload))
    (bus : MessageBus NodeId Payload), (bus.sendAll ms).inbox b =
      bus.inbox b ++ (bus.accepted ms).filter fun m => m.receiverId = b
  | [], bus => (List.append_nil _).symm
  | m :: ms, bus => by
    show ((bus.send m).2.sendAll ms).inbox b = _
    rw [inbox_sendAll b ms, inbox_send, accepted]
    rcases send_cases m bus with ⟨hacc, h⟩ | ⟨hno, h⟩
    · by_cases hb : m.receiverId = b
      · subst hb
        simp [h, hacc]
      · simp [h, hb]
    · simp [h, hno]

/-- The first of the messages to `b` is taken when `b` would take one. -/
theorem exists_mem_inbox_sendAll {a b : NodeId} : ∀ (ms : List (Message NodeId Payload))
    (bus : MessageBus NodeId Payload), (∀ m ∈ ms, m.senderId = a) → bus.Accepts a b →
      (∃ m ∈ ms, m.receiverId = b) → ∃ m ∈ ms, m ∈ (bus.sendAll ms).inbox b
  | [], _, _, _, h => by simp at h
  | m :: ms, bus, hsender, hacc, h => by
    by_cases hb : m.receiverId = b
    · refine ⟨m, List.mem_cons_self, subset_inbox_sendAll ms (bus.send m).2 b ?_⟩
      rw [inbox_send, hsender m List.mem_cons_self, hb, if_pos ⟨hacc, rfl⟩]
      exact List.mem_append_right _ (List.mem_singleton.mpr rfl)
    · obtain ⟨x, hx, hxb⟩ := h
      rcases List.mem_cons.mp hx with rfl | hx
      · exact absurd hxb hb
      · obtain ⟨y, hy, hin⟩ := exists_mem_inbox_sendAll ms (bus.send m).2
          (fun z hz => hsender z (List.mem_cons_of_mem _ hz)) (accepts_send hacc hb) ⟨x, hx, hxb⟩
        exact ⟨y, List.mem_cons_of_mem _ hy, hin⟩

/-- Messages that nobody takes leave the bus as it is. -/
theorem sendAll_of_not_accepts : ∀ (ms : List (Message NodeId Payload))
    (bus : MessageBus NodeId Payload), (∀ m ∈ ms, ¬ bus.Accepts m.senderId m.receiverId) →
      bus.sendAll ms = bus
  | [], _, _ => rfl
  | m :: ms, bus, h => by
    rcases send_cases m bus with ⟨hacc, -⟩ | ⟨-, hs⟩
    · exact absurd hacc (h m List.mem_cons_self)
    · rw [sendAll, List.foldl_cons, hs]
      exact sendAll_of_not_accepts ms bus fun x hx => h x (List.mem_cons_of_mem _ hx)

/-! ## Taking a message out -/

theorem mem_keys_of_receive {a : NodeId} {bus bus' : MessageBus NodeId Payload}
    {m : Message NodeId Payload} (h : bus.receive a = some (m, bus')) : a ∈ bus.channels.keys := by
  unfold receive at h
  cases hq : bus.channels.get? a with
  | none =>
    rw [hq] at h
    cases h
  | some q => exact Dict.mem_keys_of_get? hq

theorem receive_eq_some {a : NodeId} {bus bus' : MessageBus NodeId Payload}
    {m : Message NodeId Payload} (h : bus.receive a = some (m, bus')) :
    ∃ q, bus.inbox a = m :: q ∧ bus' = { bus with channels := bus.channels.set a q } := by
  unfold receive at h
  unfold inbox
  cases hq : bus.channels.get? a with
  | none =>
    rw [hq] at h
    cases h
  | some q =>
    rw [hq] at h
    cases q with
    | nil => cases h
    | cons x q =>
      cases h
      exact ⟨q, rfl, rfl⟩

end MessageBus

end Communication
