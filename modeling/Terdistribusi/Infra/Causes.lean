import Terdistribusi.Infra.Erasure

/-!
# What a message goes back to

A call makes a node send messages, and a message makes its receiver send others, so every message
goes back to one call. A run can be carried out with messages that carry the time of this call
(`Run.caused`). Nothing else changes: the nodes are those of the run itself (`Run.nodes_caused`),
and so are the messages without the times (`Run.inbox_caused`).

* `Run.caused_cases` — what one step does to the messages and their times
-/

namespace Infra

variable {Addr Node Call Env Payload : Type*}

/-- The time of the call that an input goes back to. -/
def Input.cause : Input Addr (Call × ℕ) Env (Payload × ℕ) → ℕ
  | .call c => c.2
  | .receive _ m => m.payload.2

/-- The input without the time. -/
abbrev Input.plain : Input Addr (Call × ℕ) Env (Payload × ℕ) → Input Addr Call Env Payload :=
  Input.map Prod.fst Prod.fst

/-- The message, which goes back to the call at time `t`. -/
def Message.tag (t : ℕ) (m : Message Addr Payload) : Message Addr (Payload × ℕ) :=
  m.map fun p => (p, t)

namespace Network

/-- A node acts as it does without the times. What it sends goes back to what its input goes back
to. -/
def actCaused
    (act : Addr → Input Addr Call Env Payload → Node → Node × List (Message Addr Payload))
    (a : Addr) (inp : Input Addr (Call × ℕ) Env (Payload × ℕ)) (n : Node) :
    Node × List (Message Addr (Payload × ℕ)) :=
  let r := act a inp.plain n
  (r.1, r.2.map (Message.tag inp.cause))

/-- The event at time `i`; a call carries the time. -/
def Event.tag (i : ℕ) :
    Event Addr Call Env Payload → Event Addr (Call × ℕ) Env (Payload × ℕ) :=
  Event.map (fun c => (c, i)) fun p => (p, i)

theorem Event.tag_map (i : ℕ) (e : Event Addr Call Env Payload) :
    (e.tag i).map Prod.fst Prod.fst = e := by
  cases e <;> rfl

variable [DecidableEq Addr]
  {act : Addr → Input Addr Call Env Payload → Node → Node × List (Message Addr Payload)}
  {faulty : Finset Addr}

theorem erases_actCaused : Erases (step (actCaused act) faulty) (step act faulty)
    (map id Prod.fst) (Event.map Prod.fst Prod.fst) := by
  refine erases faulty fun a inp n => Prod.ext rfl ?_
  unfold actCaused
  rw [List.map_map]
  exact (List.map_id _).symm

end Network

namespace Run

open Network

variable [DecidableEq Addr]
  {act : Addr → Input Addr Call Env Payload → Node → Node × List (Message Addr Payload)}
  {faulty : Finset Addr} {start : Addr → Node}
  (run : Run (step act faulty) (initial start))

/-- The same run, whose messages carry the time of the call that they go back to. -/
def caused : Run (step (actCaused act) faulty) (initial start) :=
  Run.lift erases_actCaused run (fun i => (run.event i).tag i) fun i => (run.event i).tag_map i

/-- No message that goes back to the call at time `t` is in flight at time `i`. -/
def Settled (t i : ℕ) : Prop :=
  ∀ a, ∀ m ∈ (run.caused.state i).inbox a, m.payload.2 ≠ t

theorem erase_caused {i : ℕ} (hi : i ≤ run.length) :
    (run.caused.state i).map id Prod.fst = run.state i :=
  Run.erase_lift (initial start) erases_actCaused run _ _ hi

theorem nodes_caused {i : ℕ} (hi : i ≤ run.length) :
    (run.caused.state i).nodes = (run.state i).nodes :=
  congrArg Network.nodes (run.erase_caused hi)

theorem inbox_caused {i : ℕ} (hi : i ≤ run.length) (a : Addr) :
    ((run.caused.state i).inbox a).map (Message.map Prod.fst) = (run.state i).inbox a :=
  congrArg (fun s => s.inbox a) (run.erase_caused hi)

/-- The message without the time is in flight in the run itself. -/
theorem mem_inbox_of_caused {i : ℕ} (hi : i ≤ run.length) {a : Addr}
    {m : Message Addr (Payload × ℕ)} (hm : m ∈ (run.caused.state i).inbox a) :
    m.map Prod.fst ∈ (run.state i).inbox a := by
  rw [← run.inbox_caused hi]
  exact List.mem_map_of_mem hm

end Run

/-! ## One step -/

namespace Run

open Network

variable [DecidableEq Addr]
  {act : Addr → Input Addr Call Env Payload → Node → Node × List (Message Addr Payload)}
  {start : Addr → Node} (run : Run (step act ∅) (initial start))

/-- Node `a` takes `inp` at time `i`. The inboxes `inbox₀` without the message that it takes are
extended by what it sends. A call goes back to itself. -/
structure Takes (i : ℕ) (a : Addr) (inp : Input Addr (Call × ℕ) Env (Payload × ℕ))
    (inbox₀ : Addr → List (Message Addr (Payload × ℕ))) : Prop where
  input : (run.state i).input? (run.event i) = some (a, inp.plain)
  nodes : (run.state (i + 1)).nodes =
    Function.update (run.state i).nodes a (act a inp.plain ((run.state i).nodes a)).1
  moves : Moves (actCaused act) (run.caused.state i) (run.caused.state (i + 1)) a inp inbox₀
  cause : ∀ c, inp = .call c → c.2 = i

theorem input?_caused {i : ℕ} (hi : i ≤ run.length) {a : Addr}
    {inp : Input Addr (Call × ℕ) Env (Payload × ℕ)}
    (h : (run.caused.state i).input? ((run.event i).tag i) = some (a, inp)) :
    (run.state i).input? (run.event i) = some (a, inp.plain) ∧ ∀ c, inp = .call c → c.2 = i := by
  rw [← run.erase_caused hi]
  cases he : run.event i with
  | call b c =>
    rw [he] at h
    cases h
    refine ⟨rfl, ?_⟩
    rintro c' ⟨⟩
    rfl
  | deliver b k env =>
    rw [he] at h
    obtain ⟨m, hm, heq⟩ := Option.map_eq_some_iff.mp h
    cases heq
    refine ⟨?_, by simp⟩
    show (((run.caused.state i).inbox a).map _)[k]?.map _ = _
    rw [List.getElem?_map, hm]
    rfl
  | drop b k =>
    rw [he] at h
    cases h
  | forge m =>
    rw [he] at h
    cases h

/-- **What a step does to the messages and their times** when no node is faulty: only a message is
lost, or a node takes an input. -/
theorem caused_cases {i : ℕ} (hi : i < run.length) :
    (∃ a k, run.event i = .drop a k) ∨ ∃ a inp inbox₀, run.Takes i a inp inbox₀ := by
  have hevent : run.caused.event i = (run.event i).tag i := rfl
  rcases moves_cases (run.caused.state_succ i hi) with
    ⟨a, k, m, he, -⟩ | ⟨a, inp, inbox₀, hinput, hmoves⟩
  · refine Or.inl ⟨a, k, ?_⟩
    rw [← (run.event i).tag_map i, ← hevent, he]
    rfl
  · rw [hevent] at hinput
    obtain ⟨hinput, hcause⟩ := run.input?_caused (Nat.le_of_lt hi) hinput
    have hnodes := hmoves.nodes
    rw [run.nodes_caused hi, run.nodes_caused (Nat.le_of_lt hi)] at hnodes
    exact Or.inr ⟨a, inp, inbox₀, hinput, hnodes, hmoves, hcause⟩

section Takes

variable {run} {i : ℕ} {a : Addr} {inp : Input Addr (Call × ℕ) Env (Payload × ℕ)}
  {inbox₀ : Addr → List (Message Addr (Payload × ℕ))}

theorem Takes.self (h : run.Takes i a inp inbox₀) :
    (run.state (i + 1)).nodes a = (act a inp.plain ((run.state i).nodes a)).1 := by
  rw [h.nodes, Function.update_self]

theorem Takes.other (h : run.Takes i a inp inbox₀) {b : Addr} (hb : b ≠ a) :
    (run.state (i + 1)).nodes b = (run.state i).nodes b := by
  rw [h.nodes, Function.update_of_ne hb]

/-- What a node sends goes back to what its input goes back to. -/
theorem Takes.sent (h : run.Takes i a inp inbox₀) (hi : i < run.length)
    {m : Message Addr Payload} (hm : m ∈ (act a inp.plain ((run.state i).nodes a)).2) :
    m.tag inp.cause ∈ (run.caused.state (i + 1)).inbox m.receiverId := by
  refine h.moves.sent (m := m.tag inp.cause) (List.mem_map_of_mem ?_)
  rwa [run.nodes_caused (Nat.le_of_lt hi)]

theorem Takes.mem_inbox (h : run.Takes i a inp inbox₀) (hi : i < run.length) {b : Addr}
    {m : Message Addr Payload} (hm : m ∈ (run.state (i + 1)).inbox b) :
    m ∈ (run.state i).inbox b ∨
      m ∈ (act a inp.plain ((run.state i).nodes a)).2 ∧ m.receiverId = b := by
  rw [← run.inbox_caused hi] at hm
  obtain ⟨m', hm', rfl⟩ := List.mem_map.mp hm
  rcases h.moves.mem_inbox hm' with hold | ⟨hout, hb⟩
  · exact Or.inl (run.mem_inbox_of_caused (Nat.le_of_lt hi) hold)
  · obtain ⟨x, hx, rfl⟩ := List.mem_map.mp hout
    rw [run.nodes_caused (Nat.le_of_lt hi)] at hx
    exact Or.inr ⟨hx, hb⟩

end Takes

end Run

end Infra
