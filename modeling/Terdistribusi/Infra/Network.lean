import Terdistribusi.Infra.Run
import Mathlib.Data.Finset.Basic
import Mathlib.Data.Set.Basic
import Mathlib.Data.List.Nodup
import Mathlib.Data.List.FinRange

/-!
# Nodes with inboxes

A system of nodes that send each other messages. In one atomic step a node takes a call from outside
or a message out of its inbox, changes its state and sends messages; a message that is sent goes to
the end of its receiver's inbox.

The messages of an inbox can be taken in any order, and any of them can be lost. A faulty node sends
whatever it likes under its own name, to whomever it likes.

* `step_cases` — what one step can do, for invariants about states and messages
* `moves_cases` — the same when nothing is faulty, with the inboxes exactly as they are
* `everywhere_succ` — from it, the invariants that hold of each node and each message by itself
* `fifo_cases` — the same when nothing is faulty or lost and every inbox is read from its front
* `Ready` — with such inboxes, a message is taken only after everything it rests on
* `exists_call`, `exists_receive`, `reaches_send` — what a node that is not faulty can always do,
  and what can get lost
-/

namespace Infra

/-- A message in flight. -/
structure Message (Addr Payload : Type*) where
  senderId : Addr
  receiverId : Addr
  payload : Payload
  deriving DecidableEq

/-- What a node takes in one step; `env` is what the handler reads besides the message. -/
inductive Input (Addr Call Env Payload : Type*)
  | call (c : Call)
  | receive (env : Env) (m : Message Addr Payload)

/-- The states of all nodes, and their inboxes. -/
structure Network (Addr Node Payload : Type*) where
  nodes : Addr → Node
  inbox : Addr → List (Message Addr Payload)

namespace Network

/-- The events of a network. Messages are named by their place in the inbox. -/
inductive Event (Addr Call Env Payload : Type*)
  | call (a : Addr) (c : Call)
  | deliver (a : Addr) (k : ℕ) (env : Env)
  | drop (a : Addr) (k : ℕ)
  | forge (m : Message Addr Payload)
  deriving DecidableEq

variable {Addr Node Call Env Payload : Type*}

/-- Fresh nodes and empty inboxes. -/
def initial (start : Addr → Node) : Network Addr Node Payload :=
  { nodes := start, inbox := fun _ => [] }

variable [DecidableEq Addr]

/-- Every message goes to the end of its receiver's inbox. -/
def send (ms : List (Message Addr Payload)) (s : Network Addr Node Payload) :
    Network Addr Node Payload :=
  { s with inbox := fun b => s.inbox b ++ ms.filter fun m => m.receiverId = b }

/-- The message at place `k` leaves the inbox of node `a`. -/
def remove (a : Addr) (k : ℕ) (s : Network Addr Node Payload) : Network Addr Node Payload :=
  { s with inbox := Function.update s.inbox a ((s.inbox a).eraseIdx k) }

variable (act : Addr → Input Addr Call Env Payload → Node → Node × List (Message Addr Payload))

/-- Node `a` takes the input `inp`. -/
def perform (a : Addr) (inp : Input Addr Call Env Payload) (s : Network Addr Node Payload) :
    Network Addr Node Payload :=
  let r := act a inp (s.nodes a)
  { s with nodes := Function.update s.nodes a r.1 }.send r.2

/-- One step. What a faulty node does is only seen in the messages it forges. -/
def step (faulty : Finset Addr) (s : Network Addr Node Payload) :
    Event Addr Call Env Payload → Option (Network Addr Node Payload)
  | .call a c => if a ∈ faulty then none else some (s.perform act a (.call c))
  | .deliver a k env =>
    match (s.inbox a)[k]? with
    | none => none
    | some m =>
      if a ∈ faulty then some (s.remove a k)
      else some ((s.remove a k).perform act a (.receive env m))
  | .drop a k => if k < (s.inbox a).length then some (s.remove a k) else none
  | .forge m => if m.senderId ∈ faulty then some (s.send [m]) else none

/-! ## What one step does -/

variable {act} {faulty : Finset Addr} {s s' : Network Addr Node Payload}
  {e : Event Addr Call Env Payload}

theorem mem_send {ms : List (Message Addr Payload)} {m : Message Addr Payload} {b : Addr} :
    m ∈ (s.send ms).inbox b ↔ m ∈ s.inbox b ∨ m ∈ ms ∧ m.receiverId = b := by
  simp [send]

theorem inbox_remove_self (a : Addr) (k : ℕ) :
    (s.remove a k).inbox a = (s.inbox a).eraseIdx k :=
  Function.update_self a _ s.inbox

theorem inbox_remove_of_ne {a b : Addr} (hb : b ≠ a) (k : ℕ) :
    (s.remove a k).inbox b = s.inbox b :=
  Function.update_of_ne hb _ s.inbox

theorem mem_of_mem_remove {a b : Addr} {k : ℕ} {m : Message Addr Payload}
    (h : m ∈ (s.remove a k).inbox b) : m ∈ s.inbox b := by
  by_cases hb : b = a
  · subst hb
    rw [inbox_remove_self] at h
    exact List.mem_of_mem_eraseIdx h
  · rwa [inbox_remove_of_ne hb] at h

/-- Node `a` takes `inp` in the step from `s` to `s'`; it is not faulty, and a message that it takes
was in its inbox. Every message afterwards was there before, or `a` has sent it. -/
structure Acts
    (act : Addr → Input Addr Call Env Payload → Node → Node × List (Message Addr Payload))
    (faulty : Finset Addr) (s s' : Network Addr Node Payload) (a : Addr)
    (inp : Input Addr Call Env Payload) : Prop where
  correct : a ∉ faulty
  nodes : s'.nodes = Function.update s.nodes a (act a inp (s.nodes a)).1
  inbox : ∀ b, ∀ m ∈ s'.inbox b,
    m ∈ s.inbox b ∨ m ∈ (act a inp (s.nodes a)).2 ∧ m.receiverId = b
  received : ∀ env m, inp = .receive env m → m ∈ s.inbox a

/-- No node acts in the step from `s` to `s'`; new messages come from faulty nodes. -/
structure Idles (faulty : Finset Addr) (s s' : Network Addr Node Payload) : Prop where
  nodes : s'.nodes = s.nodes
  inbox : ∀ b, ∀ m ∈ s'.inbox b, m ∈ s.inbox b ∨ m.senderId ∈ faulty

/-- **What one step can do.** At an event that hands a message to a node, `inp` is this message. -/
theorem step_cases (h : step act faulty s e = some s') :
    Idles faulty s s' ∨ ∃ a inp, Acts act faulty s s' a inp ∧
      ∀ env m, inp = .receive env m → ∃ k, e = .deliver a k env ∧ (s.inbox a)[k]? = some m := by
  cases e with
  | call a c =>
    simp only [step] at h
    split at h
    · cases h
    · next ha =>
      cases h
      refine Or.inr ⟨a, .call c, ⟨ha, rfl, fun b m hm => ?_, by simp⟩, by simp⟩
      exact mem_send.mp hm
  | deliver a k env =>
    simp only [step] at h
    split at h
    · cases h
    · next m hm =>
      split at h
      · cases h
        exact Or.inl ⟨rfl, fun b x hx => Or.inl (mem_of_mem_remove hx)⟩
      · next ha =>
        cases h
        refine Or.inr ⟨a, .receive env m, ⟨ha, rfl, fun b x hx => ?_, ?_⟩, ?_⟩
        · exact (mem_send.mp hx).imp_left mem_of_mem_remove
        · rintro env' x ⟨⟩
          exact List.mem_of_getElem? hm
        · rintro env' x ⟨⟩
          exact ⟨k, rfl, hm⟩
  | drop a k =>
    simp only [step] at h
    split at h
    · cases h
      exact Or.inl ⟨rfl, fun b x hx => Or.inl (mem_of_mem_remove hx)⟩
    · cases h
  | forge m =>
    simp only [step] at h
    split at h
    · next hm =>
      cases h
      refine Or.inl ⟨rfl, fun b x hx => (mem_send.mp hx).imp_right fun hx => ?_⟩
      rw [List.mem_singleton.mp hx.1]
      exact hm
    · cases h

/-- A check of a node and a message, made where an event hands a message to a node that is not
faulty. -/
def atDelivery (faulty : Finset Addr) (check : Addr → Node → Message Addr Payload → Bool)
    (s : Network Addr Node Payload) : Event Addr Call Env Payload → Bool
  | .deliver a k _ =>
    match (s.inbox a)[k]? with
    | none => false
    | some m => a ∉ faulty && check a (s.nodes a) m
  | _ => false

theorem check_of_atDelivery {check : Addr → Node → Message Addr Payload → Bool} {a : Addr} {k : ℕ}
    {env : Env} {m : Message Addr Payload}
    (h : atDelivery faulty check s (.deliver a k env : Event Addr Call Env Payload) = false)
    (ha : a ∉ faulty) (hm : (s.inbox a)[k]? = some m) : check a (s.nodes a) m = false := by
  simpa [atDelivery, hm, ha] using h

/-! ## Exact inboxes -/

/-- Node `a` takes `inp` in the step from `s` to `s'`. The inboxes `inbox₀` without the message that
it takes are extended by what it sends, and nothing is lost. -/
structure Moves
    (act : Addr → Input Addr Call Env Payload → Node → Node × List (Message Addr Payload))
    (s s' : Network Addr Node Payload) (a : Addr) (inp : Input Addr Call Env Payload)
    (inbox₀ : Addr → List (Message Addr Payload)) : Prop where
  nodes : s'.nodes = Function.update s.nodes a (act a inp (s.nodes a)).1
  inbox : ∀ b, s'.inbox b = inbox₀ b ++ (act a inp (s.nodes a)).2.filter fun m => m.receiverId = b
  called : ∀ c, inp = .call c → s.inbox = inbox₀
  received : ∀ env m, inp = .receive env m →
    (s.inbox a).Perm (m :: inbox₀ a) ∧ ∀ b, b ≠ a → s.inbox b = inbox₀ b

/-- Only a message is lost in the step from `s` to `s'`. -/
structure Loses (s s' : Network Addr Node Payload) (a : Addr) (m : Message Addr Payload) :
    Prop where
  nodes : s'.nodes = s.nodes
  inbox : (s.inbox a).Perm (m :: s'.inbox a)
  others : ∀ b, b ≠ a → s'.inbox b = s.inbox b

omit [DecidableEq Addr] in
theorem perm_eraseIdx {l : List (Message Addr Payload)} {k : ℕ} {m : Message Addr Payload}
    (h : l[k]? = some m) : l.Perm (m :: l.eraseIdx k) := by
  obtain ⟨hk, rfl⟩ := List.getElem?_eq_some_iff.mp h
  exact (List.getElem_cons_eraseIdx_perm hk).symm

/-- The node that acts in an event, and its input. -/
def input? (s : Network Addr Node Payload) :
    Event Addr Call Env Payload → Option (Addr × Input Addr Call Env Payload)
  | .call a c => some (a, .call c)
  | .deliver a k env => (s.inbox a)[k]?.map fun m => (a, .receive env m)
  | .drop _ _ | .forge _ => none

omit [DecidableEq Addr] in
theorem input?_call {a : Addr} {c : Call} (h : s.input? e = some (a, .call c)) : e = .call a c := by
  cases e with
  | call b c' =>
    cases h
    rfl
  | deliver b k env =>
    obtain ⟨m, -, hm⟩ := Option.map_eq_some_iff.mp h
    cases hm
  | drop b k => cases h
  | forge m => cases h

omit [DecidableEq Addr] in
theorem input?_receive {a : Addr} {env : Env} {m : Message Addr Payload}
    (h : s.input? e = some (a, .receive env m)) :
    ∃ k, e = .deliver a k env ∧ (s.inbox a)[k]? = some m := by
  cases e with
  | call b c => cases h
  | deliver b k env' =>
    obtain ⟨m', hm', heq⟩ := Option.map_eq_some_iff.mp h
    cases heq
    exact ⟨k, rfl, hm'⟩
  | drop b k => cases h
  | forge m => cases h

/-- What node `a` takes in an event. -/
def inputOf (s : Network Addr Node Payload) (a : Addr) (e : Event Addr Call Env Payload) :
    Option (Input Addr Call Env Payload) :=
  (s.input? e).bind fun x => if x.1 = a then some x.2 else none

/-- What one step does to a node that is not faulty. -/
theorem nodes_step {a : Addr} (h : step act faulty s e = some s') (ha : a ∉ faulty) :
    s'.nodes a = match s.inputOf a e with
      | some inp => (act a inp (s.nodes a)).1
      | none => s.nodes a := by
  have hperform : ∀ (b : Addr) (inp : Input Addr Call Env Payload) (t : Network Addr Node Payload),
      t.nodes = s.nodes → (t.perform act b inp).nodes a =
        match if b = a then some inp else none with
        | some inp => (act a inp (s.nodes a)).1
        | none => s.nodes a := by
    intro b inp t ht
    show Function.update t.nodes b (act b inp (t.nodes b)).1 a = _
    rw [ht]
    by_cases hb : b = a
    · subst hb
      rw [Function.update_self, if_pos rfl]
    · rw [Function.update_of_ne (Ne.symm hb), if_neg hb]
  cases e with
  | call b c =>
    simp only [step] at h
    split at h
    · cases h
    · cases h
      exact hperform b (.call c) s rfl
  | deliver b k env =>
    simp only [step] at h
    split at h
    · cases h
    · next m hm =>
      simp only [inputOf, input?, hm, Option.map_some, Option.bind_some]
      split at h
      · next hb =>
        cases h
        rw [if_neg fun hc : b = a => ha (hc ▸ hb)]
        rfl
      · cases h
        exact hperform b (.receive env m) (s.remove b k) rfl
  | drop b k =>
    simp only [step] at h
    split at h
    · cases h
      rfl
    · cases h
  | forge m =>
    simp only [step] at h
    split at h
    · cases h
      rfl
    · cases h

/-- **What one step does to the inboxes** when no node is faulty. -/
theorem moves_cases (h : step act ∅ s e = some s') :
    (∃ a k m, e = .drop a k ∧ Loses s s' a m) ∨
      ∃ a inp inbox₀, s.input? e = some (a, inp) ∧ Moves act s s' a inp inbox₀ := by
  cases e with
  | call a c =>
    simp only [step, Finset.notMem_empty, if_false] at h
    cases h
    exact Or.inr ⟨a, .call c, s.inbox, rfl, ⟨rfl, fun b => rfl, fun _ _ => rfl, by simp⟩⟩
  | deliver a k env =>
    simp only [step, Finset.notMem_empty, if_false] at h
    split at h
    · cases h
    · next m hm =>
      cases h
      refine Or.inr ⟨a, .receive env m, (s.remove a k).inbox, by simp [input?, hm],
        ⟨rfl, fun b => rfl, by simp, ?_⟩⟩
      rintro env' x ⟨⟩
      refine ⟨?_, fun b hb => (inbox_remove_of_ne hb k).symm⟩
      rw [inbox_remove_self]
      exact perm_eraseIdx hm
  | drop a k =>
    simp only [step] at h
    split at h
    · next hk =>
      cases h
      refine Or.inl ⟨a, k, (s.inbox a)[k], rfl, rfl, ?_, fun b hb => inbox_remove_of_ne hb k⟩
      rw [inbox_remove_self]
      exact perm_eraseIdx (List.getElem?_eq_getElem hk)
    · cases h
  | forge m => simp [step] at h

theorem Loses.mem_inbox {a b : Addr} {x m : Message Addr Payload} (h : Loses s s' a x)
    (hm : m ∈ s'.inbox b) : m ∈ s.inbox b := by
  by_cases hb : b = a
  · subst hb
    exact h.inbox.mem_iff.mpr (List.mem_cons_of_mem x hm)
  · rwa [h.others b hb] at hm

section Moves

variable {a : Addr} {inp : Input Addr Call Env Payload}
  {inbox₀ : Addr → List (Message Addr Payload)}

theorem Moves.old (h : Moves act s s' a inp inbox₀) {b : Addr} {m : Message Addr Payload}
    (hm : m ∈ inbox₀ b) : m ∈ s.inbox b := by
  cases inp with
  | call c => rwa [h.called c rfl]
  | receive env x =>
    obtain ⟨hfront, hothers⟩ := h.received env x rfl
    by_cases hb : b = a
    · subst hb
      exact hfront.mem_iff.mpr (List.mem_cons_of_mem x hm)
    · rwa [hothers b hb]

/-- A message stays in flight until it is taken. -/
theorem Moves.kept (h : Moves act s s' a inp inbox₀) {b : Addr} {m : Message Addr Payload}
    (hm : m ∈ s.inbox b) (hne : ∀ env x, inp = .receive env x → b = a → m ≠ x) :
    m ∈ s'.inbox b := by
  rw [h.inbox]
  refine List.mem_append_left _ ?_
  cases inp with
  | call c => rwa [← h.called c rfl]
  | receive env x =>
    obtain ⟨hfront, hothers⟩ := h.received env x rfl
    by_cases hb : b = a
    · subst hb
      exact (List.mem_cons.mp (hfront.mem_iff.mp hm)).resolve_left (hne env x rfl rfl)
    · rwa [← hothers b hb]

theorem Moves.node_self (h : Moves act s s' a inp inbox₀) :
    s'.nodes a = (act a inp (s.nodes a)).1 := by
  rw [h.nodes, Function.update_self]

theorem Moves.node_of_ne (h : Moves act s s' a inp inbox₀) {b : Addr} (hb : b ≠ a) :
    s'.nodes b = s.nodes b := by
  rw [h.nodes, Function.update_of_ne hb]

theorem Moves.sent (h : Moves act s s' a inp inbox₀) {m : Message Addr Payload}
    (hm : m ∈ (act a inp (s.nodes a)).2) : m ∈ s'.inbox m.receiverId := by
  rw [h.inbox]
  exact List.mem_append_right _ (List.mem_filter.mpr ⟨hm, decide_eq_true rfl⟩)

theorem Moves.mem_inbox (h : Moves act s s' a inp inbox₀) {b : Addr} {m : Message Addr Payload}
    (hm : m ∈ s'.inbox b) :
    m ∈ s.inbox b ∨ m ∈ (act a inp (s.nodes a)).2 ∧ m.receiverId = b := by
  rw [h.inbox, List.mem_append] at hm
  refine hm.imp h.old fun hout => ?_
  obtain ⟨hout, hb⟩ := List.mem_filter.mp hout
  exact ⟨hout, of_decide_eq_true hb⟩

/-! ## What can happen next -/

/-- A node that is not faulty takes a call or a message. Nothing is lost then, and nothing forged.
-/
def Event.Working (faulty : Finset Addr) : Event Addr Call Env Payload → Prop
  | .call a _ | .deliver a _ _ => a ∉ faulty
  | .drop _ _ | .forge _ => False

variable (act) in
/-- A node that is not faulty can be called. -/
theorem exists_call (ha : a ∉ faulty) (c : Call) :
    ∃ s', ReachesBy (Event.Working faulty) (step act faulty) s s' ∧
      Moves act s s' a (.call c) s.inbox := by
  have hstep : step act faulty s (.call a c : Event Addr Call Env Payload) =
      some (s.perform act a (.call c)) := by
    simp [step, ha]
  have hworking : Event.Working faulty (.call a c : Event Addr Call Env Payload) := ha
  exact ⟨_, .single hworking hstep, rfl, fun b => rfl, fun _ _ => rfl, by simp⟩

variable (act) in
/-- A node that is not faulty can take any message of its inbox. -/
theorem exists_receive (ha : a ∉ faulty) {m : Message Addr Payload} (hm : m ∈ s.inbox a)
    (env : Env) : ∃ s' inbox₀, ReachesBy (Event.Working faulty) (step act faulty) s s' ∧
      Moves act s s' a (.receive env m) inbox₀ := by
  obtain ⟨k, hk⟩ := List.getElem?_of_mem hm
  have hstep : step act faulty s (.deliver a k env : Event Addr Call Env Payload) =
      some ((s.remove a k).perform act a (.receive env m)) := by
    simp [step, hk, ha]
  have hworking : Event.Working faulty (.deliver a k env : Event Addr Call Env Payload) := ha
  refine ⟨_, (s.remove a k).inbox, .single hworking hstep, rfl, fun b => rfl, by simp, ?_⟩
  rintro env' x ⟨⟩
  refine ⟨?_, fun b hb => (inbox_remove_of_ne hb k).symm⟩
  rw [inbox_remove_self]
  exact perm_eraseIdx hk

end Moves

variable (act faulty s) in
/-- Any of the messages that are sent can be lost. -/
theorem reaches_send {xs ys : List (Message Addr Payload)} (h : ys.Sublist xs) :
    Reaches (step act faulty) (s.send xs) (s.send ys) := by
  have key : ∀ pre, Reaches (step act faulty) (s.send (pre ++ xs)) (s.send (pre ++ ys)) := by
    induction h with
    | slnil => exact fun pre => .refl _ _
    | @cons ys xs m _ ih =>
      intro pre
      have hplace : (s.send (pre ++ m :: xs)).inbox m.receiverId =
          (s.inbox m.receiverId ++ pre.filter fun x => x.receiverId = m.receiverId) ++
            m :: xs.filter fun x => x.receiverId = m.receiverId := by
        simp [send]
      have hdrop : step act faulty (s.send (pre ++ m :: xs)) (.drop m.receiverId
          (s.inbox m.receiverId ++ pre.filter fun x => x.receiverId = m.receiverId).length) =
            some (s.send (pre ++ xs)) := by
        simp only [step]
        rw [if_pos (by rw [hplace]; simp), remove, hplace,
          List.eraseIdx_append_of_length_le (Nat.le_refl _), Nat.sub_self, List.eraseIdx_cons_zero]
        congr 2
        funext b
        by_cases hb : b = m.receiverId
        · subst hb
          simp [send]
        · simp [send, Function.update_of_ne hb, Ne.symm hb]
      exact (Reaches.single hdrop).trans (ih pre)
    | @cons_cons ys xs m _ ih =>
      intro pre
      simpa using ih (pre ++ [m])
  exact key []

/-- What holds of all nodes and of all messages in flight holds after a step, when it holds of the
node that acts and of what it sends. -/
theorem everywhere_succ {N : Addr → Node → Prop} {M : Addr → Message Addr Payload → Prop}
    (hstep : step act ∅ s e = some s') (hnodes : ∀ a, N a (s.nodes a))
    (hinbox : ∀ a, ∀ m ∈ s.inbox a, M a m)
    (hact : ∀ a inp, s.input? e = some (a, inp) → (∀ env m, inp = .receive env m → M a m) →
      N a (act a inp (s.nodes a)).1 ∧ ∀ m ∈ (act a inp (s.nodes a)).2, M m.receiverId m) :
    (∀ a, N a (s'.nodes a)) ∧ ∀ a, ∀ m ∈ s'.inbox a, M a m := by
  rcases moves_cases hstep with ⟨a, k, x, -, hlost⟩ | ⟨a, inp, inbox₀, hinput, hmoves⟩
  · rw [hlost.nodes]
    exact ⟨hnodes, fun b m hm => hinbox b m (hlost.mem_inbox hm)⟩
  · have hreceived : ∀ env m, inp = .receive env m → M a m := by
      rintro env m rfl
      obtain ⟨k, -, hm⟩ := input?_receive hinput
      exact hinbox a m (List.mem_of_getElem? hm)
    obtain ⟨hnode, hsent⟩ := hact a inp hinput hreceived
    constructor
    · intro b
      rw [hmoves.nodes]
      by_cases hb : b = a
      · subst hb
        rw [Function.update_self]
        exact hnode
      · rw [Function.update_of_ne hb]
        exact hnodes b
    · intro b m hm
      rcases hmoves.mem_inbox hm with hold | ⟨hout, rfl⟩
      · exact hinbox b m hold
      · exact hsent m hout

/-! ## Sending the same to all peers -/

/-- The peers of each node are exactly the other nodes, each once. -/
structure Mesh (Addr : Type*) where
  peers : Addr → List Addr
  nodup_peers : ∀ a, (peers a).Nodup
  mem_peers : ∀ a b, b ∈ peers a ↔ b ≠ a

namespace Mesh

theorem nodup_others (n : ℕ) (a : Fin n) : ((List.finRange n).filter fun b => b ≠ a).Nodup :=
  (List.nodup_finRange n).filter _

theorem mem_others (n : ℕ) (a b : Fin n) :
    b ∈ (List.finRange n).filter (fun b => b ≠ a) ↔ b ≠ a := by
  simp

/-- `n` nodes. -/
def full (n : ℕ) : Mesh (Fin n) where
  peers := fun a => (List.finRange n).filter fun b => b ≠ a
  nodup_peers := nodup_others n
  mem_peers := mem_others n

end Mesh

/-- The same payload for each of the peers. -/
def broadcast (a : Addr) (peers : List Addr) (p : Payload) : List (Message Addr Payload) :=
  peers.map fun peer => { senderId := a, receiverId := peer, payload := p }

omit [DecidableEq Addr] in
theorem mem_broadcast {a : Addr} {peers : List Addr} {p : Payload} {m : Message Addr Payload} :
    m ∈ broadcast a peers p ↔ m.senderId = a ∧ m.payload = p ∧ m.receiverId ∈ peers := by
  unfold broadcast
  rw [List.mem_map]
  constructor
  · rintro ⟨peer, hpeer, rfl⟩
    exact ⟨rfl, rfl, hpeer⟩
  · rintro ⟨ha, hp, hr⟩
    exact ⟨m.receiverId, hr, by rw [← ha, ← hp]⟩

/-- Each peer gets one message. -/
theorem filter_broadcast (a b : Addr) (p : Payload) : ∀ {peers : List Addr}, peers.Nodup →
    ((broadcast a peers p).filter fun m => m.receiverId = b) =
      if b ∈ peers then [{ senderId := a, receiverId := b, payload := p }] else []
  | [], _ => rfl
  | c :: peers, hn => by
    obtain ⟨hc, hn'⟩ := List.nodup_cons.mp hn
    have ih := filter_broadcast a b p hn'
    unfold broadcast at ih ⊢
    rw [List.map_cons]
    by_cases hcb : c = b
    · subst hcb
      rw [List.filter_cons_of_pos (by simp), ih, if_neg hc, if_pos List.mem_cons_self]
    · rw [List.filter_cons_of_neg (by simpa using hcb), ih]
      simp [Ne.symm hcb]

/-! ## Inboxes in order -/

/-- The event reads an inbox from its front, or is a call. -/
def Event.fifo : Event Addr Call Env Payload → Bool
  | .call _ _ => true
  | .deliver _ k _ => k = 0
  | .drop _ _ | .forge _ => false

/-- Node `a` takes `inp` in the step from `s` to `s'`. The inboxes `inbox₀` without the message that
it takes are extended by what it sends. -/
structure ActsInOrder
    (act : Addr → Input Addr Call Env Payload → Node → Node × List (Message Addr Payload))
    (s s' : Network Addr Node Payload) (a : Addr) (inp : Input Addr Call Env Payload)
    (inbox₀ : Addr → List (Message Addr Payload)) : Prop where
  nodes : s'.nodes = Function.update s.nodes a (act a inp (s.nodes a)).1
  inbox : ∀ b, s'.inbox b = inbox₀ b ++ (act a inp (s.nodes a)).2.filter fun m => m.receiverId = b
  called : ∀ c, inp = .call c → s.inbox = inbox₀
  received : ∀ env m, inp = .receive env m →
    s.inbox a = m :: inbox₀ a ∧ ∀ b, b ≠ a → s.inbox b = inbox₀ b

theorem ActsInOrder.acts {a : Addr} {inp : Input Addr Call Env Payload}
    {inbox₀ : Addr → List (Message Addr Payload)} (h : ActsInOrder act s s' a inp inbox₀) :
    Acts act ∅ s s' a inp := by
  refine ⟨Finset.notMem_empty a, h.nodes, fun b m hm => ?_, fun env m hinp => ?_⟩
  · rw [h.inbox, List.mem_append] at hm
    rcases hm with hm | hm
    · refine Or.inl ?_
      cases inp with
      | call c =>
        rw [h.called c rfl]
        exact hm
      | receive env x =>
        obtain ⟨hfront, hothers⟩ := h.received env x rfl
        by_cases hb : b = a
        · subst hb
          rw [hfront]
          exact List.mem_cons_of_mem x hm
        · rw [hothers b hb]
          exact hm
    · obtain ⟨hout, hb⟩ := List.mem_filter.mp hm
      exact Or.inr ⟨hout, of_decide_eq_true hb⟩
  · rw [(h.received env m hinp).1]
    exact List.mem_cons_self

/-- **What one step can do in order.** -/
theorem fifo_cases (h : step act ∅ s e = some s') (hfifo : e.fifo = true) :
    ∃ a inp inbox₀, ActsInOrder act s s' a inp inbox₀ ∧
      ∀ b c, e = .call b c ↔ b = a ∧ inp = .call c := by
  cases e with
  | call a c =>
    simp only [step, Finset.notMem_empty, if_false] at h
    cases h
    exact ⟨a, .call c, s.inbox, ⟨rfl, fun b => rfl, fun _ _ => rfl, by simp⟩, by simp [eq_comm]⟩
  | deliver a k env =>
    obtain rfl : k = 0 := of_decide_eq_true hfifo
    simp only [step, Finset.notMem_empty, if_false] at h
    split at h
    · cases h
    · next m hm =>
      cases h
      obtain ⟨rest, hrest⟩ : ∃ rest, s.inbox a = m :: rest := by
        cases hl : s.inbox a with
        | nil => rw [hl] at hm; cases hm
        | cons x rest =>
          rw [hl] at hm
          obtain rfl : x = m := Option.some.inj hm
          exact ⟨rest, rfl⟩
      refine ⟨a, .receive env m, Function.update s.inbox a rest,
        ⟨rfl, fun b => ?_, by simp, ?_⟩, by simp⟩
      · show Function.update s.inbox a ((s.inbox a).eraseIdx 0) b ++ _ = _
        rw [hrest]
        rfl
      · rintro env' x ⟨⟩
        exact ⟨by rw [Function.update_self, hrest], fun b hb => by rw [Function.update_of_ne hb]⟩
  | drop a k => cases hfifo
  | forge m => cases hfifo

/-! ### What a message rests on

A label says what a message is about. A node has seen a label when it has taken in what messages
with this label bring; it knows the label when it has seen it or such a message is in its inbox. -/

section Ready

variable {Label : Type*} (label : Message Addr Payload → Label) (seen : Addr → Node → Label → Prop)

/-- Node `a` has seen the label, or it will. -/
def Known (s : Network Addr Node Payload) (a : Addr) (q : Label) : Prop :=
  seen a (s.nodes a) q ∨ q ∈ (s.inbox a).map label

/-- Everything that a message in an inbox rests on has been seen or is in front of it. -/
def Ready (pre : Addr → Message Addr Payload → Set Label → Prop) (s : Network Addr Node Payload) :
    Prop :=
  ∀ a l₁ m l₂, s.inbox a = l₁ ++ m :: l₂ →
    pre a m { q | seen a (s.nodes a) q ∨ q ∈ l₁.map label }

variable {label seen} {pre : Addr → Message Addr Payload → Set Label → Prop} {a : Addr}
  {inp : Input Addr Call Env Payload} {inbox₀ : Addr → List (Message Addr Payload)}

omit [DecidableEq Addr] in
/-- The message at the front of an inbox rests on what the node has seen. -/
theorem Ready.front (h : Ready label seen pre s) {m : Message Addr Payload}
    {rest : List (Message Addr Payload)} (hm : s.inbox a = m :: rest) :
    pre a m { q | seen a (s.nodes a) q } := by
  simpa using h a [] m rest hm

/-- The step of a node that forgets nothing it has seen, and sees the message that it takes. -/
structure Learns (label : Message Addr Payload → Label) (seen : Addr → Node → Label → Prop)
    (act : Addr → Input Addr Call Env Payload → Node → Node × List (Message Addr Payload))
    (n : Node) (a : Addr) (inp : Input Addr Call Env Payload) : Prop where
  keeps : ∀ q, seen a n q → seen a (act a inp n).1 q
  sees : ∀ env m, inp = .receive env m → seen a (act a inp n).1 (label m)

variable (hacts : ActsInOrder act s s' a inp inbox₀)
  (hlearns : Learns label seen act (s.nodes a) a inp)

include hacts hlearns

theorem seen_succ {b : Addr} {q : Label} (h : seen b (s.nodes b) q) :
    seen b (s'.nodes b) q := by
  rw [hacts.nodes]
  by_cases hb : b = a
  · subst hb
    rw [Function.update_self]
    exact hlearns.keeps q h
  · rwa [Function.update_of_ne hb]

/-- In order, what a node knows it still knows after a step. -/
theorem known_succ {b : Addr} {q : Label} (h : Known label seen s b q) :
    seen b (s'.nodes b) q ∨ q ∈ (inbox₀ b).map label := by
  rcases h with h | h
  · exact Or.inl (seen_succ hacts hlearns h)
  · cases hinp : inp with
    | call c =>
      rw [hacts.called c hinp] at h
      exact Or.inr h
    | receive env m =>
      obtain ⟨hfront, hothers⟩ := hacts.received env m hinp
      by_cases hb : b = a
      · subst hb
        rw [hfront, List.map_cons, List.mem_cons] at h
        rcases h with rfl | h
        · refine Or.inl ?_
          rw [hacts.nodes, Function.update_self]
          exact hlearns.sees env m hinp
        · exact Or.inr h
      · rw [hothers b hb] at h
        exact Or.inr h

theorem Known.succ {b : Addr} {q : Label} (h : Known label seen s b q) :
    Known label seen s' b q := by
  refine (known_succ hacts hlearns h).imp_right fun hq => ?_
  rw [hacts.inbox, List.map_append]
  exact List.mem_append_left _ hq

/-- Inboxes stay ready when every message that is sent rests on what its receiver knows. -/
theorem Ready.succ (h : Ready label seen pre s)
    (hmono : ∀ b m (K K' : Set Label), K ⊆ K' → pre b m K → pre b m K')
    (hnew : ∀ b l₁ m l₂,
      ((act a inp (s.nodes a)).2.filter fun m => m.receiverId = b) = l₁ ++ m :: l₂ →
      pre b m { q | Known label seen s b q ∨ q ∈ l₁.map label }) :
    Ready label seen pre s' := by
  intro b l₁ m l₂ hsplit
  rw [hacts.inbox, List.append_eq_append_iff] at hsplit
  rcases hsplit with ⟨l, hl₁, hout⟩ | ⟨l, hin, hl⟩
  · -- the message is new
    refine hmono b m _ _ ?_ (hnew b l m l₂ hout)
    rintro q (hq | hq)
    · rcases known_succ hacts hlearns hq with hq | hq
      · exact Or.inl hq
      · refine Or.inr ?_
        rw [hl₁, List.map_append]
        exact List.mem_append_left _ hq
    · refine Or.inr ?_
      rw [hl₁, List.map_append]
      exact List.mem_append_right _ hq
  · cases l with
    | nil =>
      rw [List.append_nil] at hin
      refine hmono b m _ _ ?_ (hnew b [] m l₂ hl.symm)
      rintro q (hq | hq)
      · rw [← hin]
        exact known_succ hacts hlearns hq
      · cases hq
    | cons x l =>
      obtain ⟨rfl, hl₂⟩ := List.cons.inj hl
      -- it was in the inbox before
      cases hinp : inp with
      | call c =>
        rw [← hacts.called c hinp] at hin
        refine hmono b m _ _ ?_ (h b l₁ m l hin)
        rintro q (hq | hq)
        · exact Or.inl (seen_succ hacts hlearns hq)
        · exact Or.inr hq
      | receive env x =>
        obtain ⟨hfront, hothers⟩ := hacts.received env x hinp
        by_cases hb : b = a
        · subst hb
          rw [hin] at hfront
          refine hmono b m _ _ ?_ (h b (x :: l₁) m l hfront)
          rintro q (hq | hq)
          · exact Or.inl (seen_succ hacts hlearns hq)
          · rw [List.map_cons, List.mem_cons] at hq
            rcases hq with rfl | hq
            · refine Or.inl ?_
              rw [hacts.nodes, Function.update_self]
              exact hlearns.sees env x hinp
            · exact Or.inr hq
        · rw [← hothers b hb] at hin
          refine hmono b m _ _ ?_ (h b l₁ m l hin)
          rintro q (hq | hq)
          · exact Or.inl (seen_succ hacts hlearns hq)
          · exact Or.inr hq

end Ready

end Network

end Infra
