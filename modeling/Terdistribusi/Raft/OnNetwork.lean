import Terdistribusi.Raft.Cluster
import Terdistribusi.Infra.Network

/-!
# Raft nodes with inboxes

`RaftNode`s on the network of `Infra.Network`, where each has an inbox. The cluster of
`Raft.Cluster`, in which all messages are in one list, goes through the same states (`simulates`).
-/

namespace Raft

open Infra (Network Simulation Reaches)

variable {NodeId Command Result : Type}

/-- What makes a node act besides messages. -/
inductive Trigger (Command : Type)
  | tick (expired : Bool)
  | submit (command : Command)
  | submitTimeout (call : ℕ)

/-- A message on the bus, with its `payload` and its `term`. -/
abbrev BusMessage (NodeId Command : Type) := Infra.Message NodeId (Payload NodeId Command × ℕ)

def toBus (m : Message NodeId Command) : BusMessage NodeId Command :=
  { senderId := m.senderId, receiverId := m.receiverId, payload := (m.payload, m.term) }

def ofBus (m : BusMessage NodeId Command) : Message NodeId Command :=
  { senderId := m.senderId, receiverId := m.receiverId, payload := m.payload.1,
    term := m.payload.2 }

def ofInput : Infra.Input NodeId (Trigger Command) Unit (Payload NodeId Command × ℕ) →
    Input NodeId Command
  | .call (.tick expired) => .tick expired
  | .call (.submit command) => .submit command
  | .call (.submitTimeout call) => .submitTimeout call
  | .receive _ m => .receive (ofBus m)

variable [DecidableEq NodeId]

/-- What node `a` does with an input. -/
def Members.actOn (ms : Members NodeId Command Result) (a : NodeId)
    (inp : Infra.Input NodeId (Trigger Command) Unit (Payload NodeId Command × ℕ))
    (n : RaftNode NodeId Command Result) :
    RaftNode NodeId Command Result × List (BusMessage NodeId Command) :=
  let r := n.act (ms.config a) (ofInput inp)
  (r.1, r.2.map toBus)

/-- The nodes with their inboxes. -/
abbrev BusCluster (NodeId Command Result : Type) :=
  Network NodeId (RaftNode NodeId Command Result) (Payload NodeId Command × ℕ)

/-- The messages in flight are those in the inboxes. -/
structure Same (s : BusCluster NodeId Command Result) (t : Cluster NodeId Command Result) :
    Prop where
  nodes : t.nodes = s.nodes
  net : ∀ a, (t.net.filter fun m => m.receiverId = a).Perm ((s.inbox a).map ofBus)

/-! ## The steps correspond -/

variable {ms : Members NodeId Command Result} {s : BusCluster NodeId Command Result}
  {t : Cluster NodeId Command Result}

omit [DecidableEq NodeId] in
theorem Same.initial [DecidableEq NodeId] : Same (Network.initial fun _ => {})
    (Cluster.initial : Cluster NodeId Command Result) :=
  ⟨rfl, fun _ => .refl _⟩

theorem Same.act (h : Same s t) (a : NodeId)
    (inp : Infra.Input NodeId (Trigger Command) Unit (Payload NodeId Command × ℕ)) :
    Same (s.perform ms.actOn a inp) (t.act ms a (ofInput inp)) := by
  constructor
  · show Function.update t.nodes a ((t.nodes a).act (ms.config a) (ofInput inp)).1 = _
    rw [h.nodes]
    rfl
  · intro b
    show (List.filter _ (t.net ++ ((t.nodes a).act (ms.config a) (ofInput inp)).2)).Perm
      ((s.inbox b ++ List.filter _ (((s.nodes a).act (ms.config a) (ofInput inp)).2.map toBus)).map
        ofBus)
    rw [List.filter_append, List.map_append, h.nodes, List.filter_map, List.map_map]
    refine (h.net b).append ?_
    have hid : (ofBus ∘ toBus : Message NodeId Command → Message NodeId Command) = id := rfl
    rw [hid, List.map_id]
    exact .refl _

/-- A message that leaves its inbox leaves the list. -/
theorem Same.remove (h : Same s t) {a : NodeId} {k : ℕ} {m : BusMessage NodeId Command}
    (hm : (s.inbox a)[k]? = some m) : ∃ i, t.net[i]? = some (ofBus m) ∧ m.receiverId = a ∧
      Same (s.remove a k) { t with net := t.net.eraseIdx i } := by
  have hmem : ofBus m ∈ t.net.filter fun x => x.receiverId = a :=
    (h.net a).mem_iff.mpr (List.mem_map_of_mem (List.mem_of_getElem? hm))
  obtain ⟨hin, ha⟩ := List.mem_filter.mp hmem
  have ha : m.receiverId = a := of_decide_eq_true ha
  obtain ⟨i, hi⟩ := List.getElem?_of_mem hin
  refine ⟨i, hi, ha, h.nodes, fun b => ?_⟩
  obtain ⟨hlt, hget⟩ := List.getElem?_eq_some_iff.mp hi
  have hnet : t.net.Perm (ofBus m :: t.net.eraseIdx i) := by
    rw [← hget]
    exact (List.getElem_cons_eraseIdx_perm hlt).symm
  have hold := (hnet.filter fun x => x.receiverId = b).symm.trans (h.net b)
  by_cases hb : b = a
  · subst hb
    rw [Network.inbox_remove_self]
    rw [List.filter_cons_of_pos (by exact decide_eq_true ha)] at hold
    have hinbox := (Network.perm_eraseIdx hm).map ofBus
    exact (hold.trans hinbox).cons_inv
  · rw [Network.inbox_remove_of_ne hb]
    rwa [List.filter_cons_of_neg (by simpa [ofBus, ha] using Ne.symm hb)] at hold

/-- **Raft nodes with inboxes** go through the states of a cluster. -/
theorem simulates : Simulation (Network.step ms.actOn ∅) (step ms) Same := by
  intro s e s' t h hs
  cases e with
  | call a c =>
    simp only [Network.step, Finset.notMem_empty, if_false] at hs
    cases hs
    refine ⟨_, ?_, h.act a (.call c)⟩
    cases c with
    | tick expired => exact .single (e := .tick a expired) rfl
    | submit command => exact .single (e := .submit a command) rfl
    | submitTimeout call => exact .single (e := .submitTimeout a call) rfl
  | deliver a k env =>
    simp only [Network.step, Finset.notMem_empty, if_false] at hs
    split at hs
    · cases hs
    · next m hm =>
      cases hs
      obtain ⟨i, hi, ha, hsame⟩ := h.remove hm
      refine ⟨_, .single (e := .deliver i) ?_, hsame.act a (.receive env m)⟩
      rw [step, hi]
      subst ha
      rfl
  | drop a k =>
    simp only [Network.step] at hs
    split at hs
    · next hk =>
      cases hs
      obtain ⟨i, hi, -, hsame⟩ := h.remove (List.getElem?_eq_getElem hk)
      exact ⟨_, .single (e := .drop i) (by rw [step, hi]), hsame⟩
    · cases hs
  | forge m => simp [Network.step] at hs

end Raft
